import Std.Data.TreeSet
import Freshness.Scan

/-!
# The dependency graph

Which symbols each unit refers to, and which units refer to each symbol.
-/

namespace Freshness

/-- Compiled units with their references in both directions. -/
structure DependencyGraph where
  units : UnitMap := {}
  /-- The symbols that each unit refers to, in order. -/
  forward : Std.TreeMap Identity (List Identity) := {}
  /-- The units that refer to each symbol. -/
  affectedBy : Std.TreeMap Identity (Std.TreeSet Identity) := {}

namespace DependencyGraph

/-- Records that the unit `id` refers to `symbol`. -/
def addEdge (id : Identity) (affectedBy : Std.TreeMap Identity (Std.TreeSet Identity))
    (symbol : Identity) : Std.TreeMap Identity (Std.TreeSet Identity) :=
  affectedBy.insert symbol ((affectedBy.getD symbol {}).insert id)

/-- The units that refer to each symbol, from the symbols that each unit refers to. -/
def invert (forward : Std.TreeMap Identity (List Identity)) :
    Std.TreeMap Identity (Std.TreeSet Identity) :=
  forward.foldl (fun affectedBy id symbols => symbols.foldl (addEdge id) affectedBy) {}

/-- The graph of the given units with the references that are given for them. -/
def ofReferences (units : UnitMap) (given : Std.TreeMap Identity (List Identity)) :
    DependencyGraph :=
  let forward := units.map fun id _ => given.getD id []
  ⟨units, forward, invert forward⟩

/-- The unit with an identity. -/
def unit? (g : DependencyGraph) (id : Identity) : Option CompiledUnit := g.units[id]?

/-- There is a unit with the identity. -/
def contains (g : DependencyGraph) (id : Identity) : Bool := g.units.contains id

/-- The symbols that a unit refers to. -/
def references (g : DependencyGraph) (id : Identity) : List Identity := g.forward.getD id []

/-- The units with the given identities. -/
def unitsOf (g : DependencyGraph) (ids : Std.TreeSet Identity) : List CompiledUnit :=
  ids.toList.filterMap g.unit?

/-- The units that refer to a symbol, by identity. -/
def dependents (g : DependencyGraph) (symbol : Identity) : List CompiledUnit :=
  g.unitsOf (g.affectedBy.getD symbol {})

end DependencyGraph
end Freshness
