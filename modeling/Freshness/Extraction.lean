import Freshness.Cache
import Freshness.Graph

/-!
# Building the graph

The references of each unit come from the cache or, if it does not have them, from the
unit's artifact.  An artifact that cannot be read or is refused ends the building; a cache
that cannot be read or written does not.
-/

namespace Freshness

/-- Finds the references of an artifact in its bytes, or says why it refuses them. -/
abbrev Extractor (ε : Type) := Bytes → Except ε (List Identity)

/-- Why there is no graph. -/
inductive ExtractionError (ε : Type)
  | unreadable (path : Path) (source : OsError)
  | refused (path : Path) (source : ε)
deriving Repr

namespace ExtractionError

/-- The wording of an error, given that of the extractor's errors. -/
def message {ε : Type} (wording : ε → String) : ExtractionError ε → String
  | unreadable path source => s!"failed to read compiled unit {path.display}: {source.message}"
  | refused path source =>
      s!"failed to extract references from {path.display}: {wording source}"

end ExtractionError

/-- How many units had their references in the cache, and how many were extracted. -/
structure GraphStats where
  cached : Nat := 0
  extracted : Nat := 0
deriving DecidableEq, Repr

/-- What has been done for the units so far. -/
structure Gathering where
  fileSystem : FileSystem
  forward : Std.TreeMap Identity (List Identity) := {}
  stats : GraphStats := {}
  /-- The units whose artifacts were shown to the extractor, latest first. -/
  consulted : List Identity := []

namespace Gathering

variable {ε : Type}

/-- Takes the references of a unit from the cache. -/
def hit (g : Gathering) (unit : CompiledUnit) (symbols : List Identity) : Gathering :=
  { g with
    forward := g.forward.insert unit.id symbols
    stats := { g.stats with cached := g.stats.cached + 1 } }

/-- Takes the references of a unit from its artifact, and keeps them in the cache if there
is one. -/
def keep (cache : Option Cache) (g : Gathering) (unit : CompiledUnit)
    (symbols : List Identity) : Gathering :=
  { g with
    fileSystem :=
      match cache with
      | none => g.fileSystem
      | some cache => (cache.put g.fileSystem unit symbols).2
    forward := g.forward.insert unit.id symbols
    stats := { g.stats with extracted := g.stats.extracted + 1 } }

/-- Records that a unit was shown to the extractor. -/
def consult (g : Gathering) (unit : CompiledUnit) : Gathering :=
  { g with consulted := unit.id :: g.consulted }

/-- Finds the references of one unit. -/
def addUnit (cache : Option Cache) (extract : Extractor ε) (g : Gathering)
    (unit : CompiledUnit) : Except (ExtractionError ε) Unit × Gathering :=
  match cache.bind (·.get g.fileSystem unit) with
  | some symbols => (.ok (), g.hit unit symbols)
  | none =>
      match g.fileSystem.read unit.absolute with
      | .error e => (.error (.unreadable unit.absolute e), g)
      | .ok bytes =>
          match extract bytes with
          | .error e => (.error (.refused unit.absolute e), g.consult unit)
          | .ok symbols => (.ok (), (g.consult unit).keep cache unit symbols)

/-- Finds the references of the units in order, up to the first error. -/
def addUnits (cache : Option Cache) (extract : Extractor ε) (g : Gathering) :
    List CompiledUnit → Except (ExtractionError ε) Unit × Gathering
  | [] => (.ok (), g)
  | unit :: rest =>
      match g.addUnit cache extract unit with
      | (.error e, g) => (.error e, g)
      | (.ok (), g) => g.addUnits cache extract rest

end Gathering

namespace DependencyGraph

/-- The graph of the given units, and what was done to build it. -/
def build {ε : Type} (fs : FileSystem) (units : UnitMap) (cache : Option Cache)
    (extract : Extractor ε) : Except (ExtractionError ε) DependencyGraph × Gathering :=
  match ({ fileSystem := fs } : Gathering).addUnits cache extract units.values with
  | (.error e, g) => (.error e, g)
  | (.ok (), g) => (.ok (ofReferences units g.forward), g)

end DependencyGraph
end Freshness
