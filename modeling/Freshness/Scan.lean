import Std.Data.TreeMap
import Freshness.CompiledUnit
import Freshness.FileSystem.Listing

/-!
# Scanning roots

The compiled units and the sources below lists of root directories.
-/

namespace Freshness

/-- A source file. -/
structure SourceUnit where
  id : Identity
  path : Path
deriving DecidableEq, Repr

/-- Compiled units by identity. -/
abbrev UnitMap := Std.TreeMap Identity CompiledUnit

namespace Scan

/-- The compiled units by identity; of several with one identity the last one counts. -/
def ofUnits (units : List CompiledUnit) : UnitMap :=
  units.foldl (fun map unit => map.insert unit.id unit) {}

/-- The compiled units below one root, in the order of the walk. -/
def unitsBelow (fs : FileSystem) (root : Path) : List CompiledUnit :=
  (fs.filesBelow root).filterMap (CompiledUnit.ofArtifact? root)

/-- The compiled units below the roots; a later root comes before an earlier one. -/
def compiledUnits (fs : FileSystem) (roots : List Path) : UnitMap :=
  ofUnits (roots.flatMap (unitsBelow fs))

/-- The source file at `p` below `root`, if it is one by its name. -/
def source? (root p : Path) : Option SourceUnit := do
  let below ← p.relativeTo? root
  let (_, id) ← Identity.ofRelative? below Identity.sourceExtension
  return ⟨id, p⟩

/-- The sources below one root, in the order of the walk. -/
def sourcesBelow (fs : FileSystem) (root : Path) : List SourceUnit :=
  (fs.filesBelow root).filterMap (source? root)

/-- The sources below the roots, by identity. -/
def sourceUnits (fs : FileSystem) (roots : List Path) : List SourceUnit :=
  (roots.flatMap (sourcesBelow fs)).mergeSort fun a b => (compare a.id b.id).isLE

end Scan
end Freshness
