import Freshness.Library

/-!
# Units that are out of date

A unit is out of date when it was never compiled, when its source is newer than its
artifact, or when a library it depends on is.
-/

namespace Freshness

/-- Why a unit is out of date. -/
inductive StaleReason
  | neverCompiled
  | sourceNewer
  | libraryNewer (library : Path)
deriving DecidableEq, Repr

namespace StaleReason

/-- The wording of a reason. -/
def message : StaleReason → String
  | neverCompiled => "not compiled"
  | sourceNewer => "source changed"
  | libraryNewer library => s!"library {library.display} changed"

end StaleReason

/-- The identities that are out of date, with the first reason found for each. -/
abbrev OutOfDate := Std.TreeMap Identity StaleReason

namespace OutOfDate

/-- A source is newer than an artifact, or the time of the artifact is not known. -/
def newerThanArtifact (fs : FileSystem) (source artifact : Path) : Bool :=
  match fs.modified? source, fs.modified? artifact with
  | _, none => true
  | none, some _ => false
  | some s, some a => a < s

/-- The reason that a source gives for its unit to be out of date. -/
def sourceReason? (fs : FileSystem) (g : DependencyGraph) (source : SourceUnit) :
    Option StaleReason :=
  match g.unit? source.id with
  | none => some .neverCompiled
  | some unit =>
      if newerThanArtifact fs source.path unit.absolute then some .sourceNewer else none

/-- The reason that libraries give for a unit to be out of date. -/
def libraryReason? (fs : FileSystem) (g : DependencyGraph) (id : Identity)
    (libraries : PathSet) : Option StaleReason :=
  match g.unit? id with
  | none => none
  | some unit =>
      (libraries.toList.find? (fs.isNewer · unit.absolute)).map StaleReason.libraryNewer

/-- Adds a reason, if there is one and none is known. -/
def add (stale : OutOfDate) (id : Identity) : Option StaleReason → OutOfDate
  | none => stale
  | some reason => stale.insertIfNew id reason

/-- The identities that are out of date by their sources. -/
def bySources (fs : FileSystem) (g : DependencyGraph) (sources : List SourceUnit) : OutOfDate :=
  sources.foldl (fun stale source => add stale source.id (sourceReason? fs g source)) {}

/-- The identities that are out of date. -/
def find (fs : FileSystem) (sources : List SourceUnit) (g : DependencyGraph)
    (libraries : Option LibraryMap) : OutOfDate :=
  let stale := bySources fs g sources
  match libraries with
  | none => stale
  | some map =>
      map.foldl (fun stale id libraries => add stale id (libraryReason? fs g id libraries)) stale

end OutOfDate
end Freshness
