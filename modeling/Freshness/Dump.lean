import Freshness.OutOfDate
import Freshness.Text.Json

/-!
# Dumps of the graph

What a graph and its libraries look like to a reader and to another program.
-/

namespace Freshness

/-- The references between units, and to libraries. -/
structure GraphDump where
  dependencies : List (Identity × List Identity)
  /-- The units that refer to each unit; units that nothing refers to are left out. -/
  affectedBy : List (Identity × List Identity)
  libraries : List (Identity × List Path)
deriving DecidableEq, Repr

namespace GraphDump

/-- The units that refer to a symbol, if it is a unit and there are some. -/
def affected? (g : DependencyGraph) (symbol : Identity) : Option (Identity × List Identity) :=
  let ids := (g.dependents symbol).map CompiledUnit.id
  if g.contains symbol && !ids.isEmpty then some (symbol, ids) else none

/-- The dump of a graph and its libraries. -/
def ofGraph (g : DependencyGraph) (libraries : Option LibraryMap) : GraphDump where
  dependencies := g.forward.toList
  affectedBy := g.affectedBy.keys.filterMap (affected? g)
  libraries := (libraries.getD {}).toList.map fun (id, paths) => (id, paths.toList)

/-- The lines of a section: a heading, and under each identity its items. -/
def sectionText (heading arrow : String) (groups : List (Identity × List String)) : String :=
  heading ++ ":\n" ++ String.join (groups.map fun (id, items) =>
    "  " ++ id ++ "\n" ++ String.join (items.map fun item => arrow ++ item ++ "\n"))

/-- The dump for a reader. -/
def text (d : GraphDump) : String :=
  sectionText "Class dependencies" "    -> " d.dependencies
    ++ sectionText "Affected by" "    <- " d.affectedBy
    ++ (if d.libraries.isEmpty then ""
        else sectionText "Library dependencies" "    => "
          (d.libraries.map fun (id, paths) => (id, paths.map Path.display)))

/-- Lists of texts by identity as a document. -/
def groupsJson (groups : List (Identity × List String)) : Json :=
  .object (groups.map fun (id, items) => (id, Json.ofTexts items))

/-- The libraries of a dump as texts, if the paths are texts. -/
def libraryTexts? (d : GraphDump) : Option (List (Identity × List String)) :=
  d.libraries.mapM fun (id, paths) => (paths.mapM Path.toString?).map (id, ·)

/-- The dump for another program.  Paths that are no text cannot be in it. -/
def json? (d : GraphDump) : Option Json := do
  let libraries ← d.libraryTexts?
  return .object ([("dependencies", groupsJson d.dependencies),
    ("affected_by", groupsJson d.affectedBy)]
    ++ if libraries.isEmpty then [] else [("libraries", groupsJson libraries)])

end GraphDump
end Freshness
