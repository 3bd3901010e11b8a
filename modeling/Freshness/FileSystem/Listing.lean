import Freshness.FileSystem.Lookup

/-!
# What lies below a directory

The walk is depth first and takes the entries of each directory by name.  It leaves out
what lies below a directory that cannot be listed, and follows no link but the one it
may begin with.
-/

namespace Freshness
namespace FileSystem

/-- The directories that cannot be listed. -/
def unlisted (fs : FileSystem) : List Location :=
  fs.entries.toList.filterMap fun (l, e) =>
    match e with
    | ⟨.directory, _, .locked⟩ => some l
    | _ => none

/-- One of the given directories is at `base` or below it, and above `l`. -/
def cutsOff (directories : List Location) (base l : Location) : Bool :=
  directories.any fun d => (base.below? d).isSome && (d.below? l).any (· ≠ [])

/-- The entries below the directory at `base`, each with the names that lead to it. -/
def entriesBelow (fs : FileSystem) (base : Location) : List (List Name × Entry) :=
  let unlisted := fs.unlisted
  let found := fs.entries.toList.filterMap fun (l, e) =>
    match base.below? l with
    | none | some [] => none
    | some names => if cutsOff unlisted base l then none else some (names, e)
  found.mergeSort fun a b => (compare a.1 b.1).isLE

/-- The files below the directory at `root`. -/
def filesBelow (fs : FileSystem) (root : Path) : List Path :=
  match fs.resolve root with
  | .error _ => []
  | .ok base =>
      (fs.entriesBelow base).filterMap fun (names, e) =>
        match e.node with
        | .file _ =>
            let directory := names.dropLast.foldl Path.child root
            if directory.bytes.length > maximalPathLength then none
            else some (names.foldl Path.child root)
        | .directory | .link _ => none

end FileSystem
end Freshness
