import Freshness.Archive.Directory
import Freshness.FileSystem.Lookup
import Freshness.Identity

/-!
# The classpath

Libraries are looked up in directories and archives in the order in which they are listed.
The names in an archive are read once, when a lookup first comes to it.
-/

namespace Freshness

/-- A place to look for libraries. -/
inductive ClasspathEntry
  | directory (path : Path)
  /-- An archive, with the names in it if they have been read. -/
  | archive (path : Path) (names : Option (List String))
deriving DecidableEq, Repr

/-- The places to look for libraries, in order. -/
structure Classpath where
  entries : List ClasspathEntry := []
deriving DecidableEq, Repr

namespace ClasspathEntry

/-- The extensions of archives, in any case. -/
def isArchiveExtension (extension : Name) : Bool :=
  match Utf8.decode? extension with
  | some text => text.toLower = "jar" ∨ text.toLower = "zip"
  | none => false

/-- The place that a path stands for, if it is a directory or an archive. -/
def ofPath? (fs : FileSystem) (p : Path) : Option ClasspathEntry :=
  if fs.isDirectory p then some (.directory p)
  else if p.extension?.any isArchiveExtension && fs.isFile p then some (.archive p none)
  else none

/-- The names in the archive at `p`; one that cannot be read has none. -/
def archiveNames (fs : FileSystem) (p : Path) : List String :=
  match fs.read p with
  | .ok content => (Archive.names? content).getD []
  | .error _ => []

/-- What supplies the class file `name`, and the place as it is after the lookup. -/
def lookup (fs : FileSystem) (name : String) : ClasspathEntry → Option Path × ClasspathEntry
  | .directory p =>
      let candidate := p.join (Path.ofString name)
      (if fs.isFile candidate then some candidate else none, .directory p)
  | .archive p names =>
      let names := names.getD (archiveNames fs p)
      (if names.contains name then some p else none, .archive p (some names))

end ClasspathEntry

namespace Classpath

/-- The places among the given paths. -/
def ofPaths (fs : FileSystem) (paths : List Path) : Classpath :=
  ⟨paths.filterMap (ClasspathEntry.ofPath? fs)⟩

/-- The name of the class file of a symbol within a library. -/
def entryName (symbol : Identity) : String :=
  String.ofList (symbol.toList.map fun c => if c = '.' then '/' else c) ++ ".class"

/-- What supplies the class file `name` first, and the places after the lookup. -/
def lookupFirst (fs : FileSystem) (name : String) :
    List ClasspathEntry → Option Path × List ClasspathEntry
  | [] => (none, [])
  | entry :: rest =>
      match entry.lookup fs name with
      | (some p, entry) => (some p, entry :: rest)
      | (none, entry) =>
          let (found, rest) := lookupFirst fs name rest
          (found, entry :: rest)

/-- The library that supplies a symbol. -/
def resolve (fs : FileSystem) (symbol : Identity) : StateM Classpath (Option Path) :=
  fun classpath =>
    let (found, entries) := lookupFirst fs (entryName symbol) classpath.entries
    (found, ⟨entries⟩)

end Classpath
end Freshness
