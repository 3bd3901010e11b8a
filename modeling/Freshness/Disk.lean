import Freshness.ClassFile.References
import Freshness.CommandLine.Program

/-!
# The tree on disk

A run works on a tree that it is given as a value.  Here the parts of the tree on disk
that a run looks at are read into such a value, and the changes that a run has made to it
are made on disk.
-/

namespace Freshness
namespace Disk

/-- The entry on disk at a location. -/
def entryAt (l : Location) : IO.FS.DirEntry where
  root :=
    "/" ++ String.join (l.holder.names.reverse.map fun name => Utf8.decodeLossy name ++ "/")
  fileName := Utf8.decodeLossy (l.names.head?.getD [])

/-- Adds the entry at `l`, as yet without content. -/
def loadEntry (fs : FileSystem) (l : Location) : IO FileSystem := do
  if (fs.entry? l).isSome then return fs
  let path := (entryAt l).path
  try
    let found ← path.symlinkMetadata
    let modified := found.modified.sec * 1000000000 + found.modified.nsec.toNat
    match found.type with
    | .file => return fs.put l ⟨.file [], modified, .free⟩
    | .dir => return fs.put l ⟨.directory, modified, .free⟩
    | .symlink =>
        let target ← IO.FS.realPath path
        return fs.put l ⟨.link (Path.ofString target.toString), modified, .free⟩
    | .other => return fs
  catch _ => return fs

/-- Adds the entries that names lead to from `here`, one after the other. -/
partial def loadAlong (fs : FileSystem) (here : Location) : List Name → IO FileSystem
  | [] => return fs
  | name :: rest => do
      if name = [Path.dot] then loadAlong fs here rest
      else if name = [Path.dot, Path.dot] then loadAlong fs here.holder rest
      else
        let next := here.child name
        let fs ← loadEntry fs next
        match fs.node? next with
        | some (.link target) => loadAlong fs .root (FileSystem.route target ++ rest)
        | some .directory => loadAlong fs next rest
        | _ => return fs

/-- Adds the entries along `p`. -/
def load (fs : FileSystem) (p : Path) : IO FileSystem :=
  loadAlong fs (fs.origin p) (FileSystem.route p)

/-- Adds the entries along `p`, and the content if it is a file. -/
def loadContent (fs : FileSystem) (p : Path) : IO FileSystem := do
  let fs ← load fs p
  let .ok l := fs.resolve p | return fs
  let some ⟨.file _, modified, _⟩ := fs.entry? l | return fs
  match ← (IO.FS.readBinFile (entryAt l).path).toBaseIO with
  | .ok content => return fs.put l ⟨.file content.toList, modified, .free⟩
  | .error _ => return fs.put l ⟨.file [], modified, .locked⟩

/-- Adds the entries below the directory at `l`. -/
partial def loadBelow (fs : FileSystem) (l : Location) : IO FileSystem := do
  match ← (entryAt l).path.readDir.toBaseIO with
  | .error _ =>
      let some e := fs.entry? l | return fs
      return fs.put l { e with access := .locked }
  | .ok found =>
      found.foldlM (fun fs entry => do
        let next := l.child (Utf8.encode entry.fileName)
        let fs ← loadEntry fs next
        if fs.node? next = some .directory then loadBelow fs next else return fs) fs

/-- Adds the entries along `p`, and those below it if it is a directory. -/
def loadTree (fs : FileSystem) (p : Path) : IO FileSystem := do
  let fs ← load fs p
  let .ok l := fs.resolve p | return fs
  if fs.node? l = some .directory then loadBelow fs l else return fs

/-- Adds what a run with the given settings looks at: the roots, the cache entries of the
units, the artifacts that the cache does not answer for, and the places on the classpath
where the symbols they refer to may be. -/
def loadRun (fs : FileSystem) (settings : Settings) : IO FileSystem := do
  let fs ← (settings.sourceRoots ++ settings.outputRoots).foldlM loadTree fs
  let fs ← settings.cacheRoot.toList.foldlM load fs
  let fs ← settings.classpath.foldlM loadContent fs
  let units := Scan.compiledUnits fs settings.outputRoots
  let cache := settings.cacheRoot.map Cache.mk
  let fs ← units.values.foldlM (fun fs unit => do
    let fs ← cache.toList.foldlM (fun fs cache => do
      load (← loadContent fs (cache.entryPath unit)) (cache.temporaryPath unit)) fs
    if (cache.bind (·.get fs unit)).isSome then return fs
    else loadContent fs unit.absolute) fs
  let (.ok graph, _) := DependencyGraph.build fs units cache ClassFile.references
    | return fs
  let symbols := graph.forward.values.flatten.filter (Library.isExternal graph settings.platform)
  symbols.foldlM (fun fs symbol =>
    settings.classpath.foldlM (fun fs p =>
      load fs (p.join (Path.ofString (Classpath.entryName symbol)))) fs) fs

/-- What the program looks at when it is run with the given arguments. -/
def loadProgram (arguments : List String) : IO FileSystem := do
  let cwd := Path.ofString (← IO.currentDir).toString
  let fs ← load (FileSystem.empty 0) cwd
  let fs := { fs with workingDirectory := .ofNames (FileSystem.route cwd) }
  match CommandLine.request? arguments with
  | some (.prune g) | some (.status g) =>
      let fs ← (CommandLine.configurationPaths cwd g).foldlM loadContent fs
      match CommandLine.requested fs cwd g with
      | .ok settings => loadRun fs settings
      | .error _ => return fs
  | _ => return fs

/-- Writes the directories and files that `after` has and `before` has not.  They are kept
to save time only, so one that cannot be written does no harm. -/
def writeNew (before after : FileSystem) : IO Unit :=
  after.entries.toList.forM fun (l, e) => do
    let path := (entryAt l).path
    try
      match e.node, before.node? l with
      | .directory, none => IO.FS.createDir path
      | .file content, node? =>
          if node? ≠ some (.file content) then
            let temporary := path.addExtension "tmp"
            IO.FS.writeBinFile temporary ⟨content.toArray⟩
            IO.FS.rename temporary path
      | _, _ => return ()
    catch _ => return ()

/-- The error with a code, which may come with its sign turned. -/
def numbered (code : UInt32) (details : String) : OsError :=
  let number := min code (0 - code)
  if number = 13 then .permissionDenied
  else .other (details.capitalize ++ s!" (os error {number})")

/-- Why the operating system refuses to delete. -/
def refusal : IO.Error → OsError
  | .noFileOrDirectory .. => .notFound
  | .permissionDenied _ code details | .resourceBusy code details
  | .otherError code details => numbered code details
  | e => .other (toString e)

/-- Deletes the files that `before` has and `after` has not, and says where this was
refused. -/
def deleteMissing (before after : FileSystem) : IO (List (Location × OsError)) :=
  before.entries.keys.filterMapM fun l => do
    if (after.entry? l).isSome then return none
    match ← (IO.FS.removeFile (entryAt l).path).toBaseIO with
    | .ok () => return none
    | .error e => return some (l, refusal e)

/-- Runs the program on disk.  Deletions that are refused change what it writes, so it is
then worked out once more. -/
def run (arguments : List String) : IO CommandLine.Output := do
  let started ← IO.monoMsNow
  let before ← loadProgram arguments
  let (write, after) := CommandLine.program arguments before
  writeNew before after
  let refused ← deleteMissing before after
  let write :=
    if refused.isEmpty then write
    else (CommandLine.program arguments { before with refusal? := (refused.lookup ·) }).1
  return write ((← IO.monoMsNow) - started)

end Disk
end Freshness
