import Freshness.FileSystem.Lookup

/-!
# Changing a file system

Every operation either fails and changes nothing, or changes the entries at the
locations it names and the time of the directories that hold them.
-/

namespace Freshness
namespace FileSystem

/-- Entries of the directory at `l` can be created, renamed and deleted. -/
def canChange (fs : FileSystem) (l : Location) : Bool :=
  match fs.entry? l with
  | some ⟨.directory, _, .free⟩ => true
  | _ => false

/-- Puts an entry at `l`. -/
def put (fs : FileSystem) (l : Location) (e : Entry) : FileSystem :=
  { fs with entries := fs.entries.insert l e }

/-- Takes the entry at `l` away. -/
def take (fs : FileSystem) (l : Location) : FileSystem :=
  { fs with entries := fs.entries.erase l }

/-- Sets the time of the entry at `l`. -/
def setTime (fs : FileSystem) (l : Location) (time : Timestamp) : FileSystem :=
  { fs with entries := fs.entries.modify l fun e => { e with modified := time } }

/-- Records that the directory at `l` has just been changed. -/
def stamp (fs : FileSystem) (l : Location) : FileSystem := fs.setTime l fs.clock

/-- Puts a new entry at `l`, which is vacant. -/
def create (fs : FileSystem) (l : Location) (node : Node) : Except OsError FileSystem :=
  if fs.canChange l.holder then
    .ok ((fs.put l ⟨node, fs.clock, .free⟩).stamp l.holder)
  else .error .permissionDenied

/-- Makes `content` the content of the file at `p`, which is created if need be. -/
def write (fs : FileSystem) (p : Path) (content : Bytes) : Except OsError FileSystem := do
  match ← fs.locate .write p with
  | .vacant l => fs.create l (.file content)
  | .found l =>
      match fs.entry? l with
      | none => throw .notFound
      | some ⟨.directory, _, _⟩ => throw .isADirectory
      | some ⟨_, _, .free⟩ => return fs.put l ⟨.file content, fs.clock, .free⟩
      | some _ => throw .permissionDenied

/-- Creates the directory `p`. -/
def createDirectory (fs : FileSystem) (p : Path) : Except OsError FileSystem := do
  match ← fs.locate .rearrange p with
  | .found _ => throw .fileExists
  | .vacant l => fs.create l .directory

/-- Creates the directory `p` and the directories above it that are missing.  Those that
were created before an error remain. -/
def createDirectories (fs : FileSystem) (p : Path) : Except OsError Unit × FileSystem :=
  if p.bytes = [] then (.ok (), fs)
  else
    match fs.createDirectory p with
    | .ok fs => (.ok (), fs)
    | .error .notFound =>
        match _h : p.parent? with
        | none => (.error .notFound, fs)
        | some q =>
            match fs.createDirectories q with
            | (.error e, fs) => (.error e, fs)
            | (.ok (), fs) =>
                match fs.createDirectory p with
                | .ok fs => (.ok (), fs)
                | .error e => (if fs.isDirectory p then .ok () else .error e, fs)
    | .error e => (if fs.isDirectory p then .ok () else .error e, fs)
termination_by p.bytes.length
decreasing_by exact Path.length_parent?_lt _h

/-- Deletes the file or link at `p`. -/
def delete (fs : FileSystem) (p : Path) : Except OsError FileSystem := do
  match ← fs.locate .rearrange p with
  | .vacant _ => throw .notFound
  | .found l =>
      let isDirectory : Bool := fs.node? l = some .directory
      if endsInSeparator p then throw (if isDirectory then .isADirectory else .notADirectory)
      if !fs.canChange l.holder then throw .permissionDenied
      if let some e := fs.refusal? l then throw e
      if isDirectory then throw .isADirectory
      return (fs.take l).stamp l.holder

/-- Moves the file or link at `source` to `target`, in place of what is there. -/
def move (fs : FileSystem) (source target : Path) : Except OsError FileSystem := do
  match ← fs.locate .rearrange source, ← fs.locate .rearrange target with
  | .vacant _, _ => throw .notFound
  | .found l, .found m | .found l, .vacant m =>
      match fs.entry? l with
      | none => throw .notFound
      | some e =>
          if endsInSeparator source || endsInSeparator target then throw .notADirectory
          if !fs.canChange l.holder || !fs.canChange m.holder then throw .permissionDenied
          if e.node = .directory ∨ fs.node? m = some .directory then throw .isADirectory
          return (((fs.take l).put m e).stamp l.holder).stamp m.holder

end FileSystem
end Freshness
