import Std.Data.TreeMap
import Freshness.FileSystem.Location

/-!
# File systems

A file system assigns an entry to some locations: a file with its content, a directory, or
a link, with a time and what may be done with it.
-/

namespace Freshness

/-- A point in time, in nanoseconds since the beginning of 1970. -/
abbrev Timestamp := Int

/-- What an entry of a directory is. -/
inductive Node
  | file (content : Bytes)
  | directory
  | link (target : Path)
deriving DecidableEq, Repr

/-- What may be done with an entry. -/
inductive Access
  | free
  /-- A file cannot be written; in a directory nothing can be created, renamed or deleted. -/
  | sealed
  /-- A file cannot be opened; a directory can be neither listed nor entered. -/
  | locked
deriving DecidableEq, Repr

/-- An entry of a directory. -/
structure Entry where
  node : Node
  modified : Timestamp
  access : Access := .free
deriving DecidableEq, Repr

/-- Why an operation on a file system fails. -/
inductive OsError
  | notFound
  | permissionDenied
  | fileExists
  | notADirectory
  | isADirectory
  | nameTooLong
  | tooManyLinks
  | nulInPath
  | other (wording : String)
deriving DecidableEq, Repr

namespace OsError

/-- The wording of an error. -/
def message : OsError → String
  | notFound => "No such file or directory (os error 2)"
  | permissionDenied => "Permission denied (os error 13)"
  | fileExists => "File exists (os error 17)"
  | notADirectory => "Not a directory (os error 20)"
  | isADirectory => "Is a directory (os error 21)"
  | nameTooLong => "File name too long (os error 36)"
  | tooManyLinks => "Too many levels of symbolic links (os error 40)"
  | nulInPath => "file name contained an unexpected NUL byte"
  | other wording => wording

end OsError

/-- A tree of files with its working directory. -/
structure FileSystem where
  entries : Std.TreeMap Location Entry
  workingDirectory : Location
  /-- The time given to whatever is changed. -/
  clock : Timestamp
  /-- The errors with which deletions are refused that the directory would allow. -/
  refusal? : Location → Option OsError := fun _ => none

namespace FileSystem

/-- A file system that holds the root directory only. -/
def empty (clock : Timestamp) : FileSystem where
  entries := ({} : Std.TreeMap Location Entry).insert .root ⟨.directory, clock, .free⟩
  workingDirectory := .root
  clock := clock

/-- The entry at a location. -/
def entry? (fs : FileSystem) (l : Location) : Option Entry := fs.entries[l]?

/-- The node at a location. -/
def node? (fs : FileSystem) (l : Location) : Option Node := (fs.entry? l).map Entry.node

end FileSystem
end Freshness
