import Freshness.FileSystem.Change
import Freshness.FileSystem.Listing

/-!
# Arranging a file system by hand

Operations that set up a tree entry by entry, give entries a time of choice, and take
access away or give it back.
-/

namespace Freshness
namespace FileSystem

/-- Creates the directories above `p` that are missing. -/
def addParents (fs : FileSystem) (p : Path) : FileSystem :=
  match p.parent? with
  | none => fs
  | some q => (fs.createDirectories q).2

/-- Puts a directory at `p`. -/
def addDirectory (fs : FileSystem) (p : Path) : FileSystem := (fs.createDirectories p).2

/-- Sets the time of what is at `p`. -/
def touch (fs : FileSystem) (p : Path) (time : Timestamp) : FileSystem :=
  match fs.resolve p with
  | .ok l => fs.setTime l time
  | .error _ => fs

/-- Puts a file with the given time at `p`. -/
def addFile (fs : FileSystem) (p : Path) (time : Timestamp) (content : Bytes) : FileSystem :=
  match (fs.addParents p).write p content with
  | .ok fs => fs.touch p time
  | .error _ => fs.addParents p

/-- Puts a link at `p`. -/
def addLink (fs : FileSystem) (p target : Path) : FileSystem :=
  let fs := fs.addParents p
  match fs.locate .rearrange p with
  | .ok (.vacant l) => (fs.create l (.link target)).toOption.getD fs
  | _ => fs

/-- Takes away what is at `p`, with all that lies below it. -/
def removeAll (fs : FileSystem) (p : Path) : FileSystem :=
  match fs.locate .rearrange p with
  | .ok (.found l) =>
      { fs with entries := fs.entries.filter fun m _ => (l.below? m).isNone }.stamp l.holder
  | _ => fs

/-- Sets what may be done with the entry at `l`. -/
def setAccess (access : Access) (fs : FileSystem) (l : Location) : FileSystem :=
  { fs with entries := fs.entries.modify l fun e => { e with access := access } }

/-- Seals some entries and locks others. -/
def restrict (fs : FileSystem) (sealedPaths lockedPaths : List Path) : FileSystem :=
  let locations := fun (paths : List Path) => paths.filterMap fun p => (fs.resolve p).toOption
  (locations lockedPaths).foldl (setAccess .locked)
    ((locations sealedPaths).foldl (setAccess .sealed) fs)

/-- Allows everything everywhere. -/
def free (fs : FileSystem) : FileSystem :=
  { fs with entries := fs.entries.map fun _ e => { e with access := .free } }

end FileSystem
end Freshness
