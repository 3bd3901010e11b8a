import Freshness.FileSystem.Basic

/-!
# Finding entries

A path is followed one name at a time.  Each directory on the way must be one that can
be entered, and the links on the way are followed, at most forty of them.  A separator at
the end of a path, or of a link in last place, asks for a directory.
-/

namespace Freshness
namespace FileSystem

/-- Where a path leads. -/
inductive Place
  /-- There is an entry at the location. -/
  | found (l : Location)
  /-- There is none, but there is a directory that could hold one. -/
  | vacant (l : Location)
deriving DecidableEq, Repr

/-- What an operation does with the last name of a path. -/
inductive Purpose
  /-- It looks at the entry, or at what it links to. -/
  | inspect
  /-- It writes the file, or the one it links to; no separator may follow. -/
  | write
  /-- It creates, moves or deletes the entry itself, even a link. -/
  | rearrange
deriving DecidableEq, Repr

/-- The names along a path, `.` and `..` among them. -/
def route (p : Path) : List Name := (p.first :: p.body).filter (· ≠ [])

/-- A path written with a separator at its end. -/
def endsInSeparator (p : Path) : Bool := p.bytes.getLast? = some Path.separator

/-- Where the names of a path are followed from. -/
def origin (fs : FileSystem) (p : Path) : Location :=
  if p.isAbsolute then .root else fs.workingDirectory

/-- The length of the longest name that an entry can have. -/
def maximalNameLength : Nat := 255

/-- The length of the longest path that can be followed. -/
def maximalPathLength : Nat := 4095

/-- The number of links that are followed on the way along one path. -/
def maximalLinks : Nat := 40

/-- An error if the entry at `l` is not a directory that can be entered. -/
def enter (fs : FileSystem) (l : Location) : Except OsError Unit :=
  match fs.entry? l with
  | none => .error .notFound
  | some ⟨.directory, _, .locked⟩ => .error .permissionDenied
  | some ⟨.directory, _, _⟩ => .ok ()
  | some _ => .error .notADirectory

/-- The place at `l`, in a directory that is there. -/
def placeAt (fs : FileSystem) (l : Location) : Place :=
  if (fs.entry? l).isSome then .found l else .vacant l

/-- Follows names from `here`, on the way to what `purpose` says; `slash` tells whether a
separator follows the last of them. -/
def walk (fs : FileSystem) (purpose : Purpose) (links : Nat) (slash : Bool)
    (here : Location) : List Name → Except OsError Place
  | [] =>
      if slash ∧ fs.node? here ≠ some .directory then .error .notADirectory
      else .ok (fs.placeAt here)
  | name :: rest =>
      match fs.enter here with
      | .error e => .error e
      | .ok () =>
          if name = [Path.dot] then fs.walk purpose links slash here rest
          else if name = [Path.dot, Path.dot] then
            fs.walk purpose links slash here.holder rest
          else if rest = [] ∧ slash ∧ purpose = .write then .error .isADirectory
          else if name.length > maximalNameLength then .error .nameTooLong
          else
            let next := here.child name
            if rest = [] ∧ purpose = .rearrange then .ok (fs.placeAt next)
            else
              match fs.node? next with
              | none => if rest = [] then .ok (.vacant next) else .error .notFound
              | some (.link target) =>
                  match links with
                  | 0 => .error .tooManyLinks
                  | links + 1 =>
                      fs.walk purpose links (slash || rest.isEmpty && endsInSeparator target)
                        (if target.isAbsolute then .root else here) (route target ++ rest)
              | some _ => fs.walk purpose links slash next rest
termination_by names => (links, names.length)

/-- Where `p` leads. -/
def locate (fs : FileSystem) (purpose : Purpose) (p : Path) : Except OsError Place := do
  if p.bytes.contains 0 then throw .nulInPath
  if p.bytes = [] then throw .notFound
  if p.bytes.length > maximalPathLength then throw .nameTooLong
  fs.walk purpose maximalLinks (endsInSeparator p) (fs.origin p) (route p)

/-- The location of the entry that `p` leads to, links followed. -/
def resolve (fs : FileSystem) (p : Path) : Except OsError Location := do
  match ← fs.locate .inspect p with
  | .found l => return l
  | .vacant _ => throw .notFound

/-- The entry that `p` leads to, links followed. -/
def lookup? (fs : FileSystem) (p : Path) : Option Entry :=
  match fs.resolve p with
  | .ok l => fs.entry? l
  | .error _ => none

/-- There is something at `p`. -/
def pathExists (fs : FileSystem) (p : Path) : Bool := (fs.lookup? p).isSome

/-- There is a file at `p`. -/
def isFile (fs : FileSystem) (p : Path) : Bool :=
  match fs.lookup? p with
  | some ⟨.file _, _, _⟩ => true
  | _ => false

/-- There is a directory at `p`. -/
def isDirectory (fs : FileSystem) (p : Path) : Bool :=
  match fs.lookup? p with
  | some ⟨.directory, _, _⟩ => true
  | _ => false

/-- When what is at `p` was last changed. -/
def modified? (fs : FileSystem) (p : Path) : Option Timestamp :=
  (fs.lookup? p).map Entry.modified

/-- What is at `candidate` was changed after what is at `reference`; both are there. -/
def isNewer (fs : FileSystem) (candidate reference : Path) : Bool :=
  match fs.modified? candidate, fs.modified? reference with
  | some c, some r => r < c
  | _, _ => false

/-- The content of the file at `p`. -/
def read (fs : FileSystem) (p : Path) : Except OsError Bytes := do
  let l ← fs.resolve p
  match fs.entry? l with
  | none => throw .notFound
  | some ⟨_, _, .locked⟩ => throw .permissionDenied
  | some ⟨.file content, _, _⟩ => return content
  | some ⟨.directory, _, _⟩ => throw .isADirectory
  | some ⟨.link _, _, _⟩ => throw .tooManyLinks

end FileSystem
end Freshness
