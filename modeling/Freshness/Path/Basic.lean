import Freshness.Text.Utf8

/-!
# Paths

A path is the bytes it is written with.  Its meaning is the list of its components:
empty pieces between separators and `.` pieces after the first do not count, so
`a//b/.` and `a/b` are written differently and have the same components.
-/

namespace Freshness

/-- One piece of a path between separators. -/
abbrev Name := Bytes

/-- A path, as it is written. -/
structure Path where
  bytes : Bytes
deriving DecidableEq, Inhabited, Repr

/-- What a piece of a path stands for. -/
inductive Component
  | root
  | current
  | parent
  | normal (name : Name)
deriving DecidableEq, Repr

namespace Path

/-- The slash that separates the pieces of a path. -/
def separator : UInt8 := 0x2F

/-- The dot, which alone stands for the current directory and doubled for its parent. -/
def dot : UInt8 := 0x2E

/-- The path spelled by a text. -/
def ofString (text : String) : Path := ⟨Utf8.encode text⟩

/-- The text of a path, if it is one. -/
def toString? (p : Path) : Option String := Utf8.decode? p.bytes

/-- The path for a reader: a malformed sequence shows as the replacement character. -/
def display (p : Path) : String := Utf8.decodeLossy p.bytes

/-- The piece of `bytes` before the first occurrence of `mark`, and those after each. -/
def splitAtEach (mark : UInt8) : Bytes → Bytes × List Bytes
  | [] => ([], [])
  | b :: rest =>
      let (first, others) := splitAtEach mark rest
      if b = mark then ([], first :: others) else (b :: first, others)

/-- The piece of a path before its first separator. -/
def first (p : Path) : Name := p.bytes.takeWhile (· ≠ separator)

/-- The pieces of a path that follow a separator, empty ones included. -/
def body (p : Path) : List Name := (splitAtEach separator p.bytes).2

/-- The path with the given pieces. -/
def ofPieces (first : Name) (body : List Name) : Path :=
  ⟨first ++ body.flatMap (separator :: ·)⟩

/-- A piece that adds no component when it is not the first one. -/
def isTrivial (piece : Name) : Bool := piece = [] ∨ piece = [dot]

/-- The component that a piece adds, if any. -/
def component? (piece : Name) : Option Component :=
  if isTrivial piece then none
  else if piece = [dot, dot] then some .parent
  else some (.normal piece)

/-- The component that the first piece of a path adds; `more` says that others follow. -/
def firstComponent? (piece : Name) (more : Bool) : Option Component :=
  if piece = [] then (if more then some .root else none)
  else if piece = [dot] then some .current
  else component? piece

/-- The components of a path. -/
def components (p : Path) : List Component :=
  let body := p.body
  (firstComponent? p.first (!body.isEmpty)).toList ++ body.filterMap component?

/-- A path that begins at the root directory. -/
def isAbsolute (p : Path) : Bool := p.bytes.head? = some separator

/-- The components of a path as byte strings whose order is the order of paths: the
root directory first, then `.`, then `..`, then names by their bytes. -/
def key (p : Path) : List Name :=
  p.components.map fun
    | .root => [0]
    | .current => [1]
    | .parent => [2]
    | .normal name => 3 :: name

/-- The pieces with the trivial ones at the end left out. -/
def dropTrailing (body : List Name) : List Name :=
  (body.reverse.dropWhile isTrivial).reverse

/-- The path with pieces `first` and `body`, ending right after its last component. -/
def ofPiecesTrimmed (first : Name) (body : List Name) : Path :=
  let kept := dropTrailing body
  if first = [] ∧ kept = [] ∧ body ≠ [] then ⟨[separator]⟩ else ofPieces first kept

/-- The path that ends right after its last component. -/
def trimEnd (p : Path) : Path := ofPiecesTrimmed p.first p.body

/-- `inner` as seen from the directory `base`. -/
def join (base inner : Path) : Path :=
  if inner.isAbsolute ∨ base.bytes = [] then inner
  else if base.bytes.getLast? = some separator then ⟨base.bytes ++ inner.bytes⟩
  else ⟨base.bytes ++ separator :: inner.bytes⟩

/-- The path of an entry of the directory `base`. -/
def child (base : Path) (name : Name) : Path := base.join ⟨name⟩

/-- The path without its last component, unless that is the root directory. -/
def parent? (p : Path) : Option Path :=
  match dropTrailing p.body with
  | [] => if p.first = [] then none else some ⟨[]⟩
  | body@(_ :: _) =>
      if p.first = [] ∧ body.dropLast = [] then some ⟨[separator]⟩
      else some (ofPiecesTrimmed p.first body.dropLast)

/-- The last component of a path, if it is a name. -/
def fileName? (p : Path) : Option Name :=
  match p.components.getLast? with
  | some (.normal name) => some name
  | _ => none

/-- `bytes` before and after the last occurrence of `mark`. -/
def splitAtLast? (mark : UInt8) : Bytes → Option (Bytes × Bytes)
  | [] => none
  | b :: rest =>
      match splitAtLast? mark rest with
      | some (before, after) => some (b :: before, after)
      | none => if b = mark then some ([], rest) else none

/-- A file name as its stem and what follows its last dot; a leading dot is no such dot. -/
def splitName (name : Name) : Name × Option Name :=
  match splitAtLast? dot name with
  | some (before, after) => if before = [] then (name, none) else (before, some after)
  | none => (name, none)

/-- What follows the last dot of the file name. -/
def extension? (p : Path) : Option Name := p.fileName?.bind fun name => (splitName name).2

/-- The path up to the end of its file name's stem, if it has a file name. -/
def throughStem (p : Path) : Path :=
  match p.fileName? with
  | none => p
  | some name =>
      let trimmed := p.trimEnd.bytes
      ⟨trimmed.take (trimmed.length - (name.length - (splitName name).1.length))⟩

/-- The path without its extension.  As many bytes as the extension has go from the very
end of the path, and what then follows the stem of the last component goes too. -/
def withoutExtension (p : Path) : Path :=
  match p.extension? with
  | none => p.throughStem
  | some ext => throughStem ⟨p.bytes.take (p.bytes.length - ext.length)⟩

/-- The pieces after the first `count` that are not trivial. -/
def dropComponents : Nat → List Name → List Name
  | _, [] => []
  | 0, pieces => pieces.dropWhile isTrivial
  | count + 1, piece :: pieces =>
      if isTrivial piece then dropComponents (count + 1) pieces
      else dropComponents count pieces

/-- The path with the given pieces, separators between them only. -/
def ofBody : List Name → Path
  | [] => ⟨[]⟩
  | first :: body => ofPieces first body

/-- The path relative to `base`, if the components of `base` begin its own. -/
def relativeTo? (p base : Path) : Option Path :=
  if base.components.isPrefixOf p.components then
    if base.components = [] then some p.trimEnd
    else some (ofBody (dropTrailing (dropComponents (base.components.length - 1) p.body)))
  else none

/-- The path with `suffix` written after it. -/
def append (p : Path) (suffix : String) : Path := ⟨p.bytes ++ Utf8.encode suffix⟩

end Path

end Freshness
