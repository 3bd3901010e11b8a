import Freshness.ClassFile.Cursor

/-!
# The constant pool

Constants are numbered from one.  A long or double constant takes two numbers, the second
of which stands for nothing.
-/

namespace Freshness
namespace ClassFile

/-- A constant, as far as it can lead to a class name. -/
inductive Constant
  /-- The number stands for nothing. -/
  | unusable
  | utf8 (text : String)
  | classEntry (nameIndex : Nat)
  | nameAndType (nameIndex descriptorIndex : Nat)
  | methodType (descriptorIndex : Nat)
  | other
deriving DecidableEq, Repr

/-- A constant and where it was read. -/
structure PoolEntry where
  constant : Constant
  offset : Nat
deriving DecidableEq, Repr

/-- The constants of a class file by number. -/
structure ConstantPool where
  entries : Array PoolEntry
deriving DecidableEq, Repr

/-- The tag of a long or double constant. -/
def isWideTag (tag : UInt8) : Bool := tag = 5 ∨ tag = 6

/-- How many numbers a constant with the given tag takes. -/
def slots (tag : UInt8) : Nat := if isWideTag tag then 2 else 1

/-- The sizes of the constants of which only the size matters. -/
def plainSize? (tag : UInt8) : Option Nat :=
  match tag with
  | 3 | 4 | 9 | 10 | 11 | 17 | 18 => some 4
  | 5 | 6 => some 8
  | 8 | 19 | 20 => some 2
  | 15 => some 3
  | _ => none

/-- The constant whose tag has just been read; `index` and `offset` say which one it is. -/
def readConstant (tag : UInt8) (index offset : Nat) (c : Cursor) :
    Except ReadError (Constant × Cursor) :=
  match tag with
  | 1 => do
      let (length, c) ← c.number 2
      let (bytes, c) ← c.take length
      return (.utf8 (Utf8.decodeLossy bytes), c)
  | 7 => do
      let (nameIndex, c) ← c.number 2
      return (.classEntry nameIndex, c)
  | 12 => do
      let (nameIndex, c) ← c.number 2
      let (descriptorIndex, c) ← c.number 2
      return (.nameAndType nameIndex descriptorIndex, c)
  | 16 => do
      let (descriptorIndex, c) ← c.number 2
      return (.methodType descriptorIndex, c)
  | tag =>
      match plainSize? tag with
      | some size => do
          let c ← c.skip size
          return (.other, c)
      | none => .error (.unknownTag tag index offset)

/-- The tag at the cursor. -/
def readTag (c : Cursor) : Except ReadError (UInt8 × Cursor) :=
  (c.number 1).map fun (tag, next) => (UInt8.ofNat tag, next)

/-- The entries that a constant takes. -/
def entriesFor (tag : UInt8) (constant : Constant) (offset : Nat) : List PoolEntry :=
  ⟨constant, offset⟩ :: if isWideTag tag then [⟨.unusable, offset⟩] else []

/-- Reads the constants from number `index` on, up to but not including `count`. -/
def readEntries (count index : Nat) (c : Cursor) (entries : Array PoolEntry) :
    Except ReadError (Array PoolEntry × Cursor) :=
  if index < count then
    match readTag c with
    | .error e => .error e
    | .ok (tag, next) =>
        match readConstant tag index c.offset next with
        | .error e => .error e
        | .ok (constant, next) =>
            readEntries count (index + slots tag) next
              (entries ++ entriesFor tag constant c.offset)
  else .ok (entries, c)
termination_by count - index
decreasing_by simp only [slots]; split <;> omega

namespace ConstantPool

/-- The constant pool at the cursor. -/
def read (c : Cursor) : Except ReadError (ConstantPool × Cursor) := do
  let (count, c) ← c.number 2
  let (entries, c) ← readEntries count 1 c #[⟨.unusable, c.offset⟩]
  return (⟨entries⟩, c)

/-- The entries that stand for something, each with its number. -/
def usable (pool : ConstantPool) : List (Nat × PoolEntry) :=
  pool.entries.toList.zipIdx.filterMap fun (entry, index) =>
    if entry.constant = .unusable then none else some (index, entry)

/-- The constant with a number. -/
def get? (pool : ConstantPool) (index : Nat) : Option Constant :=
  pool.entries[index]?.map PoolEntry.constant

/-- The text with a number; `offset` is where the number was read. -/
def utf8 (pool : ConstantPool) (index offset : Nat) : Except ReadError String :=
  match pool.get? index with
  | some (.utf8 text) => .ok text
  | _ => .error (.badReference index .utf8 offset)

/-- The name of the class with a number; `offset` is where the number was read. -/
def className (pool : ConstantPool) (index offset : Nat) : Except ReadError String :=
  match pool.get? index with
  | some (.classEntry nameIndex) => pool.utf8 nameIndex offset
  | _ => .error (.badReference index .classEntry offset)

end ConstantPool
end ClassFile
end Freshness
