/-!
# Class-file errors
-/

namespace Freshness
namespace ClassFile

/-- The kind of constant that a reference asks for. -/
inductive Expectation
  | utf8
  | classEntry
deriving DecidableEq, Repr

/-- Why bytes are refused as a class file. -/
inductive ReadError
  /-- The first four bytes are `found` and not the magic number. -/
  | badMagic (found : Nat)
  /-- At `offset` there are fewer than `needed` bytes. -/
  | truncated (offset needed : Nat)
  /-- The constant at `index` begins, at `offset`, with an unknown tag. -/
  | unknownTag (tag : UInt8) (index offset : Nat)
  /-- Something at `offset` refers to `index`, where there is no constant as expected. -/
  | badReference (index : Nat) (expected : Expectation) (offset : Nat)
deriving DecidableEq, Repr

/-- The name of the expected kind of constant. -/
def Expectation.name : Expectation → String
  | utf8 => "Utf8"
  | classEntry => "Class"

/-- The digits of a number in base sixteen, `width` of them. -/
def hexadecimal : (width : Nat) → Nat → String
  | 0, _ => ""
  | width + 1, n => (hexadecimal width (n / 16)).push (Nat.digitChar (n % 16))

/-- The wording of an error. -/
def ReadError.message : ReadError → String
  | badMagic found => s!"not a class file: bad magic 0x{hexadecimal 8 found}"
  | truncated offset needed =>
      s!"truncated class file: needed {needed} byte(s) at offset {offset}"
  | unknownTag tag index offset =>
      s!"unknown constant pool tag {tag} for entry {index} at offset {offset}"
  | badReference index expected offset =>
      s!"invalid constant pool reference {index} ({expected.name} expected) at offset {offset}"

end ClassFile
end Freshness
