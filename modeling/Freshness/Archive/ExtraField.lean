import Freshness.Text.Utf8

/-!
# Extra fields

A directory header of an archive may carry extra fields, each with a kind and a length.
They can replace the name of the file, widen its numbers, or contradict themselves, and then
the whole archive is none.  A field whose bytes end early is the last one, and what it has
said until then counts.
-/

namespace Freshness
namespace Archive

/-- One step of the checksum for a bit. -/
def checksumBit (sum : UInt32) : UInt32 :=
  if sum &&& 1 = 1 then (sum >>> 1) ^^^ 0xEDB88320 else sum >>> 1

/-- The 32-bit cyclic redundancy checksum of `bytes`. -/
def checksum (bytes : Bytes) : UInt32 :=
  bytes.foldl (fun sum b => Nat.repeat checksumBit 8 (sum ^^^ b.toUInt32)) 0xFFFFFFFF
    ^^^ 0xFFFFFFFF

/-- The number stored in `bytes`, least significant byte first. -/
def littleEndian (bytes : Bytes) : Nat := bytes.foldr (fun b n => n * 256 + b.toNat) 0

/-- What the extra fields of a header say about its file. -/
structure Described where
  rawName : Bytes
  name : String
  comment : String
  size : Nat
  compressedSize : Nat
  offset : Nat
  /-- The compression method; 99 stands for an encrypted file without its details. -/
  method : Nat
  encryptionKnown : Bool := false
deriving DecidableEq, Repr

/-- Why the reading of extra fields ends within a field. -/
inductive Ending
  /-- There are no more bytes; `file` is what is known by then. -/
  | cutOff (file : Described)
  /-- The field contradicts itself or its length. -/
  | malformed
deriving DecidableEq, Repr

namespace Described

/-- The next `count` bytes and those that follow. -/
def take (d : Described) (count : Nat) (bytes : Bytes) : Except Ending (Bytes × Bytes) :=
  if (bytes.take count).length = count then .ok (bytes.take count, bytes.drop count)
  else .error (.cutOff d)

/-- The number stored in the next `count` bytes, and the bytes that follow. -/
def number (d : Described) (count : Nat) (bytes : Bytes) : Except Ending (Nat × Bytes) :=
  (d.take count bytes).map fun (taken, rest) => (littleEndian taken, rest)

/-- A number that is stored elsewhere because it does not fit. -/
def overflowed : Nat := 0xFFFFFFFF

/-- The next eight bytes in place of a number that did not fit; `wide` asks for them in
any case. -/
def widened (d : Described) (wide : Bool) (n : Nat) (bytes : Bytes) :
    Except Ending (Nat × Bytes) :=
  if wide || n = overflowed then d.number 8 bytes else .ok (n, bytes)

/-- Reads the numbers of a file that is too large for the plain ones.  Each of them counts
as soon as it is read. -/
def readWide (d : Described) (length : Nat) (bytes : Bytes) : Except Ending Described := do
  let wide : Bool := length ≥ 24
  let (size, rest) ← d.widened wide d.size bytes
  let d := { d with size }
  let (compressedSize, rest) ← d.widened wide d.compressedSize rest
  let d := { d with compressedSize }
  let (offset, rest) ← d.widened wide d.offset rest
  let d := { d with offset }
  let used := bytes.length - rest.length
  if length < used then throw .malformed
  let _ ← d.take (length - used) rest
  return d

/-- Reads the times of a file as one operating system keeps them. -/
def readTimes (d : Described) (length : Nat) (bytes : Bytes) : Except Ending Described := do
  if length ≠ 32 then throw .malformed
  let (_, bytes) ← d.take 4 bytes
  let (tag, bytes) ← d.number 2 bytes
  if tag ≠ 1 then throw .malformed
  let (size, bytes) ← d.number 2 bytes
  if size ≠ 24 then throw .malformed
  let _ ← d.take 24 bytes
  return d

/-- How many of the eight flags are set. -/
def countFlags (flags : Nat) : Nat := ((List.range 8).filter flags.testBit).length

/-- Reads the times of a file in seconds.  There are three, each with a flag. -/
def readTimestamps (d : Described) (length : Nat) (bytes : Bytes) :
    Except Ending Described := do
  let (flags, bytes) ← d.number 1 bytes
  if length ≠ 5 ∧ length ≠ 1 + 4 * countFlags flags then throw .malformed
  if 8 ≤ flags then throw .malformed
  let _ ← d.take (length - 1) bytes
  return d

/-- Reads how a file is encrypted. -/
def readEncryption (d : Described) (length : Nat) (bytes : Bytes) :
    Except Ending Described := do
  if length ≠ 7 then throw .malformed
  let (version, bytes) ← d.number 2 bytes
  let (vendor, bytes) ← d.number 2 bytes
  let (strength, bytes) ← d.number 1 bytes
  let (method, _) ← d.number 2 bytes
  if vendor ≠ 0x4541 ∨ version ≠ 1 ∧ version ≠ 2 ∨ strength < 1 ∨ 3 < strength then
    throw .malformed
  return { d with method, encryptionKnown := true }

/-- Reads a text in UTF-8 that replaces `plain`, whose checksum comes along. -/
def unicodeText (d : Described) (length : Nat) (plain bytes : Bytes) :
    Except Ending (Bytes × String) := do
  let (_, bytes) ← d.take 1 bytes
  let (sum, bytes) ← d.number 4 bytes
  if length < 5 then throw .malformed
  let (content, _) ← d.take (length - 5) bytes
  if sum ≠ (checksum plain).toNat then throw .malformed
  match Utf8.decode? content with
  | none => throw .malformed
  | some text => return (content, text)

/-- What is known of a file after the extra field with the given kind and length, of which
`bytes` are the bytes and those that follow. -/
def readField (d : Described) (kind length : Nat) (bytes : Bytes) :
    Except Ending Described := do
  match kind with
  | 0x0001 => d.readWide length bytes
  | 0x000A => d.readTimes length bytes
  | 0x5455 => d.readTimestamps length bytes
  | 0x9901 => d.readEncryption length bytes
  | 0x6375 =>
      let (_, comment) ← d.unicodeText length (Utf8.encode d.comment) bytes
      return { d with comment }
  | 0x7075 =>
      let (rawName, name) ← d.unicodeText length d.rawName bytes
      return { d with rawName, name }
  | _ =>
      let _ ← d.take length bytes
      return d

/-- What is known of a file after its extra fields, unless one is malformed. -/
def readFields (d : Described) (bytes : Bytes) : Option Described :=
  match bytes with
  | k₀ :: k₁ :: l₀ :: l₁ :: rest =>
      let length := littleEndian [l₀, l₁]
      match d.readField (littleEndian [k₀, k₁]) length rest with
      | .ok d => d.readFields (rest.drop length)
      | .error (.cutOff d) => some d
      | .error .malformed => none
  | _ => some d
termination_by bytes.length
decreasing_by simp; omega

end Described
end Archive
end Freshness
