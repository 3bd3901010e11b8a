import Freshness.ClassFile.Error
import Freshness.Text.Utf8

/-!
# Reading bytes in order

A cursor holds the bytes that are still to be read and how many came before them.
Numbers are stored with their most significant byte first.
-/

namespace Freshness
namespace ClassFile

/-- A place in a sequence of bytes. -/
structure Cursor where
  offset : Nat
  rest : Bytes
deriving DecidableEq, Repr

namespace Cursor

/-- The beginning of `bytes`. -/
def start (bytes : Bytes) : Cursor := ⟨0, bytes⟩

/-- What follows the first `count` bytes, if there are so many. -/
def after? : (count : Nat) → Bytes → Option Bytes
  | 0, bytes => some bytes
  | _ + 1, [] => none
  | count + 1, _ :: rest => after? count rest

/-- Moves past `count` bytes. -/
def skip (c : Cursor) (count : Nat) : Except ReadError Cursor :=
  match after? count c.rest with
  | some rest => .ok ⟨c.offset + count, rest⟩
  | none => .error (.truncated c.offset count)

/-- The next `count` bytes. -/
def take (c : Cursor) (count : Nat) : Except ReadError (Bytes × Cursor) :=
  (c.skip count).map fun next => (c.rest.take count, next)

/-- The number stored in `bytes`. -/
def bigEndian (bytes : Bytes) : Nat := bytes.foldl (fun n b => n * 256 + b.toNat) 0

/-- The number stored in the next `count` bytes. -/
def number (c : Cursor) (count : Nat) : Except ReadError (Nat × Cursor) :=
  (c.take count).map fun (bytes, next) => (bigEndian bytes, next)

end Cursor
end ClassFile
end Freshness
