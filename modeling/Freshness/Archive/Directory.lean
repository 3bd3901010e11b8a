import Freshness.Archive.CodePage
import Freshness.Archive.ExtraField

/-!
# The directory of an archive

A zip archive ends with a record that says where its directory is.  There may be data
before the archive and after its last record: offsets count from where the archive begins,
and of several records the last one whose directory can be read counts.
-/

namespace Freshness
namespace Archive

/-- The bytes of an archive, for access by position. -/
abbrev Data := Array UInt8

/-- The `count` bytes at `position`. -/
def slice? (data : Data) (position count : Nat) : Option Bytes :=
  if position + count ≤ data.size then some (data.extract position (position + count)).toList
  else none

/-- The number stored in the `count` bytes at `position`. -/
def numberAt? (data : Data) (position count : Nat) : Option Nat :=
  (slice? data position count).map littleEndian

/-- What the header of a file begins with. -/
def headerMark : Bytes := [0x50, 0x4B, 0x01, 0x02]

/-- What the record at the end of an archive begins with. -/
def endMark : Bytes := [0x50, 0x4B, 0x05, 0x06]

/-- What the record at the end of a large archive begins with. -/
def wideEndMark : Bytes := [0x50, 0x4B, 0x06, 0x06]

/-- What the locator of the record of a large archive begins with. -/
def wideLocatorMark : Bytes := [0x50, 0x4B, 0x06, 0x07]

/-- The bytes of `mark` stand at `position`. -/
def standsAt (data : Data) : (mark : Bytes) → (position : Nat) → Bool
  | [], _ => true
  | b :: mark, position => data[position]? = some b && standsAt data mark (position + 1)

/-- The positions below `limit` at which `mark` stands, in front of `found`. -/
def marksBelow (data : Data) (mark : Bytes) : (limit : Nat) → (found : List Nat) → List Nat
  | 0, found => found
  | position + 1, found =>
      marksBelow data mark position
        (if standsAt data mark position then position :: found else found)

/-- The positions at which `mark` stands. -/
def marks (data : Data) (mark : Bytes) : List Nat := marksBelow data mark data.size []

/-- Where the directory of an archive is. -/
structure Placement where
  /-- The position of the first header. -/
  start : Nat
  /-- How many headers there are. -/
  count : Nat
  /-- How many bytes precede the archive. -/
  shift : Nat
  disk : Nat
  directoryDisk : Nat
deriving DecidableEq, Repr

/-- The placement by the record at `position`, for an archive of ordinary size, when header
marks stand at `headers`. -/
def placement? (data : Data) (headers : List Nat) (position : Nat) : Option Placement := do
  let disk ← numberAt? data (position + 4) 2
  let directoryDisk ← numberAt? data (position + 6) 2
  let here ← numberAt? data (position + 8) 2
  let total ← numberAt? data (position + 10) 2
  let offset ← numberAt? data (position + 16) 4
  let shift ←
    if total = 0 then some (position - offset)
    else
      (headers.find? fun found =>
        offset ≤ found ∧ found + headerMark.length ≤ position).map (· - offset)
  return ⟨offset + shift, here, shift, disk, directoryDisk⟩

/-- What the record at the end of a large archive says. -/
structure WideRecord where
  /-- The version of the format that the archive was written by. -/
  madeBy : Nat
  /-- The version of the format that is needed to read it. -/
  needed : Nat
  disk : Nat
  directoryDisk : Nat
  /-- How many headers are on this disk. -/
  here : Nat
  /-- How many headers there are. -/
  total : Nat
  /-- Where the directory is, as counted from where the archive begins. -/
  offset : Nat
deriving DecidableEq, Repr

/-- The record for large archives at `position`, if it ends at the locator and agrees with
it on the disk with the directory, and there is room for the headers before it. -/
def wideRecord? (data : Data) (locator directoryDisk position : Nat) :
    Option WideRecord := do
  let size ← numberAt? data (position + 4) 8
  let madeBy ← numberAt? data (position + 12) 2
  let needed ← numberAt? data (position + 14) 2
  let disk ← numberAt? data (position + 16) 4
  let disk' ← numberAt? data (position + 20) 4
  let here ← numberAt? data (position + 24) 8
  let total ← numberAt? data (position + 32) 8
  let offset ← numberAt? data (position + 48) 8
  if size < 44 ∨ size + 12 ≠ locator - position then none
  if disk' ≠ directoryDisk then none
  if position < total * 46 + offset then none
  return ⟨madeBy, needed, disk, disk', here, total, offset⟩

/-- The placement that a record for large archives leads to when `shift` bytes precede the
archive. -/
def WideRecord.placement? (r : WideRecord) (shift : Nat) : Option Placement :=
  if r.here > r.total ∨ r.needed > r.madeBy then none
  else some ⟨r.offset + shift, r.total, shift, r.disk, r.directoryDisk⟩

/-- The position that the locator of a large archive announces for its record, and the
number of the disk with its directory. -/
def locator? (data : Data) (position : Nat) : Option (Nat × Nat × Nat) := do
  let mark ← slice? data position 4
  if mark ≠ wideLocatorMark then none
  let directoryDisk ← numberAt? data (position + 4) 4
  let announced ← numberAt? data (position + 8) 8
  let disks ← numberAt? data (position + 16) 4
  return (directoryDisk, announced, disks)

/-- The placement of the directory of a large archive whose locator is at `locator`.  Of the
records whose marks stand at `records`, the first from the announced position on that agrees
with the locator counts. -/
def widePlacement? (data : Data) (records : List Nat) (locator : Nat) :
    Nat × Nat × Nat → Option Placement
  | (directoryDisk, announced, disks) => do
      if locator ≤ announced ∨ disks > 1 then none
      let (record, shift) ← records.findSome? fun position =>
        if announced ≤ position ∧ position + wideEndMark.length ≤ locator then
          (wideRecord? data locator directoryDisk position).map (·, position - announced)
        else none
      record.placement? shift

/-- The header at `position`: the name of its file, and where the next header is.  The file
itself begins before the directory. -/
def header? (data : Data) (placement : Placement) (position : Nat) :
    Option (String × Nat) := do
  let mark ← slice? data position 4
  if mark ≠ headerMark then none
  let flags ← numberAt? data (position + 8) 2
  let method ← numberAt? data (position + 10) 2
  let compressedSize ← numberAt? data (position + 20) 4
  let size ← numberAt? data (position + 24) 4
  let nameLength ← numberAt? data (position + 28) 2
  let extraLength ← numberAt? data (position + 30) 2
  let commentLength ← numberAt? data (position + 32) 2
  let offset ← numberAt? data (position + 42) 4
  let rawName ← slice? data (position + 46) nameLength
  let extra ← slice? data (position + 46 + nameLength) extraLength
  let rawComment ← slice? data (position + 46 + nameLength + extraLength) commentLength
  let text := if flags.testBit 11 then Utf8.decodeLossy else decodeCodePage
  let plain : Described :=
    { rawName, name := text rawName, comment := text rawComment, size, compressedSize, offset,
      method }
  let described ← plain.readFields extra
  if described.method = 99 ∧ !described.encryptionKnown then none
  if placement.start ≤ described.offset + placement.shift then none
  return (described.name, position + 46 + nameLength + extraLength + commentLength)

/-- The names in the `count` headers from `position` on, latest first in front of `found`. -/
def headerNames? (data : Data) (placement : Placement) :
    (count position : Nat) → (found : List String) → Option (List String)
  | 0, _, found => some found
  | count + 1, position, found =>
      match header? data placement position with
      | none => none
      | some (name, next) => headerNames? data placement count next (name :: found)

/-- The names in the directory that the record at `position` leads to, when marks of headers
and of records for large archives stand at the given positions. -/
def namesFrom? (data : Data) (headers records : List Nat) (position : Nat) :
    Option (List String) := do
  let commentLength ← numberAt? data (position + 20) 2
  if data.size < position + 22 + commentLength then none
  let total ← numberAt? data (position + 10) 2
  let offset ← numberAt? data (position + 16) 4
  let locator := if total = 0xFFFF ∨ offset = Described.overflowed then
    (if position < 20 then none else locator? data (position - 20)) else none
  let placement ←
    match locator with
    | some found => widePlacement? data records (position - 20) found
    | none => placement? data headers position
  if placement.disk ≠ placement.directoryDisk then none
  headerNames? data placement placement.count placement.start []

/-- The names of the files in the archive `bytes`, if it is one. -/
def names? (bytes : Bytes) : Option (List String) :=
  let data := bytes.toArray
  let headers := marks data headerMark
  let records := marks data wideEndMark
  (marks data endMark).reverse.findSome? (namesFrom? data headers records)

end Archive
end Freshness
