/-!
# UTF-8

Bytes as text and text as bytes.  Reading is a machine that looks at one byte at a
time; a sequence that cannot be completed is reported as one malformed piece, ending
just before the first byte that does not fit.  The strict reading refuses such a
piece, the lenient reading puts the replacement character in its place.
-/

namespace Freshness

/-- A sequence of bytes, such as the content of a file. -/
abbrev Bytes := List UInt8

namespace Utf8

/-- What the bytes read so far leave open. -/
inductive Pending
  /-- Every character is complete. -/
  | complete
  /-- A character with leading bits `bits` lacks `more + 1` bytes, the next of which
  lies between `low` and `high`. -/
  | partway (more : Nat) (low high : UInt8) (bits : Nat)
deriving DecidableEq, Repr

/-- The pieces completed by a byte that starts a character, and what it leaves open. -/
def start (b : UInt8) : List (Option Char) × Pending :=
  if b < 0x80 then ([some (Char.ofNat b.toNat)], .complete)
  else if 0xC2 ≤ b ∧ b ≤ 0xDF then ([], .partway 0 0x80 0xBF (b.toNat % 0x20))
  else if b = 0xE0 then ([], .partway 1 0xA0 0xBF 0)
  else if b = 0xED then ([], .partway 1 0x80 0x9F 0xD)
  else if 0xE1 ≤ b ∧ b ≤ 0xEF then ([], .partway 1 0x80 0xBF (b.toNat % 0x10))
  else if b = 0xF0 then ([], .partway 2 0x90 0xBF 0)
  else if b = 0xF4 then ([], .partway 2 0x80 0x8F 4)
  else if 0xF1 ≤ b ∧ b ≤ 0xF3 then ([], .partway 2 0x80 0xBF (b.toNat % 8))
  else ([none], .complete)

/-- The pieces completed by the next byte; `none` is a malformed piece. -/
def step (pending : Pending) (b : UInt8) : List (Option Char) × Pending :=
  match pending with
  | .complete => start b
  | .partway more low high bits =>
      if low ≤ b ∧ b ≤ high then
        let bits := bits * 0x40 + b.toNat % 0x40
        match more with
        | 0 => ([some (Char.ofNat bits)], .complete)
        | more + 1 => ([], .partway more 0x80 0xBF bits)
      else
        let (pieces, next) := start b
        (none :: pieces, next)

/-- The characters and malformed pieces of `bytes`, read from the state `pending`. -/
def pieces (pending : Pending) : Bytes → List (Option Char)
  | [] => if pending = .complete then [] else [none]
  | b :: rest =>
      let (done, next) := step pending b
      done ++ pieces next rest

/-- The pieces of `bytes` in reverse order, in front of `done`. -/
def piecesOnto (done : List (Option Char)) (pending : Pending) :
    Bytes → List (Option Char)
  | [] => if pending = .complete then done else none :: done
  | b :: rest =>
      let (more, next) := step pending b
      piecesOnto (more.reverse ++ done) next rest

theorem piecesOnto_eq (bytes : Bytes) (done : List (Option Char)) (pending : Pending) :
    piecesOnto done pending bytes = (pieces pending bytes).reverse ++ done := by
  induction bytes generalizing done pending with
  | nil => by_cases h : pending = .complete <;> simp [piecesOnto, pieces, h]
  | cons b rest ih => simp [piecesOnto, pieces, ih]

/-- The text that `bytes` spell, if they spell one. -/
def decode? (bytes : Bytes) : Option String :=
  ((piecesOnto [] .complete bytes).reverse.mapM id).map String.ofList

/-- The text that `bytes` spell, with a replacement character for each malformed piece. -/
def decodeLossy (bytes : Bytes) : String :=
  String.ofList ((piecesOnto [] .complete bytes).reverse.map (·.getD '\uFFFD'))

/-- The bytes of a text. -/
def encode (text : String) : Bytes :=
  text.toList.flatMap String.utf8EncodeChar

end Utf8

end Freshness
