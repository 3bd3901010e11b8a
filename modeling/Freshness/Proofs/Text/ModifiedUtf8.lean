import Freshness.Proofs.Text.Utf8

/-!
# Modified UTF-8

The texts in a class file are written in a way of their own: the character zero takes two bytes, and
a character beyond the basic plane is written as two surrogates, each in three bytes.  The lenient
reading of UTF-8 takes every other character as itself.  Of these it makes replacement characters,
one for each byte.
-/

namespace Freshness
namespace Utf8

/-- The bytes that a number takes as a character of three bytes. -/
def threeBytes (v : Nat) : Bytes :=
  [UInt8.ofNat (v / 4096 % 16 + 0xE0), UInt8.ofNat (v / 64 % 64 + 0x80), UInt8.ofNat (v % 64 + 0x80)]

/-- The bytes of a character in a class file. -/
def encodeModifiedChar (c : Char) : Bytes :=
  if c.toNat = 0 then [0xC0, 0x80]
  else if c.toNat < 0x10000 then String.utf8EncodeChar c
  else threeBytes (0xD800 + (c.toNat - 0x10000) / 0x400) ++
    threeBytes (0xDC00 + (c.toNat - 0x10000) % 0x400)

/-- The bytes of a text in a class file. -/
def encodeModified (text : String) : Bytes := text.toList.flatMap encodeModifiedChar

/-- What the bytes of a character in a class file are taken for. -/
def misreadChar (c : Char) : List Char :=
  if c.toNat = 0 then List.replicate 2 '\uFFFD'
  else if c.toNat < 0x10000 then [c]
  else List.replicate 6 '\uFFFD'

/-- What the bytes of a text in a class file are taken for. -/
def misread (text : String) : String := String.ofList (text.toList.flatMap misreadChar)

/-! ## Surrogates -/

theorem step_surrogate : ∀ n < 0x40, 0x20 ≤ n →
    step (.partway 1 0x80 0x9F 0xD) (UInt8.ofNat (n + 0x80)) = ([none, none], .complete) := by
  decide

theorem step_stray : ∀ n < 0x40,
    step .complete (UInt8.ofNat (n + 0x80)) = ([none], .complete) := by
  decide

/-- No surrogate is a character. -/
theorem pieces_surrogate {v : Nat} (hlow : 0xD800 ≤ v) (hhigh : v < 0xE000) (rest : Bytes) :
    pieces .complete (threeBytes v ++ rest) = none :: none :: none :: pieces .complete rest := by
  have hlead : v / 4096 % 16 = 0xD := by omega
  have hfirst : step .complete (UInt8.ofNat (v / 4096 % 16 + 0xE0)) =
      ([], .partway 1 0x80 0x9F 0xD) := by
    rw [hlead]
    decide
  have hsecond := step_surrogate (v / 64 % 64) (by omega) (by omega)
  have hthird := step_stray (v % 64) (by omega)
  rw [threeBytes, List.cons_append, List.cons_append, List.singleton_append, pieces_cons hfirst,
    pieces_cons hsecond, pieces_cons hthird]
  rfl

/-! ## Texts -/

theorem pieces_encodeModifiedChar (c : Char) (rest : Bytes) :
    (pieces .complete (encodeModifiedChar c ++ rest)).map (·.getD '\uFFFD') =
      misreadChar c ++ (pieces .complete rest).map (·.getD '\uFFFD') := by
  have hvalid : c.toNat < 0xD800 ∨ 0xDFFF < c.toNat ∧ c.toNat < 0x110000 := c.valid
  rw [encodeModifiedChar, misreadChar]
  split_ifs with hzero hplane
  · have hlead : step .complete 0xC0 = ([none], .complete) := by decide
    have hstray : step .complete 0x80 = ([none], .complete) := by decide
    rw [List.cons_append, List.singleton_append, pieces_cons hlead, pieces_cons hstray]
    rfl
  · rw [pieces_encodeChar]
    rfl
  · rw [List.append_assoc, pieces_surrogate (by omega) (by omega),
      pieces_surrogate (by omega) (by omega)]
    rfl

theorem decodeLossy_encodeModified (text : String) :
    decodeLossy (encodeModified text) = misread text := by
  have hletters : ∀ letters : List Char,
      (pieces .complete (letters.flatMap encodeModifiedChar)).map (·.getD '\uFFFD') =
        letters.flatMap misreadChar := by
    intro letters
    induction letters with
    | nil => rfl
    | cons c rest ih => rw [List.flatMap_cons, pieces_encodeModifiedChar, ih, List.flatMap_cons]
  rw [decodeLossy, piecesOnto_eq, List.append_nil, List.reverse_reverse, encodeModified, hletters,
    misread]

/-- The character is written as in UTF-8. -/
def IsBasic (c : Char) : Prop := c.toNat ≠ 0 ∧ c.toNat < 0x10000

theorem misreadChar_of_isBasic {c : Char} (h : IsBasic c) : misreadChar c = [c] := by
  rw [misreadChar, if_neg h.1, if_pos h.2]

theorem one_lt_length_misreadChar {c : Char} (h : ¬IsBasic c) : 1 < (misreadChar c).length := by
  unfold misreadChar
  split_ifs with hzero hplane
  · decide
  · exact absurd ⟨hzero, hplane⟩ h
  · decide

theorem length_le_flatMap_misreadChar (letters : List Char) :
    letters.length ≤ (letters.flatMap misreadChar).length := by
  induction letters with
  | nil => exact Nat.le_refl 0
  | cons c rest ih =>
      have hc : 1 ≤ (misreadChar c).length := by
        by_cases hbasic : IsBasic c
        · rw [misreadChar_of_isBasic hbasic]
          exact Nat.le_refl 1
        · exact Nat.le_of_lt (one_lt_length_misreadChar hbasic)
      rw [List.flatMap_cons, List.length_append, List.length_cons]
      omega

theorem flatMap_misreadChar_eq_iff (letters : List Char) :
    letters.flatMap misreadChar = letters ↔ ∀ c ∈ letters, IsBasic c := by
  induction letters with
  | nil => simp
  | cons c rest ih =>
      rw [List.flatMap_cons, List.forall_mem_cons, ← ih]
      constructor
      · intro h
        have hbasic : IsBasic c := by
          by_contra hc
          have hlength := congrArg List.length h
          have hrest := length_le_flatMap_misreadChar rest
          have hlong := one_lt_length_misreadChar hc
          rw [List.length_append, List.length_cons] at hlength
          omega
        rw [misreadChar_of_isBasic hbasic] at h
        exact ⟨hbasic, (List.cons.inj h).2⟩
      · rintro ⟨hbasic, hrest⟩
        rw [misreadChar_of_isBasic hbasic, hrest]
        rfl

/-- A text is read as itself just when each of its characters is written as in UTF-8. -/
theorem misread_eq_self_iff (text : String) :
    misread text = text ↔ ∀ c ∈ text.toList, IsBasic c := by
  rw [← flatMap_misreadChar_eq_iff, misread, ← String.toList_inj, String.toList_ofList]

end Utf8
end Freshness
