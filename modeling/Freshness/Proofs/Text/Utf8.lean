import Freshness.Text.Utf8
import Mathlib.Data.List.Basic

/-!
# Reading what was written

The machine that reads text takes the bytes of a character as that character, and is then ready for
the next one.  So the bytes of a text are read as the text.
-/

namespace Freshness

/-- Items that are read one by one from what was written of them. -/
theorem mapM_map {α β : Type} (f : α → Option β) (g : β → α) (h : ∀ b, f (g b) = some b)
    (found : List β) : (found.map g).mapM f = some found := by
  induction found with
  | nil => rfl
  | cons b found ih => simp [h, ih]

namespace Utf8

/-! ## First bytes -/

theorem step_one : ∀ n < 0x80,
    step .complete (UInt8.ofNat n) = ([some (Char.ofNat n)], .complete) := by
  decide

theorem step_two : ∀ n < 0x20, 2 ≤ n →
    step .complete (UInt8.ofNat (n + 0xC0)) = ([], .partway 0 0x80 0xBF n) := by
  decide

/-- The least second byte is greater after one of the first bytes. -/
theorem lowest_le {p : Prop} [Decidable p] {least : UInt8} {m bound : Nat}
    (hleast : least.toNat = bound + 0x80) (h : p → bound ≤ m) :
    (if p then least else 0x80).toNat ≤ m + 0x80 := by
  split
  next hp =>
    rw [hleast]
    exact Nat.add_le_add_right (h hp) 0x80
  next => exact Nat.le_add_left 0x80 m

/-- The greatest second byte is less after one of the first bytes. -/
theorem le_highest {p : Prop} [Decidable p] {greatest : UInt8} {m bound : Nat}
    (hgreatest : greatest.toNat + 1 = bound + 0x80) (hm : m < 0x40) (h : p → m < bound) :
    m + 0x80 ≤ (if p then greatest else 0xBF).toNat := by
  split
  next hp =>
    have := h hp
    omega
  next => exact Nat.add_le_add_right (Nat.le_of_lt_succ hm) 0x80

/-- The second byte is bounded so that nothing that is shorter and no surrogate is written in three
bytes. -/
theorem step_three {n m : Nat} (hn : n < 0x10) (hm : m < 0x40) (hlow : n = 0 → 0x20 ≤ m)
    (hhigh : n = 0xD → m < 0x20) :
    ∃ low high, step .complete (UInt8.ofNat (n + 0xE0)) = ([], .partway 1 low high n) ∧
      low.toNat ≤ m + 0x80 ∧ m + 0x80 ≤ high.toNat := by
  have hstep : ∀ n < 0x10, step .complete (UInt8.ofNat (n + 0xE0)) = ([], .partway 1
      (if n = 0 then 0xA0 else 0x80) (if n = 0xD then 0x9F else 0xBF) n) := by
    decide
  exact ⟨_, _, hstep n hn, lowest_le rfl hlow, le_highest rfl hm hhigh⟩

/-- The second byte is bounded so that nothing that is shorter and nothing beyond the last character
is written in four bytes. -/
theorem step_four {n m : Nat} (hn : n < 5) (hm : m < 0x40) (hlow : n = 0 → 0x10 ≤ m)
    (hhigh : n = 4 → m < 0x10) :
    ∃ low high, step .complete (UInt8.ofNat (n + 0xF0)) = ([], .partway 2 low high n) ∧
      low.toNat ≤ m + 0x80 ∧ m + 0x80 ≤ high.toNat := by
  have hstep : ∀ n < 5, step .complete (UInt8.ofNat (n + 0xF0)) = ([], .partway 2
      (if n = 0 then 0x90 else 0x80) (if n = 4 then 0x8F else 0xBF) n) := by
    decide
  exact ⟨_, _, hstep n hn, lowest_le rfl hlow, le_highest rfl hm hhigh⟩

/-! ## Further bytes -/

section Tail

variable {low high : UInt8} {n : Nat}

theorem tail_mem (hn : n < 0x40) (hlow : low.toNat ≤ n + 0x80) (hhigh : n + 0x80 ≤ high.toNat) :
    (low ≤ UInt8.ofNat (n + 0x80) ∧ UInt8.ofNat (n + 0x80) ≤ high) ∧
      (UInt8.ofNat (n + 0x80)).toNat % 0x40 = n := by
  have htoNat : (UInt8.ofNat (n + 0x80)).toNat = n + 0x80 := by
    rw [UInt8.toNat_ofNat']
    omega
  rw [UInt8.le_iff_toNat_le, UInt8.le_iff_toNat_le, htoNat]
  omega

theorem step_last (hn : n < 0x40) (hlow : low.toNat ≤ n + 0x80) (hhigh : n + 0x80 ≤ high.toNat)
    (bits : Nat) :
    step (.partway 0 low high bits) (UInt8.ofNat (n + 0x80)) =
      ([some (Char.ofNat (bits * 0x40 + n))], .complete) := by
  obtain ⟨hmem, hbits⟩ := tail_mem hn hlow hhigh
  rw [step, if_pos hmem, hbits]

theorem step_tail (hn : n < 0x40) (hlow : low.toNat ≤ n + 0x80) (hhigh : n + 0x80 ≤ high.toNat)
    (more bits : Nat) :
    step (.partway (more + 1) low high bits) (UInt8.ofNat (n + 0x80)) =
      ([], .partway more 0x80 0xBF (bits * 0x40 + n)) := by
  obtain ⟨hmem, hbits⟩ := tail_mem hn hlow hhigh
  rw [step, if_pos hmem, hbits]

theorem le_tail (n : Nat) : (0x80 : UInt8).toNat ≤ n + 0x80 :=
  Nat.le_add_left 0x80 n

theorem tail_le (hn : n < 0x40) : n + 0x80 ≤ (0xBF : UInt8).toNat :=
  Nat.add_le_add_right (Nat.le_of_lt_succ hn) 0x80

end Tail

/-! ## Characters -/

theorem pieces_cons {pending next : Pending} {b : UInt8} {done : List (Option Char)}
    (h : step pending b = (done, next)) (rest : Bytes) :
    pieces pending (b :: rest) = done ++ pieces next rest := by
  rw [pieces, h]

/-- A character is read as itself. -/
theorem pieces_encodeChar (c : Char) (rest : Bytes) :
    pieces .complete (String.utf8EncodeChar c ++ rest) = some c :: pieces .complete rest := by
  have hvalid : c.toNat < 0xD800 ∨ 0xDFFF < c.toNat ∧ c.toNat < 0x110000 := c.valid
  have hchar : Char.ofNat c.toNat = c := Char.ofNat_toNat c
  have hval : c.val.toNat = c.toNat := rfl
  generalize c.toNat = v at hvalid hchar hval
  have hlast : v % 64 < 64 := by omega
  rw [String.utf8EncodeChar]
  simp only [hval]
  split_ifs with hone htwo hthree
  · rw [List.singleton_append, pieces_cons (step_one v (by omega)), hchar, List.singleton_append]
  · have hbits : v / 64 % 32 * 64 + v % 64 = v := by omega
    have hfirst := step_two (v / 64 % 32) (by omega) (by omega)
    have hsecond := step_last hlast (le_tail _) (tail_le hlast) (v / 64 % 32)
    rw [hbits, hchar] at hsecond
    rw [List.cons_append, List.singleton_append, pieces_cons hfirst, pieces_cons hsecond]
    rfl
  · have hbits : (v / 4096 % 16 * 64 + v / 64 % 64) * 64 + v % 64 = v := by omega
    have hmiddle : v / 64 % 64 < 64 := by omega
    obtain ⟨low, high, hfirst, hlow, hhigh⟩ :=
      step_three (n := v / 4096 % 16) (by omega) hmiddle (by omega) (by omega)
    have hsecond := step_tail hmiddle hlow hhigh 0 (v / 4096 % 16)
    have hthird := step_last hlast (le_tail _) (tail_le hlast) (v / 4096 % 16 * 64 + v / 64 % 64)
    rw [hbits, hchar] at hthird
    rw [List.cons_append, List.cons_append, List.singleton_append, pieces_cons hfirst,
      pieces_cons hsecond, pieces_cons hthird]
    rfl
  · have hbits : ((v / 262144 % 8 * 64 + v / 4096 % 64) * 64 + v / 64 % 64) * 64 + v % 64 = v := by
      omega
    have hmiddle : v / 4096 % 64 < 64 := by omega
    have hmiddle' : v / 64 % 64 < 64 := by omega
    obtain ⟨low, high, hfirst, hlow, hhigh⟩ :=
      step_four (n := v / 262144 % 8) (by omega) hmiddle (by omega) (by omega)
    have hsecond := step_tail hmiddle hlow hhigh 1 (v / 262144 % 8)
    have hthird := step_tail hmiddle' (le_tail _) (tail_le hmiddle') 0
      (v / 262144 % 8 * 64 + v / 4096 % 64)
    have hfourth := step_last hlast (le_tail _) (tail_le hlast)
      ((v / 262144 % 8 * 64 + v / 4096 % 64) * 64 + v / 64 % 64)
    rw [hbits, hchar] at hfourth
    rw [List.cons_append, List.cons_append, List.cons_append, List.singleton_append,
      pieces_cons hfirst, pieces_cons hsecond, pieces_cons hthird, pieces_cons hfourth]
    rfl

theorem pieces_flatMap (letters : List Char) :
    pieces .complete (letters.flatMap String.utf8EncodeChar) = letters.map some := by
  induction letters with
  | nil => rfl
  | cons c rest ih => rw [List.flatMap_cons, pieces_encodeChar, ih, List.map_cons]

/-- The bytes of a text are read as the text. -/
theorem decode?_encode (text : String) : decode? (encode text) = some text := by
  have hpieces : (piecesOnto [] .complete (encode text)).reverse = text.toList.map some := by
    rw [piecesOnto_eq, List.append_nil, List.reverse_reverse, encode, pieces_flatMap]
  rw [decode?, hpieces, mapM_map id some fun _ => rfl, Option.map_some, String.ofList_toList]

/-! ## Bytes of a text -/

theorem encode_append (before after : String) :
    encode (before ++ after) = encode before ++ encode after := by
  simp [encode]

theorem encode_ne_nil {text : String} (h : text.toList ≠ []) : encode text ≠ [] := by
  obtain ⟨c, rest, hc⟩ := List.exists_cons_of_ne_nil h
  rw [encode, hc, List.flatMap_cons]
  intro hnil
  have hchar : String.utf8EncodeChar c = [] := (List.append_eq_nil_iff.mp hnil).1
  rw [String.utf8EncodeChar] at hchar
  split_ifs at hchar

/-- A byte below 0x80 stands for one character only. -/
theorem eq_of_mem_encodeChar {b : UInt8} (hb : b.toNat < 0x80) {c : Char}
    (h : b ∈ String.utf8EncodeChar c) : c.toNat = b.toNat := by
  have hval : c.val.toNat = c.toNat := rfl
  have hlow : ∀ v : Nat, 0x80 ≤ v → v < 0x100 → b ≠ UInt8.ofNat v := by
    rintro v hv hbound rfl
    rw [UInt8.toNat_ofNat'] at hb
    omega
  rw [String.utf8EncodeChar] at h
  simp only [hval] at h
  generalize c.toNat = v at h
  split_ifs at h with hone htwo hthree
  · rw [List.mem_singleton.mp h, UInt8.toNat_ofNat']
    omega
  · simp only [List.mem_cons, List.not_mem_nil, or_false] at h
    rcases h with h | h <;> exact absurd h (hlow _ (by omega) (by omega))
  · simp only [List.mem_cons, List.not_mem_nil, or_false] at h
    rcases h with h | h | h <;> exact absurd h (hlow _ (by omega) (by omega))
  · simp only [List.mem_cons, List.not_mem_nil, or_false] at h
    rcases h with h | h | h | h <;> exact absurd h (hlow _ (by omega) (by omega))

theorem not_mem_encode {text : String} {c : Char} (hc : c.toNat < 0x80) (h : c ∉ text.toList) :
    UInt8.ofNat c.toNat ∉ encode text := by
  intro hmem
  obtain ⟨d, hd, hbyte⟩ := List.mem_flatMap.mp hmem
  have htoNat : (UInt8.ofNat c.toNat).toNat = c.toNat := by
    rw [UInt8.toNat_ofNat']
    omega
  have heq : d.toNat = c.toNat := by
    rw [← htoNat]
    exact eq_of_mem_encodeChar (by rw [htoNat]; exact hc) hbyte
  rw [← Char.ofNat_toNat d, heq, Char.ofNat_toNat] at hd
  exact h hd

end Utf8
end Freshness
