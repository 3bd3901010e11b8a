import Mathlib.Algebra.Order.Group.Nat
import Freshness.Proofs.Text.Utf8

/-!
# Bytes that spell a text

The machine that reads text accepts nothing but the bytes of texts: each text is spelled in one way,
and bytes without a malformed piece are those of the characters that are read from them.
-/

namespace Freshness

/-- If an item is read from what was written of it only, then so are the items of a list. -/
theorem mapM_eq_some_iff {α β : Type} {f : α → Option β} {g : β → α}
    (h : ∀ a b, f a = some b ↔ a = g b) {items : List α} {found : List β} :
    items.mapM f = some found ↔ items = found.map g := by
  constructor
  · intro hread
    induction items generalizing found with
    | nil =>
        obtain rfl : [] = found := by simpa using hread
        rfl
    | cons a items ih =>
        simp only [List.mapM_cons, Option.bind_eq_bind, Option.bind_eq_some_iff] at hread
        obtain ⟨b, hb, others, hothers, heq⟩ := hread
        cases heq
        rw [List.map_cons, ← ih hothers, ← (h a b).mp hb]
  · rintro rfl
    exact mapM_map f g (fun b => (h _ b).mpr rfl) found

namespace Utf8

/-! ## What a first byte leaves open -/

theorem start_stray : (∀ n < 0x42, start (UInt8.ofNat (n + 0x80)) = ([none], .complete)) ∧
    ∀ n < 0xB, start (UInt8.ofNat (n + 0xF5)) = ([none], .complete) := by
  decide

theorem start_three : ∀ n < 0x10, start (UInt8.ofNat (n + 0xE0)) = ([], .partway 1
    (if n = 0 then 0xA0 else 0x80) (if n = 0xD then 0x9F else 0xBF) n) := by
  decide

theorem start_four : ∀ n < 5, start (UInt8.ofNat (n + 0xF0)) = ([], .partway 2
    (if n = 0 then 0x90 else 0x80) (if n = 4 then 0x8F else 0xBF) n) := by
  decide

/-- A sequence that is open must be continued by a byte within its bounds. -/
theorem exists_of_partway {more bits : Nat} {low high : UInt8} {bytes : Bytes}
    (h : none ∉ pieces (.partway more low high bits) bytes) :
    ∃ b rest, bytes = b :: rest ∧ low.toNat ≤ b.toNat ∧ b.toNat ≤ high.toNat ∧
      none ∉ pieces (step (.partway more low high bits) b).2 rest := by
  cases bytes with
  | nil => simp [pieces] at h
  | cons b rest =>
      by_cases hb : low ≤ b ∧ b ≤ high
      · refine ⟨b, rest, rfl, UInt8.le_iff_toNat_le.mp hb.1, UInt8.le_iff_toNat_le.mp hb.2, ?_⟩
        rw [pieces] at h
        exact fun hmem => h (List.mem_append_right _ hmem)
      · have hstep : step (.partway more low high bits) b = (none :: (start b).1, (start b).2) := by
          rw [step, if_neg hb]
        rw [pieces_cons hstep] at h
        exact absurd (List.mem_append_left _ List.mem_cons_self) h

theorem exists_of_partway_succ {more bits : Nat} {low high : UInt8} {bytes : Bytes}
    (h : none ∉ pieces (.partway (more + 1) low high bits) bytes) :
    ∃ b rest, bytes = b :: rest ∧ low.toNat ≤ b.toNat ∧ b.toNat ≤ high.toNat ∧
      none ∉ pieces (.partway more 0x80 0xBF (bits * 0x40 + b.toNat % 0x40)) rest := by
  obtain ⟨b, rest, rfl, hlow, hhigh, hrest⟩ := exists_of_partway h
  rw [step, if_pos ⟨UInt8.le_iff_toNat_le.mpr hlow, UInt8.le_iff_toNat_le.mpr hhigh⟩] at hrest
  exact ⟨b, rest, rfl, hlow, hhigh, hrest⟩

/-! ## The bytes of a character -/

/-- The bytes of the character with a number. -/
theorem encodeChar_ofNat {v : Nat} (hv : v.isValidChar) :
    String.utf8EncodeChar (Char.ofNat v) =
      if v < 0x80 then [UInt8.ofNat v]
      else if v < 0x800 then [UInt8.ofNat (v / 64 % 32 + 0xC0), UInt8.ofNat (v % 64 + 0x80)]
      else if v < 0x10000 then
        [UInt8.ofNat (v / 4096 % 16 + 0xE0), UInt8.ofNat (v / 64 % 64 + 0x80),
          UInt8.ofNat (v % 64 + 0x80)]
      else
        [UInt8.ofNat (v / 262144 % 8 + 0xF0), UInt8.ofNat (v / 4096 % 64 + 0x80),
          UInt8.ofNat (v / 64 % 64 + 0x80), UInt8.ofNat (v % 64 + 0x80)] := by
  have hval : (Char.ofNat v).val.toNat = v := by
    rw [Char.ofNat, dif_pos hv]
    rfl
  rw [String.utf8EncodeChar]
  simp only [hval]
  split_ifs <;> first | omega | rfl

theorem encodeChar_ne_nil (c : Char) : String.utf8EncodeChar c ≠ [] := by
  rw [String.utf8EncodeChar]
  split_ifs <;> exact List.cons_ne_nil _ _

theorem exists_of_start_two {n : Nat} (hlow : 0xC2 ≤ n) (hhigh : n < 0xE0) {bytes : Bytes}
    (h : none ∉ pieces (start (UInt8.ofNat n)).2 bytes) :
    ∃ c rest, UInt8.ofNat n :: bytes = String.utf8EncodeChar c ++ rest := by
  have hstart := step_two (n - 0xC0) (by omega) (by omega)
  rw [Nat.sub_add_cancel (by omega), step] at hstart
  rw [hstart] at h
  obtain ⟨b, rest, rfl, hlow', hhigh', -⟩ := exists_of_partway h
  simp only [UInt8.reduceToNat] at hlow' hhigh'
  have hfirst : ((n - 0xC0) * 64 + b.toNat % 64) / 64 % 32 + 0xC0 = n := by omega
  have hsecond : ((n - 0xC0) * 64 + b.toNat % 64) % 64 + 0x80 = b.toNat := by omega
  refine ⟨Char.ofNat ((n - 0xC0) * 64 + b.toNat % 64), rest, ?_⟩
  rw [encodeChar_ofNat (by left; omega), if_neg (by omega), if_pos (by omega), hfirst, hsecond,
    UInt8.ofNat_toNat]
  rfl

/-- The bounds of the second byte leave out shorter characters and surrogates. -/
theorem exists_of_start_three {n : Nat} (hlow : 0xE0 ≤ n) (hhigh : n < 0xF0) {bytes : Bytes}
    (h : none ∉ pieces (start (UInt8.ofNat n)).2 bytes) :
    ∃ c rest, UInt8.ofNat n :: bytes = String.utf8EncodeChar c ++ rest := by
  have hstart := start_three (n - 0xE0) (by omega)
  rw [Nat.sub_add_cancel (by omega)] at hstart
  rw [hstart] at h
  obtain ⟨b₁, rest, rfl, hlow₁, hhigh₁, hrest⟩ := exists_of_partway_succ h
  obtain ⟨b₂, rest, rfl, hlow₂, hhigh₂, -⟩ := exists_of_partway hrest
  simp only [apply_ite UInt8.toNat, UInt8.reduceToNat] at hlow₁ hhigh₁ hlow₂ hhigh₂
  obtain ⟨v, hv⟩ : ∃ v, v = ((n - 0xE0) * 64 + b₁.toNat % 64) * 64 + b₂.toNat % 64 := ⟨_, rfl⟩
  have hfirst : v / 4096 % 16 + 0xE0 = n := by omega
  have hsecond : v / 64 % 64 + 0x80 = b₁.toNat := by split_ifs at hlow₁ hhigh₁ <;> omega
  have hthird : v % 64 + 0x80 = b₂.toNat := by omega
  have hlarge : 0x800 ≤ v := by split_ifs at hlow₁ <;> omega
  have hvalid : v.isValidChar := by
    unfold Nat.isValidChar
    split_ifs at hhigh₁ <;> omega
  refine ⟨Char.ofNat v, rest, ?_⟩
  rw [encodeChar_ofNat hvalid, if_neg (by omega), if_neg (by omega), if_pos (by omega), hfirst,
    hsecond, hthird, UInt8.ofNat_toNat, UInt8.ofNat_toNat]
  rfl

/-- The bounds of the second byte leave out shorter characters and what is beyond the last one. -/
theorem exists_of_start_four {n : Nat} (hlow : 0xF0 ≤ n) (hhigh : n < 0xF5) {bytes : Bytes}
    (h : none ∉ pieces (start (UInt8.ofNat n)).2 bytes) :
    ∃ c rest, UInt8.ofNat n :: bytes = String.utf8EncodeChar c ++ rest := by
  have hstart := start_four (n - 0xF0) (by omega)
  rw [Nat.sub_add_cancel (by omega)] at hstart
  rw [hstart] at h
  obtain ⟨b₁, rest, rfl, hlow₁, hhigh₁, hrest⟩ := exists_of_partway_succ h
  obtain ⟨b₂, rest, rfl, hlow₂, hhigh₂, hrest⟩ := exists_of_partway_succ hrest
  obtain ⟨b₃, rest, rfl, hlow₃, hhigh₃, -⟩ := exists_of_partway hrest
  simp only [apply_ite UInt8.toNat, UInt8.reduceToNat] at hlow₁ hhigh₁ hlow₂ hhigh₂ hlow₃ hhigh₃
  obtain ⟨v, hv⟩ : ∃ v, v = (((n - 0xF0) * 64 + b₁.toNat % 64) * 64 + b₂.toNat % 64) * 64 +
    b₃.toNat % 64 := ⟨_, rfl⟩
  have hfirst : v / 262144 % 8 + 0xF0 = n := by omega
  have hsecond : v / 4096 % 64 + 0x80 = b₁.toNat := by split_ifs at hlow₁ hhigh₁ <;> omega
  have hthird : v / 64 % 64 + 0x80 = b₂.toNat := by omega
  have hfourth : v % 64 + 0x80 = b₃.toNat := by omega
  have hlarge : 0x10000 ≤ v := by split_ifs at hlow₁ <;> omega
  have hvalid : v.isValidChar := by
    unfold Nat.isValidChar
    split_ifs at hhigh₁ <;> omega
  refine ⟨Char.ofNat v, rest, ?_⟩
  rw [encodeChar_ofNat hvalid, if_neg (by omega), if_neg (by omega), if_neg (by omega), hfirst,
    hsecond, hthird, hfourth, UInt8.ofNat_toNat, UInt8.ofNat_toNat, UInt8.ofNat_toNat]
  rfl

/-- Bytes without a malformed piece begin with those of a character. -/
theorem exists_encodeChar {b : UInt8} {bytes : Bytes} (h : none ∉ pieces .complete (b :: bytes)) :
    ∃ c rest, b :: bytes = String.utf8EncodeChar c ++ rest := by
  obtain ⟨n, hn, rfl⟩ : ∃ n < 0x100, b = UInt8.ofNat n :=
    ⟨b.toNat, b.toNat_lt, (UInt8.ofNat_toNat).symm⟩
  have hpieces : pieces .complete (UInt8.ofNat n :: bytes) =
      (start (UInt8.ofNat n)).1 ++ pieces (start (UInt8.ofNat n)).2 bytes := rfl
  rw [hpieces] at h
  obtain ⟨hdone, hrest⟩ := not_or.mp (mt List.mem_append.mpr h)
  by_cases hone : n < 0x80
  · refine ⟨Char.ofNat n, bytes, ?_⟩
    rw [encodeChar_ofNat (by left; omega), if_pos hone, List.singleton_append]
  by_cases hstray : n < 0xC2 ∨ 0xF5 ≤ n
  · have hstart : start (UInt8.ofNat n) = ([none], .complete) := by
      rcases hstray with hlow | hhigh
      · have hstray := start_stray.1 (n - 0x80) (by omega)
        rwa [Nat.sub_add_cancel (by omega)] at hstray
      · have hstray := start_stray.2 (n - 0xF5) (by omega)
        rwa [Nat.sub_add_cancel (by omega)] at hstray
    rw [hstart] at hdone
    exact absurd List.mem_cons_self hdone
  by_cases htwo : n < 0xE0
  · exact exists_of_start_two (by omega) htwo hrest
  by_cases hthree : n < 0xF0
  · exact exists_of_start_three (by omega) hthree hrest
  · exact exists_of_start_four (by omega) (by omega) hrest

/-! ## Texts -/

/-- Bytes without a malformed piece are those of some characters. -/
theorem exists_letters {bytes : Bytes} (h : none ∉ pieces .complete bytes) :
    ∃ letters : List Char, bytes = letters.flatMap String.utf8EncodeChar := by
  obtain ⟨n, hn⟩ : ∃ n, n = bytes.length := ⟨_, rfl⟩
  induction n using Nat.strong_induction_on generalizing bytes with
  | _ n ih =>
    cases bytes with
    | nil => exact ⟨[], rfl⟩
    | cons b bytes =>
        obtain ⟨c, rest, hrest⟩ := exists_encodeChar h
        have hpos := List.length_pos_iff.mpr (encodeChar_ne_nil c)
        rw [hrest, pieces_encodeChar] at h
        rw [hrest, List.length_append] at hn
        obtain ⟨letters, hletters⟩ := ih rest.length (by omega)
          (fun hmem => h (List.mem_cons_of_mem _ hmem)) rfl
        exact ⟨c :: letters, by rw [hrest, hletters]; rfl⟩

/-- A text is read from its own bytes only. -/
theorem decode?_eq_some_iff {bytes : Bytes} {text : String} :
    decode? bytes = some text ↔ bytes = encode text := by
  constructor
  · intro h
    rw [decode?, piecesOnto_eq, List.append_nil, List.reverse_reverse] at h
    obtain ⟨found, hfound, rfl⟩ := Option.map_eq_some_iff.mp h
    have hpieces : pieces .complete bytes = found.map some :=
      (mapM_eq_some_iff fun _ _ => Iff.rfl).mp hfound
    have hnone : none ∉ pieces .complete bytes := by
      rw [hpieces]
      simp
    obtain ⟨letters, rfl⟩ := exists_letters hnone
    rw [pieces_flatMap] at hpieces
    rw [encode, String.toList_ofList, List.map_injective_iff.mpr (fun _ _ => Option.some.inj) hpieces]
  · rintro rfl
    exact decode?_encode text

/-- A reader is shown a text as it is. -/
theorem decodeLossy_encode (text : String) : decodeLossy (encode text) = text := by
  have hshown : (·.getD '\uFFFD') ∘ some = (id : Char → Char) := rfl
  rw [decodeLossy, piecesOnto_eq, List.append_nil, List.reverse_reverse, encode, pieces_flatMap,
    List.map_map, hshown, List.map_id, String.ofList_toList]

theorem encode_injective : Function.Injective encode := by
  intro text other h
  have hdecode := decode?_encode text
  rw [h, decode?_encode] at hdecode
  exact (Option.some.inj hdecode).symm

end Utf8
end Freshness
