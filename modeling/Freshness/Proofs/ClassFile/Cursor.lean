import Mathlib
import Freshness.ClassFile.Cursor

/-!
# What a cursor passes over

A successful reading passes over the bytes that encode what was read.  Each way of reading is
described by these bytes, so that readings one after the other are described by the
concatenation.
-/

namespace Freshness
namespace ClassFile

theorem bind_eq_ok_iff {ε α β : Type} {x : Except ε α} {f : α → Except ε β} {b : β} :
    (x >>= f) = .ok b ↔ ∃ a, x = .ok a ∧ f a = .ok b := by
  cases x with
  | error e => simp [bind, Except.bind]
  | ok a => simp [bind, Except.bind]

theorem map_eq_ok_iff {ε α β : Type} {x : Except ε α} {f : α → β} {b : β} :
    x.map f = .ok b ↔ ∃ a, x = .ok a ∧ f a = b := by
  cases x with
  | error e => simp [Except.map]
  | ok a => simp [Except.map]

namespace Cursor

/-- The `width` bytes in which a number is stored. -/
def stored : (width : Nat) → Nat → Bytes
  | 0, _ => []
  | width + 1, n => stored width (n / 256) ++ [UInt8.ofNat n]

@[simp] theorem length_stored (width n : Nat) : (stored width n).length = width := by
  induction width generalizing n with
  | zero => rfl
  | succ width ih => simp [stored, ih]

theorem bigEndian_append_singleton (bytes : Bytes) (b : UInt8) :
    bigEndian (bytes ++ [b]) = bigEndian bytes * 256 + b.toNat := by
  simp [bigEndian]

theorem bigEndian_lt (bytes : Bytes) : bigEndian bytes < 256 ^ bytes.length := by
  induction bytes using List.reverseRecOn with
  | nil => simp [bigEndian]
  | append_singleton bytes b ih =>
      have hb : b.toNat < 256 := b.toNat_lt
      rw [bigEndian_append_singleton, List.length_append, List.length_singleton, Nat.pow_succ]
      omega

theorem stored_bigEndian (bytes : Bytes) : stored bytes.length (bigEndian bytes) = bytes := by
  induction bytes using List.reverseRecOn with
  | nil => rfl
  | append_singleton bytes b ih =>
      have hb : b.toNat < 256 := b.toNat_lt
      have high : (bigEndian bytes * 256 + b.toNat) / 256 = bigEndian bytes := by omega
      have low : UInt8.ofNat (bigEndian bytes * 256 + b.toNat) = b := by
        apply UInt8.toNat_inj.mp
        rw [UInt8.toNat_ofNat']
        omega
      rw [bigEndian_append_singleton, List.length_append, List.length_singleton, stored, high,
        low, ih]

theorem bigEndian_stored {width n : Nat} (h : n < 256 ^ width) :
    bigEndian (stored width n) = n := by
  induction width generalizing n with
  | zero =>
      have : n = 0 := by simpa using h
      simp [this, stored, bigEndian]
  | succ width ih =>
      have high : n / 256 < 256 ^ width := by
        rw [Nat.pow_succ] at h
        omega
      rw [stored, bigEndian_append_singleton, ih high, UInt8.toNat_ofNat']
      omega

theorem exists_stored {width : Nat} {bytes : Bytes} (h : bytes.length = width) :
    ∃ n < 256 ^ width, stored width n = bytes := by
  subst h
  exact ⟨bigEndian bytes, bigEndian_lt bytes, stored_bigEndian bytes⟩

/-- Passing over `bytes` leads from `c` to `c'`. -/
structure Moves (c : Cursor) (bytes : Bytes) (c' : Cursor) : Prop where
  rest : c.rest = bytes ++ c'.rest
  offset : c'.offset = c.offset + bytes.length

variable {c c' : Cursor}

theorem moves_nil : Moves c [] c' ↔ c' = c := by
  constructor
  · intro h
    have hrest : c.rest = c'.rest := by simpa using h.rest
    have hoffset : c'.offset = c.offset := by simpa using h.offset
    cases c
    cases c'
    simp_all
  · rintro rfl
    exact ⟨rfl, rfl⟩

theorem moves_append {first second : Bytes} :
    Moves c (first ++ second) c' ↔
      ∃ between, Moves c first between ∧ Moves between second c' := by
  constructor
  · intro h
    refine ⟨⟨c.offset + first.length, second ++ c'.rest⟩, ⟨?_, rfl⟩, ⟨rfl, ?_⟩⟩
    · rw [h.rest, List.append_assoc]
    · rw [h.offset, List.length_append, Nat.add_assoc]
  · rintro ⟨between, h₁, h₂⟩
    constructor
    · rw [h₁.rest, h₂.rest, List.append_assoc]
    · rw [h₂.offset, h₁.offset, List.length_append, Nat.add_assoc]

theorem moves_start {bytes first : Bytes} :
    (∃ c', Moves (start bytes) first c') ↔ ∃ tail, bytes = first ++ tail := by
  constructor
  · rintro ⟨c', h⟩
    exact ⟨c'.rest, h.rest⟩
  · rintro ⟨tail, rfl⟩
    exact ⟨⟨first.length, tail⟩, rfl, by simp [start]⟩

theorem after?_eq_some_iff {count : Nat} {bytes rest : Bytes} :
    after? count bytes = some rest ↔ bytes.drop count = rest ∧ count ≤ bytes.length := by
  induction count generalizing bytes with
  | zero => simp [after?]
  | succ count ih =>
      cases bytes with
      | nil => simp [after?]
      | cons b bytes => simp [after?, ih]

theorem after?_of_lt {count : Nat} {bytes : Bytes} (h : bytes.length < count) :
    after? count bytes = none := by
  rw [Option.eq_none_iff_forall_ne_some]
  intro rest hrest
  have hle := (after?_eq_some_iff.mp hrest).2
  omega

theorem take_of_lt {count : Nat} (h : c.rest.length < count) :
    c.take count = .error (.truncated c.offset count) := by
  simp only [take, skip, after?_of_lt h]
  rfl

theorem skip_eq_map_take (c : Cursor) (count : Nat) : c.skip count = (c.take count).map Prod.snd := by
  rw [take]
  cases c.skip count <;> rfl

theorem take_eq_ok_iff {count : Nat} {bytes : Bytes} :
    c.take count = .ok (bytes, c') ↔ bytes.length = count ∧ Moves c bytes c' := by
  constructor
  · intro h
    obtain ⟨next, hskip, heq⟩ := map_eq_ok_iff.mp h
    obtain ⟨rfl, rfl⟩ := Prod.mk.inj heq
    unfold skip at hskip
    split at hskip
    · rename_i rest hrest
      obtain ⟨hdrop, hle⟩ := after?_eq_some_iff.mp hrest
      have hlength : (c.rest.take count).length = count := by
        rw [List.length_take]
        omega
      cases hskip
      refine ⟨hlength, ?_, ?_⟩
      · rw [← hdrop, List.take_append_drop]
      · rw [hlength]
    · cases hskip
  · rintro ⟨rfl, h⟩
    have hafter : after? bytes.length c.rest = some c'.rest := by
      rw [after?_eq_some_iff, h.rest]
      simp
    have hskip : c.skip bytes.length = .ok c' := by
      simp only [skip, hafter, ← h.offset]
    rw [take, hskip, h.rest]
    simp [Except.map]

theorem take_of_le {count : Nat} (h : count ≤ c.rest.length) :
    c.take count = .ok (c.rest.take count, ⟨c.offset + count, c.rest.drop count⟩) := by
  have hlength : (c.rest.take count).length = count := List.length_take_of_le h
  exact take_eq_ok_iff.mpr ⟨hlength, (List.take_append_drop count c.rest).symm, by rw [hlength]⟩

theorem skip_eq_ok_iff {count : Nat} :
    c.skip count = .ok c' ↔ ∃ bytes : Bytes, bytes.length = count ∧ Moves c bytes c' := by
  calc
    c.skip count = .ok c' ↔ ∃ bytes, c.take count = .ok (bytes, c') := by
      simp [take, map_eq_ok_iff]
    _ ↔ ∃ bytes : Bytes, bytes.length = count ∧ Moves c bytes c' := by
      simp only [take_eq_ok_iff]

theorem number_eq_ok_iff {count n : Nat} :
    c.number count = .ok (n, c') ↔ n < 256 ^ count ∧ Moves c (stored count n) c' := by
  constructor
  · intro h
    obtain ⟨⟨bytes, next⟩, htake, heq⟩ := map_eq_ok_iff.mp h
    obtain ⟨rfl, rfl⟩ := Prod.mk.inj heq
    obtain ⟨rfl, hmoves⟩ := take_eq_ok_iff.mp htake
    refine ⟨bigEndian_lt bytes, ?_⟩
    rw [stored_bigEndian]
    exact hmoves
  · rintro ⟨hn, hmoves⟩
    have htake : c.take count = .ok (stored count n, c') :=
      take_eq_ok_iff.mpr ⟨length_stored count n, hmoves⟩
    rw [number, htake]
    simp [Except.map, bigEndian_stored hn]

end Cursor
end ClassFile
end Freshness
