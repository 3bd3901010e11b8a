import Mathlib.Data.Nat.Find
import Freshness.Proofs.ClassFile.References

/-!
# Class files that are cut off

Bytes are read from the beginning on, and what a reading comes to does not depend on bytes that it
has not come to.  So a reading of the beginning of some bytes either asks for more than there is, or
comes to what the reading of all of them comes to, be it names or an error.
-/

namespace Freshness
namespace ClassFile

open Cursor

/-- What `x` comes to stands when more bytes follow: `y` comes to the same.  Only that there are too
few bytes, with `size` of them, need not stand. -/
inductive Stands {α β : Type} (size : Nat) (same : α → β → Prop) :
    Except ReadError α → Except ReadError β → Prop
  | lacking {offset needed : Nat} {y : Except ReadError β} (hoffset : offset ≤ size)
      (hneeded : size < offset + needed) : Stands size same (.error (.truncated offset needed)) y
  | failed (e : ReadError) : Stands size same (.error e) (.error e)
  | ok {a : α} {b : β} (h : same a b) : Stands size same (.ok a) (.ok b)

namespace Stands

variable {α β γ δ : Type} {size : Nat} {same : α → β → Prop} {same' : γ → δ → Prop}
  {x : Except ReadError α} {y : Except ReadError β}

theorem refl (x : Except ReadError α) : Stands size Eq x x := by
  cases x with
  | error e => exact .failed e
  | ok a => exact .ok rfl

theorem bind {f : α → Except ReadError γ} {g : β → Except ReadError δ} (h : Stands size same x y)
    (hnext : ∀ a b, same a b → Stands size same' (f a) (g b)) :
    Stands size same' (x >>= f) (y >>= g) := by
  cases h with
  | lacking hoffset hneeded => exact .lacking hoffset hneeded
  | failed e => exact .failed e
  | ok h => exact hnext _ _ h

theorem map {f : α → γ} {g : β → δ} (h : Stands size same x y)
    (hnext : ∀ a b, same a b → same' (f a) (g b)) :
    Stands size same' (x.map f) (y.map g) := by
  cases h with
  | lacking hoffset hneeded => exact .lacking hoffset hneeded
  | failed e => exact .failed e
  | ok h => exact .ok (hnext _ _ h)

/-- Two readings that come to equal results, of which the first does not lack bytes. -/
theorem eq_of_ok {a : α} {z : Except ReadError α} (h : Stands size Eq (.ok a) z) : z = .ok a := by
  cases h with
  | ok h => rw [h]

end Stands

/-- The cursors are at one place, and behind it `tail` follows only for the second one. -/
structure Cursor.Longer (size : Nat) (tail : Bytes) (c c' : Cursor) : Prop where
  size : c.offset + c.rest.length = size
  eq : c' = ⟨c.offset, c.rest ++ tail⟩

/-- What has been read is the same, and the cursors are at one place. -/
def Cursor.LongerAfter {α : Type} (size : Nat) (tail : Bytes) (r r' : α × Cursor) : Prop :=
  r.1 = r'.1 ∧ Longer size tail r.2 r'.2

variable {size : Nat} {tail : Bytes} {c c' : Cursor}

theorem stands_take (h : Longer size tail c c') (count : Nat) :
    Stands size (LongerAfter size tail) (c.take count) (c'.take count) := by
  obtain ⟨rfl, rfl⟩ := h
  by_cases hle : count ≤ c.rest.length
  · have hle' : count ≤ (c.rest ++ tail).length := by
      rw [List.length_append]
      omega
    rw [take_of_le hle, take_of_le hle', List.take_append_of_le_length hle,
      List.drop_append_of_le_length hle]
    refine .ok ⟨rfl, ?_, rfl⟩
    simp only [List.length_drop]
    omega
  · rw [take_of_lt (Nat.lt_of_not_le hle)]
    exact .lacking (by omega) (by omega)

theorem stands_skip (h : Longer size tail c c') (count : Nat) :
    Stands size (Longer size tail) (c.skip count) (c'.skip count) := by
  rw [skip_eq_map_take, skip_eq_map_take]
  exact (stands_take h count).map fun _ _ hafter => hafter.2

theorem stands_number (h : Longer size tail c c') (width : Nat) :
    Stands size (LongerAfter size tail) (c.number width) (c'.number width) :=
  (stands_take h width).map fun _ _ hafter => ⟨congrArg bigEndian hafter.1, hafter.2⟩

theorem stands_readTag (h : Longer size tail c c') :
    Stands size (LongerAfter size tail) (readTag c) (readTag c') :=
  (stands_number h 1).map fun _ _ hafter => ⟨congrArg UInt8.ofNat hafter.1, hafter.2⟩

/-! ## The constants -/

theorem stands_readConstant (h : Longer size tail c c') (tag : UInt8) (index offset : Nat) :
    Stands size (LongerAfter size tail) (readConstant tag index offset c)
      (readConstant tag index offset c') := by
  unfold readConstant
  split
  · refine (stands_number h 2).bind ?_
    rintro ⟨length, c₁⟩ ⟨_, c₁'⟩ ⟨rfl, h₁⟩
    refine (stands_take h₁ length).bind ?_
    rintro ⟨bytes, c₂⟩ ⟨_, c₂'⟩ ⟨rfl, h₂⟩
    exact .ok ⟨rfl, h₂⟩
  · refine (stands_number h 2).bind ?_
    rintro ⟨nameIndex, c₁⟩ ⟨_, c₁'⟩ ⟨rfl, h₁⟩
    exact .ok ⟨rfl, h₁⟩
  · refine (stands_number h 2).bind ?_
    rintro ⟨nameIndex, c₁⟩ ⟨_, c₁'⟩ ⟨rfl, h₁⟩
    refine (stands_number h₁ 2).bind ?_
    rintro ⟨descriptorIndex, c₂⟩ ⟨_, c₂'⟩ ⟨rfl, h₂⟩
    exact .ok ⟨rfl, h₂⟩
  · refine (stands_number h 2).bind ?_
    rintro ⟨descriptorIndex, c₁⟩ ⟨_, c₁'⟩ ⟨rfl, h₁⟩
    exact .ok ⟨rfl, h₁⟩
  · split
    next size hsize =>
      refine (stands_skip h size).bind ?_
      intro c₁ c₁' h₁
      exact .ok ⟨rfl, h₁⟩
    next => exact .failed _

theorem readEntries_of_lt {count index : Nat} (hlt : index < count) (c : Cursor)
    (entries : Array PoolEntry) :
    readEntries count index c entries =
      readTag c >>= fun tag => readConstant tag.1 index c.offset tag.2 >>= fun constant =>
        readEntries count (index + slots tag.1) constant.2
          (entries ++ entriesFor tag.1 constant.1 c.offset) := by
  rw [readEntries, if_pos hlt]
  cases readTag c with
  | error e => rfl
  | ok tag =>
      obtain ⟨tag, next⟩ := tag
      dsimp only [bind, Except.bind]
      cases readConstant tag index c.offset next <;> rfl

theorem slots_pos (tag : UInt8) : 0 < slots tag := by
  unfold slots
  split <;> omega

theorem stands_readEntries (h : Longer size tail c c') (count index : Nat)
    (entries : Array PoolEntry) :
    Stands size (LongerAfter size tail) (readEntries count index c entries)
      (readEntries count index c' entries) := by
  induction hleft : count - index using Nat.strong_induction_on generalizing index c c' entries with
  | h left ih =>
      by_cases hlt : index < count
      · obtain ⟨hsize, rfl⟩ := h
        rw [readEntries_of_lt hlt, readEntries_of_lt hlt]
        refine (stands_readTag ⟨hsize, rfl⟩).bind ?_
        rintro ⟨tag, c₁⟩ ⟨_, c₁'⟩ ⟨rfl, h₁⟩
        refine (stands_readConstant h₁ tag index c.offset).bind ?_
        rintro ⟨constant, c₂⟩ ⟨_, c₂'⟩ ⟨rfl, h₂⟩
        have hslots := slots_pos tag
        exact ih (count - (index + slots tag)) (by omega) h₂ _ _ rfl
      · rw [readEntries, readEntries, if_neg hlt, if_neg hlt]
        exact .ok ⟨rfl, h⟩

/-- The constant pool is read up to the same entries. -/
theorem stands_readPool (h : Longer size tail c c') :
    Stands size (LongerAfter size tail) (ConstantPool.read c) (ConstantPool.read c') := by
  obtain ⟨hsize, rfl⟩ := h
  refine (stands_number ⟨hsize, rfl⟩ 2).bind ?_
  rintro ⟨count, c₁⟩ ⟨_, c₁'⟩ ⟨rfl, hsize₁, rfl⟩
  refine (stands_readEntries ⟨hsize₁, rfl⟩ count 1 _).bind ?_
  rintro ⟨entries, c₂⟩ ⟨_, c₂'⟩ ⟨rfl, h₂⟩
  exact .ok ⟨rfl, h₂⟩

/-! ## Fields and methods -/

theorem stands_skipAttributes (h : Longer size tail c c') (count : Nat) :
    Stands size (Longer size tail) (skipAttributes count c) (skipAttributes count c') := by
  induction count generalizing c c' with
  | zero => exact .ok h
  | succ count ih =>
      refine (stands_skip h 2).bind ?_
      intro c₁ c₁' h₁
      refine (stands_number h₁ 4).bind ?_
      rintro ⟨length, c₂⟩ ⟨_, c₂'⟩ ⟨rfl, h₂⟩
      refine (stands_skip h₂ length).bind ?_
      intro c₃ c₃' h₃
      exact ih h₃

theorem stands_memberTypes (h : Longer size tail c c') (pool : ConstantPool) (count : Nat)
    (found : List String) :
    Stands size (LongerAfter size tail) (memberTypes pool count c found)
      (memberTypes pool count c' found) := by
  induction count generalizing c c' found with
  | zero => exact .ok ⟨rfl, h⟩
  | succ count ih =>
      refine (stands_skip h 4).bind ?_
      rintro c₁ _ ⟨hsize₁, rfl⟩
      refine (stands_number ⟨hsize₁, rfl⟩ 2).bind ?_
      rintro ⟨descriptorIndex, c₂⟩ ⟨_, c₂'⟩ ⟨rfl, h₂⟩
      refine (Stands.refl (pool.utf8 descriptorIndex c₁.offset)).bind ?_
      rintro descriptor _ rfl
      refine (stands_number h₂ 2).bind ?_
      rintro ⟨attributes, c₃⟩ ⟨_, c₃'⟩ ⟨rfl, h₃⟩
      refine (stands_skipAttributes h₃ attributes).bind ?_
      intro c₄ c₄' h₄
      exact ih h₄ _

theorem stands_membersTypes (h : Longer size tail c c') (pool : ConstantPool) :
    Stands size (LongerAfter size tail) (membersTypes pool c) (membersTypes pool c') := by
  refine (stands_number h 2).bind ?_
  rintro ⟨count, c₁⟩ ⟨_, c₁'⟩ ⟨rfl, h₁⟩
  refine (stands_memberTypes h₁ pool count []).bind ?_
  rintro ⟨found, c₂⟩ ⟨_, c₂'⟩ ⟨rfl, h₂⟩
  exact .ok ⟨rfl, h₂⟩

/-! ## Whole class files -/

/-- What the beginning of some bytes comes to, the whole comes to, unless the beginning lacks
bytes. -/
theorem stands_references (bytes tail : Bytes) :
    Stands bytes.length Eq (references bytes) (references (bytes ++ tail)) := by
  have hstart : Longer bytes.length tail (start bytes) (start (bytes ++ tail)) :=
    ⟨Nat.zero_add _, rfl⟩
  refine (stands_number hstart 4).bind ?_
  rintro ⟨found, c₀⟩ ⟨_, c₀'⟩ ⟨rfl, h₀⟩
  dsimp only
  by_cases hmagic : found ≠ magic
  · rw [if_pos hmagic, if_pos hmagic]
    exact .failed _
  rw [if_neg hmagic, if_neg hmagic]
  refine (stands_skip h₀ 4).bind ?_
  intro c₁ c₁' h₁
  refine (stands_readPool h₁).bind ?_
  rintro ⟨pool, c₂⟩ ⟨_, c₂'⟩ ⟨rfl, h₂⟩
  refine (stands_skip h₂ 2).bind ?_
  rintro c₃ _ ⟨hsize₃, rfl⟩
  refine (stands_number ⟨hsize₃, rfl⟩ 2).bind ?_
  rintro ⟨thisClass, c₄⟩ ⟨_, c₄'⟩ ⟨rfl, h₄⟩
  refine (Stands.refl (pool.className thisClass c₃.offset)).bind ?_
  rintro own _ rfl
  refine (stands_skip h₄ 2).bind ?_
  intro c₅ c₅' h₅
  refine (stands_number h₅ 2).bind ?_
  rintro ⟨interfaces, c₆⟩ ⟨_, c₆'⟩ ⟨rfl, h₆⟩
  refine (stands_skip h₆ (interfaces * 2)).bind ?_
  intro c₇ c₇' h₇
  refine (Stands.refl (poolTypes pool)).bind ?_
  rintro inPool _ rfl
  refine (stands_membersTypes h₇ pool).bind ?_
  rintro ⟨inFields, c₈⟩ ⟨_, c₈'⟩ ⟨rfl, h₈⟩
  refine (stands_membersTypes h₈ pool).bind ?_
  rintro ⟨inMethods, c₉⟩ ⟨_, c₉'⟩ ⟨rfl, h₉⟩
  exact .refl _

/-- Of a class file there is a beginning that no byte can be taken from: anything shorter lacks
bytes where the reading has come to, and whatever follows is left unread. -/
theorem references_truncated {bytes : Bytes} {symbols : List String}
    (h : references bytes = .ok symbols) :
    ∃ n ≤ bytes.length,
      (∀ k < n, ∃ offset needed,
        references (bytes.take k) = .error (.truncated offset needed) ∧
          offset ≤ k ∧ k < offset + needed) ∧
      ∀ other, bytes.take n <+: other → references other = .ok symbols := by
  classical
  have hsome : ∃ n, references (bytes.take n) = .ok symbols :=
    ⟨bytes.length, by rw [List.take_length]; exact h⟩
  have hle : Nat.find hsome ≤ bytes.length := Nat.find_le (by rw [List.take_length]; exact h)
  refine ⟨Nat.find hsome, hle, ?_, ?_⟩
  · intro k hk
    have hstands := stands_references (bytes.take k) (bytes.drop k)
    rw [List.take_append_drop, List.length_take_of_le (by omega), h] at hstands
    cases hresult : references (bytes.take k) with
    | error e =>
        rw [hresult] at hstands
        cases hstands with
        | lacking hoffset hneeded => exact ⟨_, _, rfl, hoffset, hneeded⟩
    | ok earlier =>
        rw [hresult] at hstands
        cases hstands.eq_of_ok
        exact absurd hresult (Nat.find_min hsome hk)
  · rintro other ⟨tail, rfl⟩
    have hstands := stands_references (bytes.take (Nat.find hsome)) tail
    rw [Nat.find_spec hsome] at hstands
    exact hstands.eq_of_ok

theorem references_truncated_referring :
    references (referring ⟨[0x42], by decide⟩).encode = .ok ["B"] ∧
      ∃ n ≤ (referring ⟨[0x42], by decide⟩).encode.length,
        (∀ k < n, ∃ offset needed,
          references ((referring ⟨[0x42], by decide⟩).encode.take k) =
              .error (.truncated offset needed) ∧
            offset ≤ k ∧ k < offset + needed) ∧
        ∀ other, (referring ⟨[0x42], by decide⟩).encode.take n <+: other →
          references other = .ok ["B"] := by
  have hname : classEntryType? (Utf8.decodeLossy [0x42]) = some "B" := by decide
  have h : references (referring ⟨[0x42], by decide⟩).encode = .ok ["B"] :=
    references_referring ⟨[0x42], by decide⟩ hname (by decide)
  exact ⟨h, references_truncated h⟩

end ClassFile
end Freshness
