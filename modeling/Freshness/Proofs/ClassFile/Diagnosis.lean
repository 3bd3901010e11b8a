import Freshness.Proofs.ClassFile.Numbering

/-!
# What an error says about the bytes

Bytes that are refused as a class file are refused for a reason that holds of them.  While they are
read, the cursor stays within them, and what has been read of them so far is what an error that
comes later speaks of: the tag that was just read, the count that was announced, the pool.
-/

namespace Freshness
namespace ClassFile

open Cursor

/-- The tags that constants begin with. -/
def tags : List UInt8 := [1, 3, 4, 5, 6, 7, 8, 9, 10, 11, 12, 15, 16, 17, 18, 19, 20]

/-- The count of the constant pool, which comes after the magic number and the version. -/
def announced (bytes : Bytes) : Nat := bigEndian ((bytes.drop 8).take 2)

/-- The constant is of the kind that is expected. -/
def Expectation.IsMet : Expectation → Constant → Prop
  | utf8, constant => ∃ text, constant = .utf8 text
  | classEntry, constant => ∃ nameIndex, constant = .classEntry nameIndex

/-- What an error says is true of the bytes. -/
inductive Truthful (bytes : Bytes) : ReadError → Prop
  | badMagic (hlength : 4 ≤ bytes.length) (hmagic : bigEndian (bytes.take 4) ≠ magic) :
      Truthful bytes (.badMagic (bigEndian (bytes.take 4)))
  | truncated {offset needed : Nat} (hoffset : offset ≤ bytes.length)
      (hneeded : bytes.length < offset + needed) : Truthful bytes (.truncated offset needed)
  | unknownTag {tag : UInt8} {index offset : Nat} (htag : bytes[offset]? = some tag)
      (hunknown : tag ∉ tags) (hpos : 1 ≤ index) (hlength : 10 ≤ bytes.length)
      (hindex : index < announced bytes) : Truthful bytes (.unknownTag tag index offset)
  | badReference {index offset : Nat} {expected : Expectation} {pool : ConstantPool}
      {next : Cursor} (hoffset : offset < bytes.length)
      (hpool : ConstantPool.read ⟨8, bytes.drop 8⟩ = .ok (pool, next))
      (hkind : ∀ constant, pool.get? index = some constant → ¬expected.IsMet constant) :
      Truthful bytes (.badReference index expected offset)

/-- A reading that is refused says why, and of what is read otherwise `holds` is true. -/
inductive Faithful (bytes : Bytes) {α : Type} (holds : α → Prop) : Except ReadError α → Prop
  | error {e : ReadError} (h : Truthful bytes e) : Faithful bytes holds (.error e)
  | ok {a : α} (h : holds a) : Faithful bytes holds (.ok a)

namespace Faithful

variable {α β : Type} {bytes : Bytes} {holds : α → Prop} {holds' : β → Prop}
  {x : Except ReadError α}

theorem bind {f : α → Except ReadError β} (h : Faithful bytes holds x)
    (hnext : ∀ a, holds a → Faithful bytes holds' (f a)) : Faithful bytes holds' (x >>= f) := by
  cases h with
  | error h => exact .error h
  | ok h => exact hnext _ h

theorem map {f : α → β} (h : Faithful bytes holds x) (hnext : ∀ a, holds a → holds' (f a)) :
    Faithful bytes holds' (x.map f) := by
  cases h with
  | error h => exact .error h
  | ok h => exact .ok (hnext _ h)

/-- What is read is what the reading comes to. -/
theorem and_eq (h : Faithful bytes holds x) : Faithful bytes (fun a => x = .ok a ∧ holds a) x := by
  cases h with
  | error h => exact .error h
  | ok h => exact .ok ⟨rfl, h⟩

theorem mapM {f : α → Except ReadError β} {items : List α}
    (h : ∀ a ∈ items, Faithful bytes (fun _ => True) (f a)) :
    Faithful bytes (fun _ => True) (items.mapM f) := by
  induction items with
  | nil => exact .ok trivial
  | cons a items ih =>
      obtain ⟨hfirst, hrest⟩ := List.forall_mem_cons.mp h
      rw [List.mapM_cons]
      refine hfirst.bind ?_
      intro b _
      refine (ih hrest).bind ?_
      intro rest _
      exact .ok trivial

theorem truthful {e : ReadError} (h : Faithful bytes holds (.error e)) : Truthful bytes e := by
  cases h with
  | error h => exact h

end Faithful

/-! ## Within the bytes -/

/-- The cursor has come to a place in `bytes`, and the bytes from there on are still to be read. -/
structure Cursor.Within (bytes : Bytes) (c : Cursor) : Prop where
  offset_le : c.offset ≤ bytes.length
  rest : c.rest = bytes.drop c.offset

variable {bytes : Bytes} {c : Cursor}

theorem Cursor.within_start (bytes : Bytes) : Within bytes (start bytes) where
  offset_le := Nat.zero_le _
  rest := rfl

theorem Cursor.Within.eq (h : Within bytes c) : c = ⟨c.offset, bytes.drop c.offset⟩ := by
  rw [← h.rest]

theorem Cursor.Within.length_rest (h : Within bytes c) :
    c.offset + c.rest.length = bytes.length := by
  have hle := h.offset_le
  rw [h.rest, List.length_drop]
  omega

/-- Bytes are passed over only where they are. -/
theorem Cursor.Within.of_moves {c' : Cursor} {passed : Bytes} (h : Within bytes c)
    (hmoves : Moves c passed c') : Within bytes c' := by
  have hlength := h.length_rest
  rw [hmoves.rest, List.length_append] at hlength
  constructor
  · rw [hmoves.offset]
    omega
  · rw [hmoves.offset, ← List.drop_drop, ← h.rest, hmoves.rest, List.drop_left]

theorem faithful_take (h : Within bytes c) (count : Nat) :
    Faithful bytes (fun r => r.1 = (bytes.drop c.offset).take count ∧
      r.2.offset = c.offset + count ∧ Within bytes r.2) (c.take count) := by
  have hlength := h.length_rest
  by_cases hle : count ≤ c.rest.length
  · have htake := take_of_le hle
    obtain ⟨-, hmoves⟩ := take_eq_ok_iff.mp htake
    rw [htake, ← h.rest]
    exact .ok ⟨rfl, rfl, h.of_moves hmoves⟩
  · rw [take_of_lt (Nat.lt_of_not_le hle)]
    exact .error (.truncated h.offset_le (by omega))

theorem faithful_skip (h : Within bytes c) (count : Nat) :
    Faithful bytes (fun next => next.offset = c.offset + count ∧ Within bytes next)
      (c.skip count) := by
  rw [skip_eq_map_take]
  exact (faithful_take h count).map fun _ hafter => hafter.2

theorem faithful_number (h : Within bytes c) (width : Nat) :
    Faithful bytes (fun r => r.1 = bigEndian ((bytes.drop c.offset).take width) ∧
      r.2.offset = c.offset + width ∧ Within bytes r.2) (c.number width) :=
  (faithful_take h width).map fun _ hafter => ⟨congrArg bigEndian hafter.1, hafter.2⟩

theorem faithful_readTag (h : Within bytes c) :
    Faithful bytes (fun r => bytes[c.offset]? = some r.1 ∧ Within bytes r.2) (readTag c) := by
  cases htag : readTag c with
  | error e =>
      have herror : Faithful bytes (fun _ => True) (readTag c) :=
        (faithful_number h 1).map fun _ _ => trivial
      rw [htag] at herror
      exact .error herror.truthful
  | ok r =>
      obtain ⟨tag, next⟩ := r
      have hmoves := readTag_eq_ok_iff.mp htag
      refine .ok ⟨?_, h.of_moves hmoves⟩
      rw [← Nat.add_zero c.offset, ← List.getElem?_drop, ← h.rest, hmoves.rest]
      rfl

/-! ## The constants -/

theorem not_mem_tags {tag : UInt8} (hplain : plainSize? tag = none) (hutf8 : tag ≠ 1)
    (hclass : tag ≠ 7) (hname : tag ≠ 12) (hmethod : tag ≠ 16) : tag ∉ tags := by
  intro hmem
  simp only [tags, List.mem_cons, List.not_mem_nil, or_false] at hmem
  rcases hmem with rfl | rfl | rfl | rfl | rfl | rfl | rfl | rfl | rfl | rfl | rfl | rfl | rfl |
    rfl | rfl | rfl | rfl <;> simp_all [plainSize?]

section Constants

variable {tag : UInt8} {index offset : Nat}

/-- A constant is refused for its tag only if no constant begins with this tag. -/
theorem faithful_readConstant (h : Within bytes c) (htag : bytes[offset]? = some tag)
    (hpos : 1 ≤ index) (hlength : 10 ≤ bytes.length) (hindex : index < announced bytes) :
    Faithful bytes (fun r => Within bytes r.2) (readConstant tag index offset c) := by
  unfold readConstant
  split
  · refine (faithful_number h 2).bind ?_
    rintro ⟨length, c₁⟩ ⟨-, -, h₁⟩
    refine (faithful_take h₁ length).bind ?_
    rintro ⟨text, c₂⟩ ⟨-, -, h₂⟩
    exact .ok h₂
  · refine (faithful_number h 2).bind ?_
    rintro ⟨nameIndex, c₁⟩ ⟨-, -, h₁⟩
    exact .ok h₁
  · refine (faithful_number h 2).bind ?_
    rintro ⟨nameIndex, c₁⟩ ⟨-, -, h₁⟩
    refine (faithful_number h₁ 2).bind ?_
    rintro ⟨descriptorIndex, c₂⟩ ⟨-, -, h₂⟩
    exact .ok h₂
  · refine (faithful_number h 2).bind ?_
    rintro ⟨descriptorIndex, c₁⟩ ⟨-, -, h₁⟩
    exact .ok h₁
  next hutf8 hclass hname hmethod =>
    split
    next size hsize =>
      refine (faithful_skip h size).bind ?_
      rintro c₁ ⟨-, h₁⟩
      exact .ok h₁
    next hplain =>
      have hunknown := not_mem_tags hplain hutf8 hclass hname hmethod
      exact .error (.unknownTag htag hunknown hpos hlength hindex)

/-- The entries that stand for something have places in the bytes. -/
def Placed (bytes : Bytes) (entries : List PoolEntry) : Prop :=
  ∀ entry ∈ entries, entry.constant ≠ .unusable → entry.offset < bytes.length

theorem placed_entriesFor (htag : bytes[offset]? = some tag) (constant : Constant) :
    Placed bytes (entriesFor tag constant offset) := by
  obtain ⟨hlt, -⟩ := List.getElem?_eq_some_iff.mp htag
  intro entry hentry husable
  rcases List.mem_cons.mp hentry with rfl | hsecond
  · exact hlt
  · split at hsecond
    · obtain rfl := List.mem_singleton.mp hsecond
      exact absurd rfl husable
    · cases hsecond

theorem faithful_readEntries (h : Within bytes c) (hpos : 1 ≤ index)
    (hlength : 10 ≤ bytes.length) {entries : Array PoolEntry}
    (hplaced : Placed bytes entries.toList) :
    Faithful bytes (fun r => Placed bytes r.1.toList ∧ Within bytes r.2)
      (readEntries (announced bytes) index c entries) := by
  induction hleft : announced bytes - index using Nat.strong_induction_on
    generalizing index c entries with
  | h left ih =>
      by_cases hlt : index < announced bytes
      · rw [readEntries_of_lt hlt]
        refine (faithful_readTag h).bind ?_
        rintro ⟨tag, c₁⟩ ⟨htag, h₁⟩
        refine (faithful_readConstant h₁ htag hpos hlength hlt).bind ?_
        rintro ⟨constant, c₂⟩ h₂
        have hslots := slots_pos tag
        refine ih _ ?_ h₂ (by omega) ?_ rfl
        · dsimp only
          omega
        · rw [Array.toList_appendList]
          exact List.forall_mem_append.mpr ⟨hplaced, placed_entriesFor htag constant⟩
      · rw [readEntries_of_le (by omega)]
        exact .ok ⟨hplaced, h⟩

theorem faithful_readPool (h : Within bytes c) (hoffset : c.offset = 8) :
    Faithful bytes (fun r => Placed bytes r.1.entries.toList ∧ Within bytes r.2)
      (ConstantPool.read c) := by
  refine (faithful_number h 2).bind ?_
  rintro ⟨count, c₁⟩ ⟨hcount, hoffset₁, h₁⟩
  dsimp only at hcount hoffset₁
  rw [hoffset] at hcount hoffset₁
  have hlength : 10 ≤ bytes.length := by
    have hle := h₁.offset_le
    dsimp only at hle
    omega
  have hfirst : Placed bytes #[⟨.unusable, c₁.offset⟩].toList := by
    intro entry hentry husable
    obtain rfl := List.mem_singleton.mp hentry
    exact absurd rfl husable
  have hentries := faithful_readEntries h₁ (Nat.le_refl 1) hlength hfirst
  rw [announced, ← hcount] at hentries
  refine hentries.bind ?_
  rintro ⟨entries, c₂⟩ ⟨hplaced, h₂⟩
  exact .ok ⟨hplaced, h₂⟩

end Constants

/-! ## References to constants -/

section Pool

variable {pool : ConstantPool} {next : Cursor} {offset : Nat}

theorem faithful_utf8 (hpool : ConstantPool.read ⟨8, bytes.drop 8⟩ = .ok (pool, next))
    (hoffset : offset < bytes.length) (index : Nat) :
    Faithful bytes (fun _ => True) (pool.utf8 index offset) := by
  unfold ConstantPool.utf8
  split
  · exact .ok trivial
  next hkind =>
    refine .error (.badReference hoffset hpool ?_)
    rintro _ hconstant ⟨text, rfl⟩
    exact hkind text hconstant

theorem faithful_className (hpool : ConstantPool.read ⟨8, bytes.drop 8⟩ = .ok (pool, next))
    (hoffset : offset < bytes.length) (index : Nat) :
    Faithful bytes (fun _ => True) (pool.className index offset) := by
  unfold ConstantPool.className
  split
  next nameIndex hname => exact faithful_utf8 hpool hoffset nameIndex
  next hkind =>
    refine .error (.badReference hoffset hpool ?_)
    rintro _ hconstant ⟨nameIndex, rfl⟩
    exact hkind nameIndex hconstant

theorem faithful_constantTypes (hpool : ConstantPool.read ⟨8, bytes.drop 8⟩ = .ok (pool, next))
    {entry : PoolEntry} (hentry : entry.offset < bytes.length) :
    Faithful bytes (fun _ => True) (constantTypes pool entry) := by
  obtain ⟨constant, offset⟩ := entry
  have htext := faithful_utf8 hpool hentry
  cases constant with
  | classEntry nameIndex => exact (htext nameIndex).map fun _ _ => trivial
  | nameAndType nameIndex descriptorIndex => exact (htext descriptorIndex).map fun _ _ => trivial
  | methodType descriptorIndex => exact (htext descriptorIndex).map fun _ _ => trivial
  | utf8 text => exact .ok trivial
  | other => exact .ok trivial
  | unusable => exact .ok trivial

theorem faithful_poolTypes (hpool : ConstantPool.read ⟨8, bytes.drop 8⟩ = .ok (pool, next))
    (hplaced : Placed bytes pool.entries.toList) :
    Faithful bytes (fun _ => True) (poolTypes pool) := by
  refine (Faithful.mapM ?_).map fun _ _ => trivial
  rintro ⟨number, entry⟩ hmem
  obtain ⟨hentry, husable⟩ := pool.mem_usable_iff.mp hmem
  have hentry : entry ∈ pool.entries.toList :=
    Array.mem_def.mp (Array.mem_of_getElem? hentry)
  exact faithful_constantTypes hpool (hplaced entry hentry husable)

/-! ## Fields and methods -/

theorem faithful_skipAttributes (h : Within bytes c) (count : Nat) :
    Faithful bytes (Within bytes) (skipAttributes count c) := by
  induction count generalizing c with
  | zero => exact .ok h
  | succ count ih =>
      refine (faithful_skip h 2).bind ?_
      rintro c₁ ⟨-, h₁⟩
      refine (faithful_number h₁ 4).bind ?_
      rintro ⟨length, c₂⟩ ⟨-, -, h₂⟩
      refine (faithful_skip h₂ length).bind ?_
      rintro c₃ ⟨-, h₃⟩
      exact ih h₃

/-- The place of a reference that was read lies before the end of the bytes. -/
theorem Cursor.Within.lt_of_offset {c' : Cursor} (h : Within bytes c')
    (hoffset : c'.offset = c.offset + 2) : c.offset < bytes.length := by
  have hle := h.offset_le
  omega

theorem faithful_memberTypes (hpool : ConstantPool.read ⟨8, bytes.drop 8⟩ = .ok (pool, next))
    (h : Within bytes c) (count : Nat) (found : List String) :
    Faithful bytes (fun r => Within bytes r.2) (memberTypes pool count c found) := by
  induction count generalizing c found with
  | zero => exact .ok h
  | succ count ih =>
      refine (faithful_skip h 4).bind ?_
      rintro c₁ ⟨-, h₁⟩
      refine (faithful_number h₁ 2).bind ?_
      rintro ⟨descriptorIndex, c₂⟩ ⟨-, hoffset₂, h₂⟩
      refine (faithful_utf8 hpool (h₂.lt_of_offset hoffset₂) descriptorIndex).bind ?_
      rintro descriptor -
      refine (faithful_number h₂ 2).bind ?_
      rintro ⟨attributes, c₃⟩ ⟨-, -, h₃⟩
      refine (faithful_skipAttributes h₃ attributes).bind ?_
      rintro c₄ h₄
      exact ih h₄ _

theorem faithful_membersTypes (hpool : ConstantPool.read ⟨8, bytes.drop 8⟩ = .ok (pool, next))
    (h : Within bytes c) :
    Faithful bytes (fun r => Within bytes r.2) (membersTypes pool c) := by
  refine (faithful_number h 2).bind ?_
  rintro ⟨count, c₁⟩ ⟨-, -, h₁⟩
  refine (faithful_memberTypes hpool h₁ count []).bind ?_
  rintro ⟨found, c₂⟩ h₂
  exact .ok h₂

end Pool

/-! ## Whole class files -/

theorem faithful_references (bytes : Bytes) :
    Faithful bytes (fun _ => True) (references bytes) := by
  refine (faithful_number (within_start bytes) 4).bind ?_
  rintro ⟨found, c₀⟩ ⟨hfound, hoffset₀, h₀⟩
  dsimp only [start] at hfound hoffset₀ h₀ ⊢
  have hlength : 4 ≤ bytes.length := by
    have hle := h₀.offset_le
    omega
  by_cases hmagic : found ≠ magic
  · rw [if_pos hmagic, hfound]
    exact .error (.badMagic hlength (hfound ▸ hmagic))
  rw [if_neg hmagic]
  refine (faithful_skip h₀ 4).bind ?_
  rintro c₁ ⟨hoffset₁, h₁⟩
  have hplace : c₁.offset = 8 := by omega
  refine (faithful_readPool h₁ hplace).and_eq.bind ?_
  rintro ⟨pool, c₂⟩ ⟨hpool, hplaced, h₂⟩
  rw [h₁.eq, hplace] at hpool
  refine (faithful_skip h₂ 2).bind ?_
  rintro c₃ ⟨-, h₃⟩
  refine (faithful_number h₃ 2).bind ?_
  rintro ⟨thisClass, c₄⟩ ⟨-, hoffset₄, h₄⟩
  refine (faithful_className hpool (h₄.lt_of_offset hoffset₄) thisClass).bind ?_
  rintro own -
  refine (faithful_skip h₄ 2).bind ?_
  rintro c₅ ⟨-, h₅⟩
  refine (faithful_number h₅ 2).bind ?_
  rintro ⟨interfaces, c₆⟩ ⟨-, -, h₆⟩
  refine (faithful_skip h₆ (interfaces * 2)).bind ?_
  rintro c₇ ⟨-, h₇⟩
  refine (faithful_poolTypes hpool hplaced).bind ?_
  rintro inPool -
  refine (faithful_membersTypes hpool h₇).bind ?_
  rintro ⟨inFields, c₈⟩ h₈
  refine (faithful_membersTypes hpool h₈).bind ?_
  rintro ⟨inMethods, c₉⟩ -
  exact .ok trivial

end ClassFile
end Freshness
