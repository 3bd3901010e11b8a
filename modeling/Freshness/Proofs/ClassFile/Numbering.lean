import Freshness.Proofs.ClassFile.Truncation

/-!
# The numbers of constants

Constants are numbered in the order in which they are stored, and a wide one takes a second number.
So a constant has the number that the constants before it leave to it, and it stands in the pool at
this number with the place where its tag was read.  All numbers fit in sixteen bits, and so does the
counter of the loop that gives them out, although the last wide constant may take a number more than
was announced.
-/

namespace Freshness
namespace ClassFile

open Cursor

/-- The number of the constant that comes after `before`. -/
def numberAfter (before : List Item) : Nat := 1 + (before.map Item.slots).sum

/-- Where the constant that comes after `before` begins, if the first one begins at `offset`. -/
def placeAfter (offset : Nat) (before : List Item) : Nat :=
  offset + (before.flatMap Item.encode).length

theorem Item.slots_pos (item : Item) : 0 < item.slots := by
  rw [← item.slots_tag]
  exact ClassFile.slots_pos item.tag

theorem Item.slots_le_two (item : Item) : item.slots ≤ 2 := by
  rw [← item.slots_tag, ClassFile.slots]
  split <;> omega

theorem numberAfter_append (before after : List Item) :
    numberAfter (before ++ after) = numberAfter before + (after.map Item.slots).sum := by
  simp [numberAfter, Nat.add_assoc]

/-! ## How far the numbers go -/

theorem Fills.lt_count {count number : Nat} {items : List Item} (h : Fills count number items) :
    ∀ {before item after}, items = before ++ item :: after →
      number + (before.map Item.slots).sum < count := by
  induction h with
  | done hle =>
      intro before item after heq
      simp at heq
  | @more number first rest hlt hrest ih =>
      intro before item after heq
      cases before with
      | nil => simpa using hlt
      | cons other before =>
          obtain ⟨rfl, hrest⟩ := List.cons.inj heq
          have hnumber := ih hrest
          simp only [List.map_cons, List.sum_cons]
          omega

theorem Fills.count_le {count number : Nat} {items : List Item} (h : Fills count number items) :
    count ≤ number + (items.map Item.slots).sum := by
  induction h with
  | done hle => simpa using hle
  | more hlt hrest ih =>
      simp only [List.map_cons, List.sum_cons]
      omega

/-- The constants end where it was announced, unless the last one is wide and takes a number
more. -/
theorem Fills.ends {count : Nat} {items : List Item} (h : Fills count 1 items) :
    numberAfter items = max 1 count ∨
      numberAfter items = count + 1 ∧ ∃ before item, items = before ++ [item] ∧ item.slots = 2 := by
  have hle := h.count_le
  rcases List.eq_nil_or_concat' items with rfl | ⟨before, item, rfl⟩
  · left
    simp only [numberAfter, List.map_nil, List.sum_nil] at hle ⊢
    omega
  · have hlt : 1 + (before.map Item.slots).sum < count := h.lt_count rfl
    have hnumber := numberAfter_append before [item]
    have hslots := item.slots_pos
    have hslots' := item.slots_le_two
    simp only [List.map_append, List.sum_append, List.map_cons, List.map_nil, List.sum_cons,
      List.sum_nil] at hle hlt hnumber
    have hbefore : numberAfter before = 1 + (before.map Item.slots).sum := rfl
    by_cases hexact : numberAfter (before ++ [item]) = max 1 count
    · exact Or.inl hexact
    · exact Or.inr ⟨by omega, before, item, rfl, by omega⟩

/-! ## What stands at the numbers -/

theorem placeAfter_cons (offset : Nat) (item : Item) (before : List Item) :
    placeAfter offset (item :: before) = placeAfter (offset + item.encode.length) before := by
  simp [placeAfter, Nat.add_assoc]

theorem Item.length_entries (offset : Nat) (item : Item) :
    (item.entries offset).length = item.slots := by
  rw [← item.slots_tag, entries, entriesFor, ClassFile.slots]
  split <;> simp_all

theorem Item.constant_ne_unusable (item : Item) : item.constant ≠ .unusable := by
  cases item <;> simp [constant]

theorem entriesFrom_append (offset : Nat) (before after : List Item) :
    entriesFrom offset (before ++ after) =
      entriesFrom offset before ++ entriesFrom (placeAfter offset before) after := by
  induction before generalizing offset with
  | nil => rfl
  | cons item before ih =>
      rw [List.cons_append, entriesFrom, entriesFrom, ih, placeAfter_cons, List.append_assoc]

theorem length_entriesFrom (offset : Nat) (items : List Item) :
    (entriesFrom offset items).length = (items.map Item.slots).sum := by
  induction items generalizing offset with
  | nil => rfl
  | cons item rest ih =>
      rw [entriesFrom, List.length_append, item.length_entries, ih, List.map_cons, List.sum_cons]

section Pool

variable {offset : Nat} {items before after : List Item} {item : Item}

theorem getElem?_poolFrom (k : Nat) :
    (poolFrom offset items).entries[k + 1]? = (entriesFrom offset items)[k]? := by
  simp [poolFrom, ← Array.getElem?_toList]

/-- The numbers that a constant takes hold the entries of this constant. -/
theorem getElem?_poolFrom_numberAfter {j : Nat} (hj : j < item.slots) :
    (poolFrom offset (before ++ item :: after)).entries[numberAfter before + j]? =
      (item.entries (placeAfter offset before))[j]? := by
  have hnumber : numberAfter before + j = (before.map Item.slots).sum + j + 1 := by
    rw [numberAfter]
    omega
  have hleft : (entriesFrom offset before).length ≤ (before.map Item.slots).sum + j := by
    rw [length_entriesFrom]
    omega
  have hright : j < (item.entries (placeAfter offset before)).length := by
    rwa [item.length_entries]
  rw [hnumber, getElem?_poolFrom, entriesFrom_append, List.getElem?_append_right hleft,
    length_entriesFrom, Nat.add_sub_cancel_left, entriesFrom, List.getElem?_append_left hright]

theorem getElem?_poolFrom_constant :
    (poolFrom offset (before ++ item :: after)).entries[numberAfter before]? =
      some ⟨item.constant, placeAfter offset before⟩ := by
  have hentry : (poolFrom offset (before ++ item :: after)).entries[numberAfter before + 0]? =
      (item.entries (placeAfter offset before))[0]? :=
    getElem?_poolFrom_numberAfter item.slots_pos
  simpa [Item.entries, entriesFor] using hentry

theorem getElem?_poolFrom_second (hslots : item.slots = 2) :
    (poolFrom offset (before ++ item :: after)).entries[numberAfter before + 1]? =
      some ⟨.unusable, placeAfter offset before⟩ := by
  have hwide : isWideTag item.tag = true := by
    by_contra hnarrow
    rw [← item.slots_tag, slots, if_neg hnarrow] at hslots
    cases hslots
  have hj : 1 < item.slots := by omega
  rw [getElem?_poolFrom_numberAfter hj]
  simp [Item.entries, entriesFor, hwide]

/-- Only constants have entries that stand for something. -/
theorem exists_of_mem_entriesFrom {k : Nat} {entry : PoolEntry}
    (hentry : (entriesFrom offset items)[k]? = some entry) (husable : entry.constant ≠ .unusable) :
    ∃ before item after, items = before ++ item :: after ∧ k = (before.map Item.slots).sum ∧
      entry = ⟨item.constant, placeAfter offset before⟩ := by
  induction items generalizing offset k with
  | nil => simp [entriesFrom] at hentry
  | cons first rest ih =>
      rw [entriesFrom] at hentry
      by_cases hk : k < first.slots
      · rw [List.getElem?_append_left (by rwa [first.length_entries])] at hentry
        have hmem : entry ∈ first.entries offset := List.mem_of_getElem? hentry
        have hzero : k = 0 := by
          by_contra hne
          obtain ⟨j, rfl⟩ := Nat.exists_eq_succ_of_ne_zero hne
          rw [Item.entries, entriesFor, List.getElem?_cons_succ] at hentry
          have hsecond := List.mem_of_getElem? hentry
          split at hsecond
          · exact husable (by simp_all)
          · cases hsecond
        subst hzero
        obtain rfl : _ = entry := by simpa [Item.entries, entriesFor] using hentry
        exact ⟨[], first, rest, rfl, rfl, rfl⟩
      · rw [List.getElem?_append_right (by rw [first.length_entries]; omega),
          first.length_entries] at hentry
        obtain ⟨before, item, after, rfl, hnumber, rfl⟩ := ih hentry
        refine ⟨first :: before, item, after, rfl, ?_, ?_⟩
        · rw [List.map_cons, List.sum_cons]
          omega
        · rw [placeAfter_cons]

end Pool

/-! ## The entries in order -/

namespace ConstantPool

variable (pool : ConstantPool)

theorem mem_usable_iff {number : Nat} {entry : PoolEntry} :
    (number, entry) ∈ pool.usable ↔
      pool.entries[number]? = some entry ∧ entry.constant ≠ .unusable := by
  simp only [usable, List.mem_filterMap, Prod.exists, List.mem_zipIdx_iff_getElem?]
  constructor
  · rintro ⟨other, k, hother, heq⟩
    split at heq
    · cases heq
    next husable =>
      cases heq
      exact ⟨by simpa using hother, husable⟩
  · rintro ⟨hentry, husable⟩
    exact ⟨entry, number, by simpa using hentry, if_neg husable⟩

/-- Each number is gone through once, the lower one first. -/
theorem pairwise_usable : (pool.usable.map Prod.fst).Pairwise (· < ·) := by
  rw [List.pairwise_map, usable, List.pairwise_filterMap]
  have hnumbers : pool.entries.toList.zipIdx.Pairwise fun a b => a.2 < b.2 := by
    rw [← List.pairwise_map, List.zipIdx_map_snd]
    exact List.pairwise_lt_range'
  have hfst : ∀ {entry : PoolEntry} {number : Nat} {numbered : Nat × PoolEntry},
      (if entry.constant = .unusable then none else some (number, entry)) = some numbered →
        numbered.1 = number := by
    intro entry number numbered h
    by_cases hunusable : entry.constant = .unusable
    · simp [hunusable] at h
    · rw [if_neg hunusable] at h
      rw [← Option.some.inj h]
  refine hnumbers.imp ?_
  rintro ⟨entry, number⟩ ⟨entry', number'⟩ hlt numbered hnumbered numbered' hnumbered'
  rw [hfst hnumbered, hfst hnumbered']
  exact hlt

end ConstantPool

/-- What stands for something in the pool are the constants. -/
theorem mem_usable_poolFrom_iff {offset number : Nat} {items : List Item} {entry : PoolEntry} :
    (number, entry) ∈ (poolFrom offset items).usable ↔
      ∃ before item after, items = before ++ item :: after ∧ number = numberAfter before ∧
        entry = ⟨item.constant, placeAfter offset before⟩ := by
  rw [ConstantPool.mem_usable_iff]
  constructor
  · rintro ⟨hentry, husable⟩
    cases number with
    | zero =>
        obtain rfl : _ = entry := by simpa [poolFrom] using hentry
        exact absurd rfl husable
    | succ k =>
        rw [getElem?_poolFrom] at hentry
        obtain ⟨before, item, after, hitems, rfl, hplace⟩ :=
          exists_of_mem_entriesFrom hentry husable
        exact ⟨before, item, after, hitems, Nat.add_comm _ 1, hplace⟩
  · rintro ⟨before, item, after, rfl, rfl, rfl⟩
    exact ⟨getElem?_poolFrom_constant, item.constant_ne_unusable⟩

/-! ## A counter of sixteen bits -/

/-- The number after another one, if it fits in sixteen bits. -/
def following? (number : UInt16) : Option UInt16 :=
  if number.toNat + 1 < UInt16.size then some (number + 1) else none

/-- The number two after another one, or the greatest one if that is passed. -/
def secondFollowing (number : UInt16) : UInt16 := UInt16.ofNat (min (number.toNat + 2) 0xFFFF)

/-- The number that the counter goes on with after a constant, if it does not overflow. -/
def numberAfterTag? (tag : UInt8) (number : UInt16) : Option UInt16 :=
  if isWideTag tag then some (secondFollowing number) else following? number

theorem toNat_secondFollowing (number : UInt16) :
    (secondFollowing number).toNat = min (number.toNat + 2) 0xFFFF :=
  UInt16.toNat_ofNat_of_lt (by simp only [UInt16.size]; omega)

theorem following?_of_lt {number count : UInt16} (h : number < count) :
    following? number = some (number + 1) ∧ (number + 1).toNat = number.toNat + 1 := by
  have hlt : number.toNat < count.toNat := UInt16.lt_iff_toNat_lt.mp h
  have hcount : count.toNat < 65536 := count.toNat_lt
  constructor
  · rw [following?, if_pos (by simp only [UInt16.size]; omega)]
  · rw [UInt16.toNat_add]
    simp only [UInt16.toNat_one]
    omega

/-- Below the announced count the counter does not overflow.  It takes as many steps as a constant
takes numbers, but for a last step that would pass the greatest number. -/
theorem numberAfterTag?_of_lt {number count : UInt16} (h : number < count) (tag : UInt8) :
    ∃ following, numberAfterTag? tag number = some following ∧
      following.toNat = min (number.toNat + slots tag) 0xFFFF := by
  have hlt : number.toNat < count.toNat := UInt16.lt_iff_toNat_lt.mp h
  have hcount : count.toNat < 65536 := count.toNat_lt
  rw [numberAfterTag?, slots]
  by_cases hwide : isWideTag tag = true
  · rw [if_pos hwide, if_pos hwide]
    exact ⟨_, rfl, toNat_secondFollowing number⟩
  · obtain ⟨hfollowing, htoNat⟩ := following?_of_lt h
    rw [if_neg hwide, if_neg hwide]
    exact ⟨_, hfollowing, by omega⟩

theorem sub_lt_of_numberAfterTag? {number count following : UInt16} {tag : UInt8}
    (hlt : number < count) (h : numberAfterTag? tag number = some following) :
    count.toNat - following.toNat < count.toNat - number.toNat := by
  obtain ⟨other, hother, htoNat⟩ := numberAfterTag?_of_lt hlt tag
  obtain rfl : following = other := Option.some.inj (h.symm.trans hother)
  have hslots := ClassFile.slots_pos tag
  have hcount : count.toNat < 65536 := count.toNat_lt
  rw [UInt16.lt_iff_toNat_lt] at hlt
  omega

/-- Reads the constants from a number on with a counter of sixteen bits; there is no result if it
overflows. -/
def readEntriesShort? (count number : UInt16) (c : Cursor) (entries : Array PoolEntry) :
    Option (Except ReadError (Array PoolEntry × Cursor)) :=
  if _ : number < count then
    match readTag c with
    | .error e => some (.error e)
    | .ok (tag, next) =>
        match readConstant tag number.toNat c.offset next with
        | .error e => some (.error e)
        | .ok (constant, next) =>
            match _ : numberAfterTag? tag number with
            | none => none
            | some following =>
                readEntriesShort? count following next (entries ++ entriesFor tag constant c.offset)
  else some (.ok (entries, c))
termination_by count.toNat - number.toNat
decreasing_by exact sub_lt_of_numberAfterTag? (by assumption) (by assumption)

theorem readEntries_of_le {count number : Nat} (h : count ≤ number) (c : Cursor)
    (entries : Array PoolEntry) : readEntries count number c entries = .ok (entries, c) := by
  rw [readEntries, if_neg (by omega)]

/-- The counter never overflows, and where it stops short of a number it has come to its end. -/
theorem readEntriesShort?_eq (count number : UInt16) (c : Cursor) (entries : Array PoolEntry) :
    readEntriesShort? count number c entries =
      some (readEntries count.toNat number.toNat c entries) := by
  fun_induction readEntriesShort? count number c entries with
  | case1 number c entries hlt e htag =>
      rw [readEntries_of_lt (UInt16.lt_iff_toNat_lt.mp hlt), htag]
      rfl
  | case2 number c entries hlt tag next htag e hconstant =>
      rw [readEntries_of_lt (UInt16.lt_iff_toNat_lt.mp hlt), htag]
      dsimp only [bind, Except.bind]
      rw [hconstant]
  | case3 number c entries hlt tag next htag constant last hconstant hoverflow =>
      obtain ⟨following, hfollowing, -⟩ := numberAfterTag?_of_lt hlt tag
      rw [hoverflow] at hfollowing
      cases hfollowing
  | case4 number c entries hlt tag next htag constant last hconstant following hfollowing ih =>
      have hcount : count.toNat < 65536 := count.toNat_lt
      obtain ⟨other, hother, htoNat⟩ := numberAfterTag?_of_lt hlt tag
      obtain rfl : following = other := Option.some.inj (hfollowing.symm.trans hother)
      rw [ih, readEntries_of_lt (UInt16.lt_iff_toNat_lt.mp hlt), htag]
      dsimp only [bind, Except.bind]
      rw [hconstant]
      dsimp only
      by_cases hpassed : number.toNat + slots tag ≤ 0xFFFF
      · rw [htoNat, Nat.min_eq_left hpassed]
      · rw [readEntries_of_le (by omega), readEntries_of_le (by omega)]
  | case5 number c entries hge =>
      rw [readEntries_of_le (by rw [UInt16.lt_iff_toNat_lt] at hge; omega)]

/-! ## Pools -/

/-- The pool holds the constants `items`, which are stored in `bytes` from `offset` on after it was
announced that the numbers lie below `count`. -/
structure Numbered (bytes : Bytes) (offset : Nat) (count : UInt16) (items : List Item)
    (pool : ConstantPool) : Prop where
  zero : pool.get? 0 = some .unusable
  constant : ∀ before item after, items = before ++ item :: after →
    pool.entries[numberAfter before]? = some ⟨item.constant, placeAfter offset before⟩ ∧
      bytes[placeAfter offset before]? = some item.tag
  second : ∀ before item after, items = before ++ item :: after → item.slots = 2 →
    pool.get? (numberAfter before + 1) = some .unusable
  /-- A number is given out only while it is below the announced one, so that the next number fits
  in sixteen bits. -/
  lt_count : ∀ before item after, items = before ++ item :: after →
    numberAfter before < count.toNat
  size : pool.entries.size = numberAfter items
  size_le : pool.entries.size ≤ 2 ^ 16
  /-- Only a wide constant at the end takes a number more than was announced. -/
  ends : pool.entries.size = max 1 count.toNat ∨
    pool.entries.size = count.toNat + 1 ∧ ∃ before item, items = before ++ [item] ∧ item.slots = 2
  /-- What stands for something is gone through in the order of the numbers, and each number
  once. -/
  increasing : (pool.usable.map Prod.fst).Pairwise (· < ·)
  usable : ∀ number entry, (number, entry) ∈ pool.usable ↔
    pool.entries[number]? = some entry ∧ entry.constant ≠ .unusable
  /-- These are the constants. -/
  usable_iff : ∀ number entry, (number, entry) ∈ pool.usable ↔
    ∃ before item after, items = before ++ item :: after ∧ number = numberAfter before ∧
      entry = ⟨item.constant, placeAfter offset before⟩
  short : ∀ number entry, (number, entry) ∈ pool.usable → (UInt16.ofNat number).toNat = number

theorem tag_of_moves {bytes : Bytes} {offset : Nat} {count : UInt16} {before after : List Item}
    {item : Item} {next : Cursor}
    (h : Moves ⟨offset, bytes.drop offset⟩
      (encodeShort count ++ (before ++ item :: after).flatMap Item.encode) next) :
    bytes[placeAfter (offset + 2) before]? = some item.tag := by
  have hlength : (encodeShort count ++ before.flatMap Item.encode).length =
      2 + (before.flatMap Item.encode).length := by
    rw [List.length_append, encodeShort, length_stored]
  have hrest : bytes.drop offset =
      (encodeShort count ++ before.flatMap Item.encode) ++
        item.tag :: (item.body ++ (after.flatMap Item.encode ++ next.rest)) := by
    rw [show bytes.drop offset = _ from h.rest]
    simp [Item.encode]
  rw [placeAfter, Nat.add_assoc, ← hlength, ← List.getElem?_drop, hrest,
    List.getElem?_append_right (Nat.le_refl _), Nat.sub_self]
  rfl

theorem numbered_of_fills {bytes : Bytes} {offset : Nat} {count : UInt16} {items : List Item}
    {next : Cursor} (hfills : Fills count.toNat 1 items)
    (hmoves : Moves ⟨offset, bytes.drop offset⟩
      (encodeShort count ++ items.flatMap Item.encode) next) :
    Numbered bytes (offset + 2) count items (poolFrom (offset + 2) items) := by
  have hcount : count.toNat < 65536 := count.toNat_lt
  have hsize : (poolFrom (offset + 2) items).entries.size = numberAfter items := by
    simp [poolFrom, length_entriesFrom, numberAfter, Nat.add_comm]
  have hlt : ∀ before item after, items = before ++ item :: after →
      numberAfter before < count.toNat := fun _ _ _ hitems => hfills.lt_count hitems
  have hends := hfills.ends
  rw [← hsize] at hends
  refine ⟨?_, ?_, ?_, hlt, hsize, by omega, hends, ConstantPool.pairwise_usable _, ?_, ?_, ?_⟩
  · simp [ConstantPool.get?, poolFrom]
  · rintro before item after rfl
    exact ⟨getElem?_poolFrom_constant, tag_of_moves hmoves⟩
  · rintro before item after rfl hslots
    rw [ConstantPool.get?, getElem?_poolFrom_second hslots]
    rfl
  · intro number entry
    exact ConstantPool.mem_usable_iff _
  · intro number entry
    exact mem_usable_poolFrom_iff
  · intro number entry hmem
    obtain ⟨before, item, after, hitems, rfl, -⟩ := mem_usable_poolFrom_iff.mp hmem
    have hnumber := hlt before item after hitems
    exact UInt16.toNat_ofNat_of_lt (by simp only [UInt16.size]; omega)

/-- What a pool is read to is numbered by the slots of the constants that are stored, and a counter
of sixteen bits gives out the same numbers without an overflow. -/
theorem read_numbered :
    (∀ (count number : UInt16) (c : Cursor) (entries : Array PoolEntry),
      readEntriesShort? count number c entries =
        some (readEntries count.toNat number.toNat c entries)) ∧
    ∀ (bytes : Bytes) (offset : Nat) (pool : ConstantPool) (next : Cursor),
      ConstantPool.read ⟨offset, bytes.drop offset⟩ = .ok (pool, next) →
        ∃ (count : UInt16) (items : List Item),
          Moves ⟨offset, bytes.drop offset⟩
            (encodeShort count ++ items.flatMap Item.encode) next ∧
          Numbered bytes (offset + 2) count items pool := by
  constructor
  · intro count number c entries
    exact readEntriesShort?_eq count number c entries
  · intro bytes offset pool next h
    obtain ⟨count, items, hfills, rfl, hmoves⟩ := readPool_eq_ok_iff.mp h
    exact ⟨count, items, hmoves, numbered_of_fills hfills hmoves⟩

/-! ## A pool with all the numbers that there are -/

/-- Constants of one number each, and a wide one after them. -/
def wideAtEnd (narrow : Nat) : List Item :=
  List.replicate narrow (.plain .integer (Vector.replicate 4 0)) ++
    [.plain .long (Vector.replicate 8 0)]

theorem fills_wideAtEnd (narrow number : Nat) :
    Fills (number + narrow + 1) number (wideAtEnd narrow) := by
  induction narrow generalizing number with
  | zero => exact .more (by omega) (.done (by simp [Item.slots]))
  | succ narrow ih =>
      have hrest := ih (number + 1)
      rw [Nat.add_right_comm number 1 narrow] at hrest
      exact .more (by omega) hrest

theorem size_wideAtEnd (offset narrow : Nat) :
    (poolFrom offset (wideAtEnd narrow)).entries.size = narrow + 3 := by
  simp [poolFrom, length_entriesFrom, wideAtEnd, Item.slots]

theorem read_of_fills {count : UInt16} {items : List Item} {bytes : Bytes}
    (hfills : Fills count.toNat 1 items)
    (hbytes : bytes = encodeShort count ++ items.flatMap Item.encode) :
    ConstantPool.read ⟨0, bytes.drop 0⟩ = .ok (poolFrom (0 + 2) items, ⟨bytes.length, []⟩) := by
  refine readPool_eq_ok_iff.mpr ⟨count, items, hfills, rfl, ?_, ?_⟩
  · rw [List.drop_zero, List.append_nil, hbytes]
  · rw [Nat.zero_add, hbytes]

/-- The bytes of a pool whose wide constant has the greatest number below the greatest count. -/
def fullPool : Bytes := encodeShort 0xFFFF ++ (wideAtEnd 65533).flatMap Item.encode

theorem read_numbered_full :
    ConstantPool.read ⟨0, fullPool.drop 0⟩ =
      .ok (poolFrom (0 + 2) (wideAtEnd 65533), ⟨fullPool.length, []⟩) ∧
    (poolFrom (0 + 2) (wideAtEnd 65533)).entries.size = 65536 ∧
    ∃ (count : UInt16) (items : List Item),
      Moves ⟨0, fullPool.drop 0⟩ (encodeShort count ++ items.flatMap Item.encode)
        ⟨fullPool.length, []⟩ ∧
      Numbered fullPool (0 + 2) count items (poolFrom (0 + 2) (wideAtEnd 65533)) := by
  obtain ⟨-, hnumbered⟩ := read_numbered
  have hread : ConstantPool.read ⟨0, fullPool.drop 0⟩ =
      .ok (poolFrom (0 + 2) (wideAtEnd 65533), ⟨fullPool.length, []⟩) :=
    @read_of_fills 0xFFFF (wideAtEnd 65533) fullPool (fills_wideAtEnd 65533 1) rfl
  exact ⟨hread, size_wideAtEnd _ 65533, hnumbered fullPool 0 _ _ hread⟩

end ClassFile
end Freshness
