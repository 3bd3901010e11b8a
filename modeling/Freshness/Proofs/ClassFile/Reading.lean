import Freshness.ClassFile.References
import Freshness.Proofs.ClassFile.Skeleton

/-!
# Reading class files

Each reader succeeds just when the cursor stands before the bytes that encode some data, and then
returns what belongs to these data.
-/

namespace Freshness
namespace ClassFile

open Cursor

variable {c c' : Cursor}

theorem number_short_eq_ok_iff {n : Nat} :
    c.number 2 = .ok (n, c') ↔
      ∃ short : UInt16, short.toNat = n ∧ Moves c (encodeShort short) c' := by
  rw [number_eq_ok_iff]
  constructor
  · rintro ⟨hn, h⟩
    have hshort : (UInt16.ofNat n).toNat = n := UInt16.toNat_ofNat_of_lt hn
    refine ⟨UInt16.ofNat n, hshort, ?_⟩
    rw [encodeShort, hshort]
    exact h
  · rintro ⟨short, rfl, h⟩
    exact ⟨short.toNat_lt, h⟩

theorem skip_short_eq_ok_iff :
    c.skip 2 = .ok c' ↔ ∃ short : UInt16, Moves c (encodeShort short) c' := by
  rw [skip_eq_ok_iff]
  constructor
  · rintro ⟨bytes, hlength, h⟩
    obtain ⟨n, hn, rfl⟩ := exists_stored hlength
    obtain ⟨short, -, hshort⟩ := number_short_eq_ok_iff.mp (number_eq_ok_iff.mpr ⟨hn, h⟩)
    exact ⟨short, hshort⟩
  · rintro ⟨short, h⟩
    exact ⟨encodeShort short, length_stored 2 _, h⟩

theorem skip_add_eq_ok_iff {m n : Nat} :
    c.skip (m + n) = .ok c' ↔ ∃ between, c.skip m = .ok between ∧ between.skip n = .ok c' := by
  simp only [skip_eq_ok_iff]
  constructor
  · rintro ⟨bytes, hlength, h⟩
    rw [← List.take_append_drop m bytes, moves_append] at h
    obtain ⟨between, h₁, h₂⟩ := h
    exact ⟨between, ⟨_, by rw [List.length_take]; omega, h₁⟩,
      ⟨_, by rw [List.length_drop]; omega, h₂⟩⟩
  · rintro ⟨between, ⟨first, hfirst, h₁⟩, second, hsecond, h₂⟩
    exact ⟨first ++ second, by simp [hfirst, hsecond], moves_append.mpr ⟨between, h₁, h₂⟩⟩

theorem skip_twoShorts_eq_ok_iff :
    c.skip 4 = .ok c' ↔
      ∃ first second : UInt16, Moves c (encodeShort first ++ encodeShort second) c' := by
  rw [show 4 = 2 + 2 from rfl, skip_add_eq_ok_iff]
  simp only [skip_short_eq_ok_iff, moves_append]
  constructor
  · rintro ⟨between, ⟨first, h₁⟩, second, h₂⟩
    exact ⟨first, second, between, h₁, h₂⟩
  · rintro ⟨first, second, between, h₁, h₂⟩
    exact ⟨between, ⟨first, h₁⟩, second, h₂⟩

theorem skip_shorts_eq_ok_iff {count : Nat} :
    c.skip (count * 2) = .ok c' ↔
      ∃ shorts : List UInt16, shorts.length = count ∧ Moves c (shorts.flatMap encodeShort) c' := by
  induction count generalizing c with
  | zero => simp [skip, after?, moves_nil, eq_comm]
  | succ count ih =>
      rw [Nat.add_mul, Nat.one_mul, Nat.add_comm, skip_add_eq_ok_iff]
      simp only [skip_short_eq_ok_iff, ih]
      constructor
      · rintro ⟨between, ⟨short, h₁⟩, shorts, rfl, h₂⟩
        exact ⟨short :: shorts, rfl, moves_append.mpr ⟨between, h₁, h₂⟩⟩
      · rintro ⟨shorts, hlength, h⟩
        obtain ⟨short, shorts, rfl⟩ := List.exists_cons_of_length_eq_add_one hlength
        obtain ⟨between, h₁, h₂⟩ := moves_append.mp h
        exact ⟨between, ⟨short, h₁⟩, shorts, by simpa using hlength, h₂⟩

/-- A number and then so many items are a counted list. -/
theorem counted_iff {α : Type} {width : Nat} {item : α → Bytes} {p : List α → Prop} :
    (∃ n next, c.number width = .ok (n, next) ∧
      ∃ items : List α, items.length = n ∧ p items ∧ Moves next (items.flatMap item) c') ↔
    ∃ list : Counted width α, p list.items ∧ Moves c (list.encode item) c' := by
  constructor
  · rintro ⟨_, next, hnumber, items, rfl, hitems, h₂⟩
    obtain ⟨hlength, h₁⟩ := number_eq_ok_iff.mp hnumber
    exact ⟨⟨items, hlength⟩, hitems, moves_append.mpr ⟨next, h₁, h₂⟩⟩
  · rintro ⟨list, hlist, h⟩
    obtain ⟨next, h₁, h₂⟩ := moves_append.mp h
    exact ⟨list.items.length, next, number_eq_ok_iff.mpr ⟨list.bound, h₁⟩, list.items, rfl, hlist,
      h₂⟩

theorem counted_any_iff {α : Type} {width : Nat} {item : α → Bytes} :
    (∃ n next, c.number width = .ok (n, next) ∧
      ∃ items : List α, items.length = n ∧ Moves next (items.flatMap item) c') ↔
    ∃ list : Counted width α, Moves c (list.encode item) c' := by
  simpa using @counted_iff c c' α width item (fun _ => True)

/-! ## The constants -/

/-- What is kept of a constant. -/
def Item.constant : Item → Constant
  | utf8 content => .utf8 (Utf8.decodeLossy content.items)
  | classEntry nameIndex => .classEntry nameIndex.toNat
  | nameAndType nameIndex descriptorIndex =>
      .nameAndType nameIndex.toNat descriptorIndex.toNat
  | methodType descriptorIndex => .methodType descriptorIndex.toNat
  | plain _ _ => .other

theorem Item.slots_tag (item : Item) : ClassFile.slots item.tag = item.slots := by
  cases item with
  | plain kind content => cases kind <;> rfl
  | _ => rfl

theorem plainSize?_eq_some_iff {tag : UInt8} {size : Nat} :
    plainSize? tag = some size ↔ ∃ kind : Plain, kind.tag = tag ∧ kind.size = size := by
  constructor
  · intro h
    unfold plainSize? at h
    split at h <;> cases h
    exacts [⟨.integer, rfl, rfl⟩, ⟨.float, rfl, rfl⟩, ⟨.field, rfl, rfl⟩, ⟨.method, rfl, rfl⟩,
      ⟨.interfaceMethod, rfl, rfl⟩, ⟨.dynamic, rfl, rfl⟩, ⟨.invokeDynamic, rfl, rfl⟩,
      ⟨.long, rfl, rfl⟩, ⟨.double, rfl, rfl⟩, ⟨.string, rfl, rfl⟩, ⟨.module, rfl, rfl⟩,
      ⟨.package, rfl, rfl⟩, ⟨.methodHandle, rfl, rfl⟩]
  · rintro ⟨kind, rfl, rfl⟩
    cases kind <;> rfl

theorem takeCounted_iff {width : Nat} {bytes : Bytes} :
    (∃ n next, c.number width = .ok (n, next) ∧ next.take n = .ok (bytes, c')) ↔
      ∃ content : Counted width UInt8,
        content.items = bytes ∧ Moves c (content.encode fun b => [b]) c' := by
  rw [← counted_iff (p := fun items => items = bytes)]
  simp [take_eq_ok_iff]

section ReadConstant

variable {constant : Constant} (index offset : Nat)

theorem readConstant_utf8 :
    readConstant 1 index offset c = .ok (constant, c') ↔
      ∃ content, (Item.utf8 content).constant = constant ∧
        Moves c (Item.utf8 content).body c' := by
  simp only [readConstant, bind_eq_ok_iff, Prod.exists]
  constructor
  · rintro ⟨n, next, hnumber, bytes, last, htake, heq⟩
    cases heq
    obtain ⟨content, rfl, h⟩ := takeCounted_iff.mp ⟨n, next, hnumber, htake⟩
    exact ⟨content, rfl, h⟩
  · rintro ⟨content, rfl, h⟩
    obtain ⟨n, next, hnumber, htake⟩ := takeCounted_iff.mpr ⟨content, rfl, h⟩
    exact ⟨n, next, hnumber, _, _, htake, rfl⟩

theorem readShort_eq_ok_iff {f : Nat → Constant} :
    (do let (n, next) ← c.number 2; return (f n, next)) = Except.ok (constant, c') ↔
      ∃ short, f short.toNat = constant ∧ Moves c (encodeShort short) c' := by
  simp only [bind_eq_ok_iff, Prod.exists, number_short_eq_ok_iff]
  constructor
  · rintro ⟨_, next, ⟨short, rfl, h⟩, heq⟩
    cases heq
    exact ⟨short, rfl, h⟩
  · rintro ⟨short, rfl, h⟩
    exact ⟨_, _, ⟨short, rfl, h⟩, rfl⟩

theorem readConstant_classEntry :
    readConstant 7 index offset c = .ok (constant, c') ↔
      ∃ nameIndex, (Item.classEntry nameIndex).constant = constant ∧
        Moves c (Item.classEntry nameIndex).body c' :=
  readShort_eq_ok_iff

theorem readConstant_nameAndType :
    readConstant 12 index offset c = .ok (constant, c') ↔
      ∃ nameIndex descriptorIndex,
        (Item.nameAndType nameIndex descriptorIndex).constant = constant ∧
          Moves c (Item.nameAndType nameIndex descriptorIndex).body c' := by
  simp only [readConstant, bind_eq_ok_iff, Prod.exists, number_short_eq_ok_iff, Item.body,
    moves_append]
  constructor
  · rintro ⟨_, next, ⟨nameIndex, rfl, h₁⟩, _, last, ⟨descriptorIndex, rfl, h₂⟩, heq⟩
    cases heq
    exact ⟨nameIndex, descriptorIndex, rfl, next, h₁, h₂⟩
  · rintro ⟨nameIndex, descriptorIndex, rfl, next, h₁, h₂⟩
    exact ⟨_, next, ⟨nameIndex, rfl, h₁⟩, _, _, ⟨descriptorIndex, rfl, h₂⟩, rfl⟩

theorem readConstant_methodType :
    readConstant 16 index offset c = .ok (constant, c') ↔
      ∃ descriptorIndex, (Item.methodType descriptorIndex).constant = constant ∧
        Moves c (Item.methodType descriptorIndex).body c' :=
  readShort_eq_ok_iff

theorem readConstant_plain (kind : Plain) :
    readConstant kind.tag index offset c = .ok (constant, c') ↔
      ∃ content, (Item.plain kind content).constant = constant ∧
        Moves c (Item.plain kind content).body c' := by
  have hread : readConstant kind.tag index offset c =
      c.skip kind.size >>= fun next => pure (.other, next) := by
    cases kind <;> rfl
  simp only [hread, bind_eq_ok_iff, skip_eq_ok_iff]
  constructor
  · rintro ⟨next, ⟨bytes, hlength, h⟩, heq⟩
    cases heq
    exact ⟨⟨bytes.toArray, by simpa using hlength⟩, rfl, by simpa [Item.body] using h⟩
  · rintro ⟨content, rfl, h⟩
    exact ⟨c', ⟨content.toList, by simp, h⟩, rfl⟩

theorem readConstant_eq_ok_iff {tag : UInt8} :
    readConstant tag index offset c = .ok (constant, c') ↔
      ∃ item : Item, item.tag = tag ∧ item.constant = constant ∧ Moves c item.body c' := by
  constructor
  · intro h
    unfold readConstant at h
    split at h
    · obtain ⟨content, hconstant, hmoves⟩ := (readConstant_utf8 index offset).mp h
      exact ⟨.utf8 content, rfl, hconstant, hmoves⟩
    · obtain ⟨nameIndex, hconstant, hmoves⟩ := (readConstant_classEntry index offset).mp h
      exact ⟨.classEntry nameIndex, rfl, hconstant, hmoves⟩
    · obtain ⟨nameIndex, descriptorIndex, hconstant, hmoves⟩ :=
        (readConstant_nameAndType index offset).mp h
      exact ⟨.nameAndType nameIndex descriptorIndex, rfl, hconstant, hmoves⟩
    · obtain ⟨descriptorIndex, hconstant, hmoves⟩ := (readConstant_methodType index offset).mp h
      exact ⟨.methodType descriptorIndex, rfl, hconstant, hmoves⟩
    · split at h
      · rename_i size hsize
        obtain ⟨kind, rfl, rfl⟩ := plainSize?_eq_some_iff.mp hsize
        have hread : readConstant kind.tag index offset c = .ok (constant, c') := by
          rw [← h]
          cases kind <;> rfl
        obtain ⟨content, hconstant, hmoves⟩ := (readConstant_plain index offset kind).mp hread
        exact ⟨.plain kind content, rfl, hconstant, hmoves⟩
      · cases h
  · rintro ⟨item, rfl, hconstant, h⟩
    cases item with
    | utf8 content => exact (readConstant_utf8 index offset).mpr ⟨content, hconstant, h⟩
    | classEntry nameIndex =>
        exact (readConstant_classEntry index offset).mpr ⟨nameIndex, hconstant, h⟩
    | nameAndType nameIndex descriptorIndex =>
        exact (readConstant_nameAndType index offset).mpr
          ⟨nameIndex, descriptorIndex, hconstant, h⟩
    | methodType descriptorIndex =>
        exact (readConstant_methodType index offset).mpr ⟨descriptorIndex, hconstant, h⟩
    | plain kind content =>
        exact (readConstant_plain index offset kind).mpr ⟨content, hconstant, h⟩

end ReadConstant

theorem readTag_eq_ok_iff {tag : UInt8} : readTag c = .ok (tag, c') ↔ Moves c [tag] c' := by
  have hstored : ∀ n : Nat, stored 1 n = [UInt8.ofNat n] := fun n => rfl
  simp only [readTag, map_eq_ok_iff, Prod.exists, number_eq_ok_iff, hstored]
  constructor
  · rintro ⟨n, next, ⟨-, h⟩, heq⟩
    obtain ⟨rfl, rfl⟩ := Prod.mk.inj heq
    exact h
  · intro h
    refine ⟨tag.toNat, c', ⟨tag.toNat_lt, ?_⟩, ?_⟩
    · simpa using h
    · simp

/-- The entries of a constant that stands at `offset`. -/
def Item.entries (offset : Nat) (item : Item) : List PoolEntry :=
  entriesFor item.tag item.constant offset

/-- The entries of the constants that stand one after the other from `offset` on. -/
def entriesFrom (offset : Nat) : List Item → List PoolEntry
  | [] => []
  | item :: rest => item.entries offset ++ entriesFrom (offset + item.encode.length) rest

theorem readEntries_eq_ok_iff {count index : Nat} {entries all : Array PoolEntry} :
    readEntries count index c entries = .ok (all, c') ↔
      ∃ items, Fills count index items ∧ all = entries ++ entriesFrom c.offset items ∧
        Moves c (items.flatMap Item.encode) c' := by
  constructor
  · intro h
    fun_induction readEntries count index c entries with
    | case1 => cases h
    | case2 => cases h
    | case3 index c entries hlt tag next htag constant last hconstant ih =>
        obtain ⟨items, hfills, rfl, hrest⟩ := ih h
        obtain ⟨item, rfl, rfl, hbody⟩ := (readConstant_eq_ok_iff _ _).mp hconstant
        have hitem : Moves c item.encode last :=
          moves_append.mpr ⟨next, readTag_eq_ok_iff.mp htag, hbody⟩
        rw [Item.slots_tag] at hfills
        refine ⟨item :: items, .more hlt hfills, ?_, moves_append.mpr ⟨last, hitem, hrest⟩⟩
        simp [← Array.toList_inj, entriesFrom, Item.entries, hitem.offset]
    | case4 index c entries hge =>
        cases h
        exact ⟨[], .done (by omega), by simp [entriesFrom], moves_nil.mpr rfl⟩
  · rintro ⟨items, hfills, rfl, h⟩
    induction hfills generalizing c entries with
    | done hle =>
        rename_i number
        rw [readEntries, if_neg (by omega)]
        obtain rfl := moves_nil.mp h
        simp [entriesFrom]
    | more hlt hrest ih =>
        rename_i number item rest
        obtain ⟨between, h₁, h₂⟩ := moves_append.mp h
        have hitem : Moves c ([item.tag] ++ item.body) between := h₁
        obtain ⟨next, htag, hbody⟩ := moves_append.mp hitem
        rw [readEntries, if_pos hlt, readTag_eq_ok_iff.mpr htag]
        dsimp only
        rw [(readConstant_eq_ok_iff _ _).mpr ⟨item, rfl, rfl, hbody⟩]
        dsimp only
        rw [Item.slots_tag, ih h₂, h₁.offset]
        simp [← Array.toList_inj, entriesFrom, Item.entries]

/-- The pool of the constants that stand one after the other from `offset` on. -/
def poolFrom (offset : Nat) (items : List Item) : ConstantPool :=
  ⟨(#[⟨.unusable, offset⟩] : Array PoolEntry) ++ entriesFrom offset items⟩

theorem readPool_eq_ok_iff {pool : ConstantPool} :
    ConstantPool.read c = .ok (pool, c') ↔
      ∃ (count : UInt16) (items : List Item), Fills count.toNat 1 items ∧
        pool = poolFrom (c.offset + 2) items ∧
        Moves c (encodeShort count ++ items.flatMap Item.encode) c' := by
  have hoffset : ∀ {count : UInt16} {next : Cursor}, Moves c (encodeShort count) next →
      next.offset = c.offset + 2 := by
    intro count next h
    rw [h.offset, encodeShort, length_stored]
  simp only [ConstantPool.read, bind_eq_ok_iff, Prod.exists, number_short_eq_ok_iff,
    readEntries_eq_ok_iff, moves_append]
  constructor
  · rintro ⟨_, next, ⟨count, rfl, h₁⟩, _, last, ⟨items, hfills, rfl, h₂⟩, heq⟩
    cases heq
    rw [hoffset h₁]
    exact ⟨count, items, hfills, rfl, next, h₁, h₂⟩
  · rintro ⟨count, items, hfills, rfl, next, h₁, h₂⟩
    refine ⟨_, next, ⟨count, rfl, h₁⟩, _, _, ⟨items, hfills, rfl, h₂⟩, ?_⟩
    rw [hoffset h₁]
    rfl

/-! ## Looking up constants -/

theorem itemAt?_of_lt {number index : Nat} {items : List Item} (h : index < number) :
    itemAt? number items index = none := by
  induction items generalizing number with
  | nil => rfl
  | cons item rest ih =>
      rw [itemAt?, if_neg (by omega)]
      exact ih (by omega)

theorem getElem?_entriesFrom {wanted : Constant} (hwanted : wanted ≠ .unusable)
    (offset number k : Nat) (items : List Item) :
    (entriesFrom offset items)[k]?.map PoolEntry.constant = some wanted ↔
      (itemAt? number items (number + k)).map Item.constant = some wanted := by
  induction items generalizing offset number k with
  | nil => simp [entriesFrom, itemAt?]
  | cons item rest ih =>
      cases k with
      | zero => simp [entriesFrom, Item.entries, entriesFor, itemAt?]
      | succ k =>
          rw [itemAt?, if_neg (by omega), ← item.slots_tag]
          cases hwide : isWideTag item.tag with
          | false =>
              have hnumber : number + (k + 1) = number + 1 + k := by omega
              simpa [entriesFrom, Item.entries, entriesFor, slots, hwide, hnumber]
                using ih _ (number + 1) k
          | true =>
              cases k with
              | zero =>
                  have hnone : itemAt? (number + 2) rest (number + 1) = none :=
                    itemAt?_of_lt (by omega)
                  simp [entriesFrom, Item.entries, entriesFor, slots, hwide, hnone, hwanted.symm]
              | succ k =>
                  have hnumber : number + (k + 1 + 1) = number + 2 + k := by omega
                  simpa [entriesFrom, Item.entries, entriesFor, slots, hwide, hnumber]
                    using ih _ (number + 2) k

section Lookup

variable {offset index place : Nat} {items : List Item}

theorem get?_poolFrom (wanted : Constant) (hwanted : wanted ≠ .unusable) :
    (poolFrom offset items).get? index = some wanted ↔
      (itemAt? 1 items index).map Item.constant = some wanted := by
  cases index with
  | zero =>
      have hnone : itemAt? 1 items 0 = none := itemAt?_of_lt (by omega)
      simp [poolFrom, ConstantPool.get?, hnone, hwanted.symm]
  | succ k =>
      have hentries : (poolFrom offset items).get? (k + 1) =
          (entriesFrom offset items)[k]?.map PoolEntry.constant := by
        simp [poolFrom, ConstantPool.get?, ← Array.getElem?_toList]
      rw [hentries, getElem?_entriesFrom hwanted offset 1, Nat.add_comm]

theorem utf8_eq_ok_iff {index : UInt16} {text : String} :
    (poolFrom offset items).utf8 index.toNat place = .ok text ↔
      textAt? items index = some text := by
  have hpool : (poolFrom offset items).utf8 index.toNat place = .ok text ↔
      (poolFrom offset items).get? index.toNat = some (.utf8 text) := by
    unfold ConstantPool.utf8
    split <;> simp_all
  rw [hpool, get?_poolFrom _ (by simp), textAt?]
  cases itemAt? 1 items index.toNat with
  | none => simp
  | some item => cases item <;> simp [Item.constant]

theorem className_eq_ok_iff {index : UInt16} {name : String} :
    (poolFrom offset items).className index.toNat place = .ok name ↔
      classAt? items index = some name := by
  have hpool : (poolFrom offset items).className index.toNat place = .ok name ↔
      ∃ n, (poolFrom offset items).get? index.toNat = some (.classEntry n) ∧
        (poolFrom offset items).utf8 n place = .ok name := by
    unfold ConstantPool.className
    split <;> simp_all
  simp only [hpool, get?_poolFrom (.classEntry _) (by simp), classAt?]
  cases itemAt? 1 items index.toNat with
  | none => simp
  | some item => cases item <;> simp [Item.constant, utf8_eq_ok_iff]

/-! ## The classes that are mentioned -/

theorem constantTypes_eq_ok_iff {item : Item} {types : List String} :
    constantTypes (poolFrom offset items) ⟨item.constant, place⟩ = .ok types ↔
      (∀ index, item.text? = some index → ∃ text, textAt? items index = some text) ∧
        item.types items = types := by
  have hdescriptor : ∀ index : UInt16,
      ((poolFrom offset items).utf8 index.toNat place).map objectTypes = .ok types ↔
        (∃ text, textAt? items index = some text) ∧
          (textAt? items index).toList.flatMap objectTypes = types := by
    intro index
    simp only [map_eq_ok_iff, utf8_eq_ok_iff]
    cases textAt? items index <;> simp
  cases item with
  | classEntry nameIndex =>
      simp only [constantTypes, Item.constant, map_eq_ok_iff, utf8_eq_ok_iff, Item.text?,
        Item.types, Option.some.injEq, forall_eq']
      cases textAt? items nameIndex with
      | none => simp
      | some name => cases hname : classEntryType? name <;> simp [hname]
  | nameAndType nameIndex descriptorIndex =>
      simpa [constantTypes, Item.constant, Item.text?, Item.types] using
        hdescriptor descriptorIndex
  | methodType descriptorIndex =>
      simpa [constantTypes, Item.constant, Item.text?, Item.types] using
        hdescriptor descriptorIndex
  | utf8 content => simp [constantTypes, Item.constant, Item.text?, Item.types]
  | plain kind content => simp [constantTypes, Item.constant, Item.text?, Item.types]

theorem map_snd_usable (pool : ConstantPool) :
    pool.usable.map Prod.snd =
      pool.entries.toList.filter fun entry => entry.constant ≠ .unusable := by
  have hlist : ∀ (entries : List PoolEntry) (start : Nat),
      ((entries.zipIdx start).filterMap fun numbered =>
        if numbered.1.constant = .unusable then none
        else some (numbered.2, numbered.1)).map Prod.snd =
        entries.filter fun entry => entry.constant ≠ .unusable := by
    intro entries
    induction entries with
    | nil => simp
    | cons entry rest ih =>
        intro start
        by_cases h : entry.constant = .unusable
        · simpa [h] using ih (start + 1)
        · simpa [h] using ih (start + 1)
  exact hlist pool.entries.toList 0

theorem mapM_constantTypes (start : Nat) (chosen : List Item) {types : List (List String)} :
    ((entriesFrom start chosen).filter fun entry => entry.constant ≠ .unusable).mapM
        (constantTypes (poolFrom offset items)) = .ok types ↔
      (∀ item ∈ chosen, ∀ index, item.text? = some index →
        ∃ text, textAt? items index = some text) ∧
        chosen.map (Item.types items) = types := by
  induction chosen generalizing start types with
  | nil => simp [entriesFrom, pure, Except.pure]
  | cons item rest ih =>
      have husable : item.constant ≠ .unusable := by
        cases item <;> simp [Item.constant]
      have hentries : (item.entries start).filter (fun entry => entry.constant ≠ .unusable) =
          [⟨item.constant, start⟩] := by
        cases hwide : isWideTag item.tag <;>
          simp [Item.entries, entriesFor, hwide, husable]
      rw [entriesFrom, List.filter_append, hentries, List.singleton_append, List.mapM_cons]
      simp only [bind_eq_ok_iff, constantTypes_eq_ok_iff, ih]
      constructor
      · rintro ⟨_, ⟨hitem, rfl⟩, _, ⟨hrest, rfl⟩, heq⟩
        cases heq
        exact ⟨List.forall_mem_cons.mpr ⟨hitem, hrest⟩, rfl⟩
      · rintro ⟨hall, rfl⟩
        obtain ⟨hitem, hrest⟩ := List.forall_mem_cons.mp hall
        exact ⟨_, ⟨hitem, rfl⟩, _, ⟨hrest, rfl⟩, rfl⟩

theorem poolTypes_eq_ok_iff {types : List String} :
    poolTypes (poolFrom offset items) = .ok types ↔
      (∀ item ∈ items, ∀ index, item.text? = some index →
        ∃ text, textAt? items index = some text) ∧
        items.flatMap (Item.types items) = types := by
  have hentries : (poolFrom offset items).usable.map Prod.snd =
      (entriesFrom offset items).filter fun entry => entry.constant ≠ .unusable := by
    rw [map_snd_usable]
    simp [poolFrom]
  have hmap : (poolFrom offset items).usable.mapM
      (fun entry => constantTypes (poolFrom offset items) entry.2) =
        ((poolFrom offset items).usable.map Prod.snd).mapM
          (constantTypes (poolFrom offset items)) := by
    rw [List.mapM_map]
    rfl
  rw [poolTypes, hmap, hentries, map_eq_ok_iff]
  simp only [mapM_constantTypes]
  constructor
  · rintro ⟨_, ⟨hall, rfl⟩, rfl⟩
    exact ⟨hall, List.flatMap_def⟩
  · rintro ⟨hall, rfl⟩
    exact ⟨_, ⟨hall, rfl⟩, List.flatMap_def.symm⟩

/-! ## Fields and methods -/

theorem skipCounted_iff {width : Nat} :
    (∃ n next, c.number width = .ok (n, next) ∧ next.skip n = .ok c') ↔
      ∃ content : Counted width UInt8, Moves c (content.encode fun b => [b]) c' := by
  rw [← counted_any_iff]
  simp [skip_eq_ok_iff]

theorem skipAttributes_eq_ok_iff {count : Nat} :
    skipAttributes count c = .ok c' ↔
      ∃ attributes : List Attribute, attributes.length = count ∧
        Moves c (attributes.flatMap Attribute.encode) c' := by
  induction count generalizing c with
  | zero => simp [skipAttributes, moves_nil, eq_comm]
  | succ count ih =>
      simp only [skipAttributes, bind_eq_ok_iff, Prod.exists, skip_short_eq_ok_iff, ih]
      constructor
      · rintro ⟨c₁, ⟨nameIndex, h₁⟩, n, c₂, hnumber, c₃, hskip, attributes, rfl, h₃⟩
        obtain ⟨content, h₂⟩ := skipCounted_iff.mp ⟨n, c₂, hnumber, hskip⟩
        have hfirst : Moves c (Attribute.encode ⟨nameIndex, content⟩) c₃ :=
          moves_append.mpr ⟨c₁, h₁, h₂⟩
        exact ⟨⟨nameIndex, content⟩ :: attributes, rfl, moves_append.mpr ⟨c₃, hfirst, h₃⟩⟩
      · rintro ⟨attributes, hlength, h⟩
        obtain ⟨a, attributes, rfl⟩ := List.exists_cons_of_length_eq_add_one hlength
        obtain ⟨c₃, hfirst, h₃⟩ := moves_append.mp h
        obtain ⟨c₁, h₁, h₂⟩ := moves_append.mp hfirst
        obtain ⟨n, c₂, hnumber, hskip⟩ := skipCounted_iff.mpr ⟨a.content, h₂⟩
        exact ⟨c₁, ⟨a.nameIndex, h₁⟩, n, c₂, hnumber, c₃, hskip, attributes,
          by simpa using hlength, h₃⟩

theorem countedAttributes_iff :
    (∃ n next, c.number 2 = .ok (n, next) ∧ skipAttributes n next = .ok c') ↔
      ∃ attributes : Counted 2 Attribute, Moves c (attributes.encode Attribute.encode) c' := by
  simp only [← counted_any_iff, skipAttributes_eq_ok_iff]

theorem memberTypes_eq_ok_iff {count : Nat} {found all : List String} :
    memberTypes (poolFrom offset items) count c found = .ok (all, c') ↔
      ∃ members : List Member, members.length = count ∧
        ((∀ m ∈ members, ∃ text, textAt? items m.descriptorIndex = some text) ∧
          (members.flatMap (Member.types items)).reverse ++ found = all) ∧
        Moves c (members.flatMap Member.encode) c' := by
  induction count generalizing c found with
  | zero =>
      simp only [memberTypes, Except.ok.injEq, Prod.mk.injEq]
      constructor
      · rintro ⟨rfl, rfl⟩
        exact ⟨[], rfl, by simp, moves_nil.mpr rfl⟩
      · rintro ⟨members, hlength, ⟨-, rfl⟩, h⟩
        obtain rfl := List.eq_nil_of_length_eq_zero hlength
        exact ⟨rfl, (moves_nil.mp h).symm⟩
  | succ count ih =>
      simp only [memberTypes, bind_eq_ok_iff, Prod.exists, ih]
      constructor
      · rintro ⟨c₁, hskip, n, c₂, hnumber, descriptor, htext, count', c₃, hcount, c₄, hattributes,
          members, rfl, ⟨hall, rfl⟩, h₄⟩
        obtain ⟨access, nameIndex, h₁⟩ := skip_twoShorts_eq_ok_iff.mp hskip
        obtain ⟨descriptorIndex, rfl, h₂⟩ := number_short_eq_ok_iff.mp hnumber
        obtain ⟨attributes, h₃⟩ := countedAttributes_iff.mp ⟨count', c₃, hcount, hattributes⟩
        rw [utf8_eq_ok_iff] at htext
        let m : Member := ⟨access, nameIndex, descriptorIndex, attributes⟩
        have hm : Moves c m.encode c₄ :=
          moves_append.mpr ⟨c₂, moves_append.mpr ⟨c₁, h₁, h₂⟩, h₃⟩
        have htypes : m.types items = objectTypes descriptor := by
          simp [m, Member.types, htext]
        refine ⟨m :: members, rfl, ⟨?_, ?_⟩, moves_append.mpr ⟨c₄, hm, h₄⟩⟩
        · exact List.forall_mem_cons.mpr ⟨⟨descriptor, htext⟩, hall⟩
        · simp [htypes]
      · rintro ⟨members, hlength, ⟨hall, rfl⟩, h⟩
        obtain ⟨m, members, rfl⟩ := List.exists_cons_of_length_eq_add_one hlength
        obtain ⟨⟨descriptor, htext⟩, hall⟩ := List.forall_mem_cons.mp hall
        obtain ⟨c₄, hm, h₄⟩ := moves_append.mp h
        obtain ⟨c₂, h₁₂, h₃⟩ := moves_append.mp hm
        obtain ⟨c₁, h₁, h₂⟩ := moves_append.mp h₁₂
        obtain ⟨n, c₃, hcount, hattributes⟩ := countedAttributes_iff.mpr ⟨m.attributes, h₃⟩
        refine ⟨c₁, skip_twoShorts_eq_ok_iff.mpr ⟨m.access, m.nameIndex, h₁⟩, _, c₂,
          number_short_eq_ok_iff.mpr ⟨m.descriptorIndex, rfl, h₂⟩, descriptor,
          utf8_eq_ok_iff.mpr htext, n, c₃, hcount, c₄, hattributes, members,
          by simpa using hlength, ⟨hall, ?_⟩, h₄⟩
        simp [Member.types, htext]

theorem membersTypes_eq_ok_iff {types : List String} :
    membersTypes (poolFrom offset items) c = .ok (types, c') ↔
      ∃ members : Counted 2 Member,
        ((∀ m ∈ members.items, ∃ text, textAt? items m.descriptorIndex = some text) ∧
          members.items.flatMap (Member.types items) = types) ∧
        Moves c (members.encode Member.encode) c' := by
  rw [← counted_iff (p := fun members =>
    (∀ m ∈ members, ∃ text, textAt? items m.descriptorIndex = some text) ∧
      members.flatMap (Member.types items) = types)]
  simp only [membersTypes, bind_eq_ok_iff, Prod.exists, memberTypes_eq_ok_iff]
  constructor
  · rintro ⟨n, next, hnumber, _, last, ⟨members, hlength, ⟨hall, rfl⟩, h⟩, heq⟩
    cases heq
    exact ⟨n, next, hnumber, members, hlength, ⟨hall, by simp⟩, h⟩
  · rintro ⟨n, next, hnumber, members, hlength, ⟨hall, rfl⟩, h⟩
    refine ⟨n, next, hnumber, _, c', ⟨members, hlength, ⟨hall, rfl⟩, h⟩, ?_⟩
    simp [pure, Except.pure]

end Lookup

end ClassFile
end Freshness
