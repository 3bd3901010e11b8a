import Freshness.Proofs.ClassFile.Diagnosis

/-!
# The way of the cursor

A class file is read by asking for its next bytes, time and again.  The reading is written as a
program of such questions here, which comes to the same as the reading itself.  The bytes that any
such program is given follow each other and are never outside of the file, so that this is how the
cursor goes through a class file too.
-/

namespace Freshness
namespace ClassFile

open Cursor

/-! ## Slices of the bytes -/

/-- The bytes that were asked for and where they begin. -/
structure Slice where
  offset : Nat
  count : Nat
  bytes : Bytes

/-- Where the cursor is after the slice was read. -/
def Slice.ending (slice : Slice) : Nat := slice.offset + slice.count

/-- The slices follow each other in `bytes`, from the place `offset` on. -/
inductive Follow (bytes : Bytes) : (offset : Nat) → List Slice → Prop
  | nil {offset : Nat} (hoffset : offset ≤ bytes.length) : Follow bytes offset []
  | cons {slice : Slice} {rest : List Slice}
      (hexact : slice.bytes = (bytes.drop slice.offset).take slice.count)
      (hlength : slice.bytes.length = slice.count)
      (hrest : Follow bytes slice.ending rest) : Follow bytes slice.offset (slice :: rest)

theorem Follow.offset_le {bytes : Bytes} {offset : Nat} {way : List Slice}
    (h : Follow bytes offset way) : offset ≤ bytes.length := by
  induction h with
  | nil hoffset => exact hoffset
  | cons hexact hlength hrest ih =>
      rw [Slice.ending] at ih
      omega

/-- The cursor stays within the bytes. -/
theorem Follow.ending_le {bytes : Bytes} {offset : Nat} {way : List Slice}
    (h : Follow bytes offset way) : ∀ slice ∈ way, slice.ending ≤ bytes.length := by
  induction h with
  | nil hoffset => exact List.forall_mem_nil _
  | cons hexact hlength hrest ih => exact List.forall_mem_cons.mpr ⟨hrest.offset_le, ih⟩

/-- The cursor never goes back. -/
theorem Follow.pairwise {bytes : Bytes} {offset : Nat} {way : List Slice}
    (h : Follow bytes offset way) : (offset :: way.map Slice.ending).Pairwise (· ≤ ·) := by
  induction h with
  | nil hoffset => exact List.pairwise_singleton _ _
  | @cons slice rest hexact hlength hrest ih =>
      have hle : slice.offset ≤ slice.ending := Nat.le_add_right _ _
      refine List.pairwise_cons.mpr ⟨?_, ih⟩
      rw [List.map_cons]
      refine List.forall_mem_cons.mpr ⟨hle, ?_⟩
      intro place hplace
      exact hle.trans (List.rel_of_pairwise_cons ih hplace)

/-! ## Programs -/

/-- A program that asks for the next bytes, some number of them, or where they begin. -/
inductive Inquiry (α : Type)
  | done (a : α)
  | refuse (e : ReadError)
  | locate (next : Nat → Inquiry α)
  | ask (count : Nat) (next : Bytes → Inquiry α)

namespace Inquiry

variable {α β : Type}

def bind : Inquiry α → (α → Inquiry β) → Inquiry β
  | done a, f => f a
  | refuse e, _ => refuse e
  | locate next, f => locate fun offset => (next offset).bind f
  | ask count next, f => ask count fun slice => (next slice).bind f

instance : Monad Inquiry where
  pure := done
  bind := bind

/-- What a program comes to when the bytes are those at the cursor. -/
def run : Inquiry α → Cursor → Except ReadError (α × Cursor)
  | done a, c => .ok (a, c)
  | refuse e, _ => .error e
  | locate next, c => run (next c.offset) c
  | ask count next, c => do
      let (slice, c) ← c.take count
      run (next slice) c

/-- What a program is given of the bytes at the cursor. -/
def slices : Inquiry α → Cursor → List Slice
  | done _, _ => []
  | refuse _, _ => []
  | locate next, c => slices (next c.offset) c
  | ask count next, c =>
      match c.take count with
      | .error _ => []
      | .ok (slice, after) => ⟨c.offset, count, slice⟩ :: slices (next slice) after

theorem run_bind (p : Inquiry α) (f : α → Inquiry β) (c : Cursor) :
    (p >>= f).run c = p.run c >>= fun r => (f r.1).run r.2 := by
  induction p generalizing c with
  | done a => rfl
  | refuse e => rfl
  | locate next ih => exact ih c.offset c
  | ask count next ih =>
      change (c.take count >>= fun r => ((next r.1).bind f).run r.2) =
        (c.take count >>= fun r => (next r.1).run r.2) >>= _
      rw [bind_assoc]
      congr 1
      funext r
      exact ih r.1 r.2

/-- A program is given the bytes one after the other. -/
theorem follow_slices (p : Inquiry α) {bytes : Bytes} {c : Cursor} (h : Within bytes c) :
    Follow bytes c.offset (p.slices c) := by
  induction p generalizing c with
  | done a => exact .nil h.offset_le
  | refuse e => exact .nil h.offset_le
  | locate next ih => exact ih c.offset h
  | ask count next ih =>
      rw [slices]
      cases htake : c.take count with
      | error e => exact .nil h.offset_le
      | ok r =>
          obtain ⟨slice, after⟩ := r
          obtain ⟨hlength, hmoves⟩ := take_eq_ok_iff.mp htake
          have hexact : slice = (bytes.drop c.offset).take count := by
            rw [← h.rest, hmoves.rest, ← hlength, List.take_left]
          have hrest := ih slice (h.of_moves hmoves)
          rw [hmoves.offset, hlength] at hrest
          exact @Follow.cons bytes ⟨c.offset, count, slice⟩ _ hexact hlength hrest

/-! ## The program that reads a class file -/

/-- Where the cursor is. -/
def here : Inquiry Nat := locate done

def take (count : Nat) : Inquiry Bytes := ask count done

def skip (count : Nat) : Inquiry Unit := ask count fun _ => done ()

def number (width : Nat) : Inquiry Nat := ask width fun slice => done (bigEndian slice)

/-- What does not need the bytes. -/
def decided : Except ReadError α → Inquiry α
  | .ok a => done a
  | .error e => refuse e

section Run

variable (c : Cursor)

theorem run_pure (a : α) : (pure a : Inquiry α).run c = pure (a, c) := rfl

theorem run_here : here.run c = pure (c.offset, c) := rfl

theorem run_take (count : Nat) : (take count).run c = c.take count := by
  change (c.take count >>= fun r => pure r) = _
  rw [bind_pure]

theorem run_skip (count : Nat) :
    (skip count).run c = (fun after => ((), after)) <$> c.skip count := by
  rw [skip_eq_map_take]
  change (c.take count >>= fun r => pure ((), r.2)) = _
  cases c.take count <;> rfl

theorem run_number (width : Nat) : (number width).run c = c.number width := by
  change (c.take width >>= fun r => pure (bigEndian r.1, r.2)) = (c.take width).map _
  cases c.take width <;> rfl

theorem run_decided (x : Except ReadError α) : (decided x).run c = (fun a => (a, c)) <$> x := by
  cases x <;> rfl

end Run

/-- The constant after its tag. -/
def constant (tag : UInt8) (index offset : Nat) : Inquiry Constant :=
  match tag with
  | 1 => do
      let length ← number 2
      let bytes ← take length
      return .utf8 (Utf8.decodeLossy bytes)
  | 7 => do
      let nameIndex ← number 2
      return .classEntry nameIndex
  | 12 => do
      let nameIndex ← number 2
      let descriptorIndex ← number 2
      return .nameAndType nameIndex descriptorIndex
  | 16 => do
      let descriptorIndex ← number 2
      return .methodType descriptorIndex
  | tag =>
      match plainSize? tag with
      | some size => do
          skip size
          return .other
      | none => refuse (.unknownTag tag index offset)

/-- The constants from number `index` on, after the entries `found`. -/
def constants (count index : Nat) (found : Array PoolEntry) : Inquiry (Array PoolEntry) :=
  if index < count then do
    let offset ← here
    let tag := UInt8.ofNat (← number 1)
    let constant ← constant tag index offset
    constants count (index + slots tag) (found ++ entriesFor tag constant offset)
  else return found
termination_by count - index
decreasing_by simp only [slots]; split <;> omega

def pool : Inquiry ConstantPool := do
  let count ← number 2
  let offset ← here
  let entries ← constants count 1 #[⟨.unusable, offset⟩]
  return ⟨entries⟩

def attributes : (count : Nat) → Inquiry Unit
  | 0 => return ()
  | count + 1 => do
      skip 2
      let length ← number 4
      skip length
      attributes count

/-- The classes that the next `count` fields or methods mention, after those in `found`. -/
def members (pool : ConstantPool) : (count : Nat) → (found : List String) → Inquiry (List String)
  | 0, found => return found
  | count + 1, found => do
      skip 4
      let offset ← here
      let descriptorIndex ← number 2
      let descriptor ← decided (pool.utf8 descriptorIndex offset)
      attributes (← number 2)
      members pool count ((objectTypes descriptor).reverse ++ found)

def allMembers (pool : ConstantPool) : Inquiry (List String) := do
  let found ← members pool (← number 2) []
  return found.reverse

/-- The classes that a class file refers to. -/
def classes : Inquiry (List String) := do
  let found ← number 4
  if found ≠ magic then refuse (.badMagic found)
  skip 4
  let pool ← pool
  skip 2
  let offset ← here
  let thisClass ← number 2
  let own ← decided (pool.className thisClass offset)
  skip 2
  let interfaces ← number 2
  skip (interfaces * 2)
  let inPool ← decided (poolTypes pool)
  let inFields ← allMembers pool
  let inMethods ← allMembers pool
  let symbols := (inPool ++ inFields ++ inMethods).map toSymbol
  return firstOccurrences (symbols.filter (· ≠ toSymbol own))

/-! ## The program reads as the class file is read -/

theorem run_constant (tag : UInt8) (index offset : Nat) (c : Cursor) :
    (constant tag index offset).run c = readConstant tag index offset c := by
  unfold constant
  split
  · simp only [readConstant, run_bind, run_number, run_take, run_pure]
  · simp only [readConstant, run_bind, run_number, run_pure]
  · simp only [readConstant, run_bind, run_number, run_pure]
  · simp only [readConstant, run_bind, run_number, run_pure]
  · simp only [readConstant]
    cases plainSize? tag with
    | some size => simp only [run_bind, run_skip, bind_map_left, run_pure]
    | none => rfl

theorem run_constants (count index : Nat) (found : Array PoolEntry) (c : Cursor) :
    (constants count index found).run c = readEntries count index c found := by
  induction hleft : count - index using Nat.strong_induction_on generalizing index c found with
  | h left ih =>
      rw [constants]
      by_cases hlt : index < count
      · have htag : readTag c = (fun r => (UInt8.ofNat r.1, r.2)) <$> c.number 1 := rfl
        rw [if_pos hlt, readEntries_of_lt hlt, htag]
        simp only [run_bind, run_here, pure_bind, run_number, run_constant, bind_map_left]
        refine bind_congr ?_
        intro tag
        refine bind_congr ?_
        intro constant
        have hslots := slots_pos (UInt8.ofNat tag.1)
        exact ih _ (by omega) _ _ _ rfl
      · rw [if_neg hlt, readEntries_of_le (by omega), run_pure]
        rfl

theorem run_pool (c : Cursor) : pool.run c = ConstantPool.read c := by
  simp only [pool, ConstantPool.read, run_bind, run_number, run_here, pure_bind, run_constants,
    run_pure]

theorem run_attributes (count : Nat) (c : Cursor) :
    (attributes count).run c = (fun after => ((), after)) <$> skipAttributes count c := by
  induction count generalizing c with
  | zero => rfl
  | succ count ih =>
      simp only [attributes, skipAttributes, run_bind, run_skip, bind_map_left, run_number, ih,
        map_bind]

theorem run_members (pool : ConstantPool) (count : Nat) (found : List String) (c : Cursor) :
    (members pool count found).run c = memberTypes pool count c found := by
  induction count generalizing c found with
  | zero => rfl
  | succ count ih =>
      simp only [members, memberTypes, run_bind, run_skip, bind_map_left, run_number, run_here,
        pure_bind, run_decided, run_attributes, ih]

theorem run_allMembers (pool : ConstantPool) (c : Cursor) :
    (allMembers pool).run c = membersTypes pool c := by
  simp only [allMembers, membersTypes, run_bind, run_number, run_members, run_pure]

theorem run_classes (bytes : Bytes) :
    Prod.fst <$> classes.run (start bytes) = references bytes := by
  simp only [classes, references, run_bind, run_number, map_bind]
  refine bind_congr ?_
  rintro ⟨found, c⟩
  by_cases hmagic : found ≠ magic
  · simp only [if_pos hmagic]
    rfl
  · simp only [if_neg hmagic, run_bind, run_pure, pure_bind, run_skip, run_number, run_here,
      run_pool, run_decided, run_allMembers, bind_map_left, map_bind, map_pure]

end Inquiry

/-! ## What is said about class files -/

/-- The slices that are read of a class file, up to the error if there is one. -/
def way (bytes : Bytes) : List Slice := Inquiry.classes.slices (start bytes)

/-- A class file is read slice by slice.  The slices are those that were asked for, and the cursor
stays within the bytes and never goes back.  An error says what is true of the bytes. -/
theorem references_truthful (bytes : Bytes) :
    Prod.fst <$> Inquiry.classes.run (start bytes) = references bytes ∧
    Follow bytes 0 (way bytes) ∧
    (∀ slice ∈ way bytes, slice.ending ≤ bytes.length) ∧
    (0 :: (way bytes).map Slice.ending).Pairwise (· ≤ ·) ∧
    ∀ e, references bytes = .error e → Truthful bytes e := by
  have hfollow : Follow bytes 0 (way bytes) :=
    Inquiry.follow_slices Inquiry.classes (within_start bytes)
  refine ⟨Inquiry.run_classes bytes, hfollow, hfollow.ending_le, hfollow.pairwise, ?_⟩
  intro e herror
  have hfaithful := faithful_references bytes
  rw [herror] at hfaithful
  exact hfaithful.truthful

/-- A class file whose only constant begins with a tag that no constant has. -/
def oddTag : Bytes := [0xCA, 0xFE, 0xBA, 0xBE, 0, 0, 0, 52, 0, 2, 2]

theorem references_truthful_oddTag :
    references oddTag = .error (.unknownTag 2 1 10) ∧
      Truthful oddTag (.unknownTag 2 1 10) := by
  have herror : references oddTag = .error (.unknownTag 2 1 10) := by cbv
  obtain ⟨-, -, -, -, htruthful⟩ := references_truthful oddTag
  exact ⟨herror, htruthful _ herror⟩

end ClassFile
end Freshness
