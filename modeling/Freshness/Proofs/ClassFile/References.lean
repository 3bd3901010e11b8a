import Freshness.Proofs.ClassFile.Reading
import Freshness.Proofs.Text.Lines

/-!
# What a class file refers to

Bytes are read as a class file just when they begin with a skeleton whose references lead to
constants of the right kind.
-/

namespace Freshness
namespace ClassFile

open Cursor

theorem foldl_firstOccurrences (texts : List String) (seen : Std.HashSet String)
    (out : Array String) (hseen : ∀ text, text ∈ seen ↔ text ∈ out) :
    (texts.foldl (fun (seen : Std.HashSet String × Array String) text =>
      if seen.1.contains text then seen else (seen.1.insert text, seen.2.push text))
        (seen, out)).2.toList =
      out.toList ++ (texts.filter (· ∉ out)).eraseDups := by
  induction texts generalizing seen out with
  | nil => simp
  | cons text rest ih =>
      rw [List.foldl_cons]
      by_cases h : text ∈ out
      · have hcontains : seen.contains text = true := (hseen text).mpr h
        rw [if_pos hcontains, ih seen out hseen, List.filter_cons_of_neg (by simpa using h)]
      · have hcontains : ¬ seen.contains text = true := fun hmem => h ((hseen text).mp hmem)
        have hpush : ∀ other, other ∈ seen.insert text ↔ other ∈ out.push text := by
          intro other
          rw [Std.HashSet.mem_insert, Array.mem_push, hseen other, beq_iff_eq, eq_comm, or_comm]
        have hfilter : rest.filter (· ∉ out.push text) =
            (rest.filter (· ∉ out)).filter fun other => !other == text := by
          rw [List.filter_filter]
          apply List.filter_congr
          intro other _
          by_cases hother : other = text <;> simp [hother]
        rw [if_neg hcontains, ih _ _ hpush, List.filter_cons_of_pos (by simpa using h),
          List.eraseDups_cons, hfilter, Array.toList_push, List.append_assoc, List.singleton_append]

theorem firstOccurrences_eq_eraseDups (texts : List String) :
    firstOccurrences texts = texts.eraseDups := by
  rw [firstOccurrences, foldl_firstOccurrences texts ∅ #[] (by simp),
    List.filter_eq_self.mpr (by simp)]
  rfl

theorem Skeleton.symbols_eq {s : Skeleton} {own : String}
    (hown : classAt? s.pool s.thisClass = some own) :
    s.symbols = firstOccurrences ((s.types.map toSymbol).filter (· ≠ toSymbol own)) := by
  simp [Skeleton.symbols, hown, firstOccurrences_eq_eraseDups]

theorem exists_skeleton_of_references {bytes : Bytes} {symbols : List String}
    (h : references bytes = .ok symbols) :
    ∃ (s : Skeleton) (tail : Bytes),
      bytes = s.encode ++ tail ∧ s.Resolved ∧ symbols = s.symbols := by
  simp only [references, bind_eq_ok_iff, Prod.exists] at h
  obtain ⟨found, c₀, hmagic, h⟩ := h
  have hfound : found = magic := by
    by_contra hne
    rw [if_pos hne] at h
    cases h
  subst hfound
  rw [if_neg (by simp)] at h
  simp only [bind_eq_ok_iff, Prod.exists] at h
  obtain ⟨c₁, hversion, pool, c₂, hpool, c₃, haccess, _, c₄, hthis, own, hown, c₅, hsuper, n,
    c₆, hcount, c₇, hinterfaces, inPool, hinPool, inFields, c₈, hinFields, inMethods, c₉,
    hinMethods, hsymbols⟩ := h
  obtain ⟨-, h₀⟩ := number_eq_ok_iff.mp hmagic
  obtain ⟨minor, major, h₁⟩ := skip_twoShorts_eq_ok_iff.mp hversion
  obtain ⟨count, items, hfills, rfl, h₂⟩ := readPool_eq_ok_iff.mp hpool
  obtain ⟨access, h₃⟩ := skip_short_eq_ok_iff.mp haccess
  obtain ⟨thisClass, rfl, h₄⟩ := number_short_eq_ok_iff.mp hthis
  obtain ⟨superClass, h₅⟩ := skip_short_eq_ok_iff.mp hsuper
  obtain ⟨interfaces, h₆⟩ := counted_any_iff.mp
    ⟨n, c₆, hcount, skip_shorts_eq_ok_iff.mp hinterfaces⟩
  obtain ⟨fields, ⟨hfields, rfl⟩, h₇⟩ := membersTypes_eq_ok_iff.mp hinFields
  obtain ⟨methods, ⟨hmethods, rfl⟩, h₈⟩ := membersTypes_eq_ok_iff.mp hinMethods
  obtain ⟨hconstants, rfl⟩ := poolTypes_eq_ok_iff.mp hinPool
  rw [className_eq_ok_iff] at hown
  let s : Skeleton := ⟨minor, major, count, items, hfills, access, thisClass, superClass,
    interfaces, fields, methods⟩
  have hmoves : ∃ c', Moves (start bytes) s.encode c' := by
    refine ⟨c₉, ?_⟩
    obtain ⟨c₁', hminor, hmajor⟩ := moves_append.mp h₁
    obtain ⟨c₂', hcount', hitems⟩ := moves_append.mp h₂
    simp only [Skeleton.encode, List.flatten_cons, List.flatten_nil, List.append_nil, moves_append]
    exact ⟨c₀, h₀, c₁', hminor, c₁, hmajor, c₂', hcount', c₂, hitems, c₃, h₃, c₄, h₄, c₅, h₅,
      c₇, h₆, c₈, h₇, h₈⟩
  obtain ⟨tail, hbytes⟩ := moves_start.mp hmoves
  refine ⟨s, tail, hbytes, ⟨⟨own, hown⟩, hconstants, ?_⟩, ?_⟩
  · exact List.forall_mem_append.mpr ⟨hfields, hmethods⟩
  · rw [Skeleton.symbols_eq (s := s) hown]
    cases hsymbols
    rfl

theorem references_of_moves {bytes : Bytes} {s : Skeleton} {last : Cursor}
    (hmoves : Moves (start bytes) s.encode last) (hresolved : s.Resolved) :
    references bytes = .ok s.symbols := by
  obtain ⟨own, hown⟩ := hresolved.own
  obtain ⟨hfields, hmethods⟩ := List.forall_mem_append.mp hresolved.members
  simp only [Skeleton.encode, List.flatten_cons, List.flatten_nil, List.append_nil,
    moves_append] at hmoves
  obtain ⟨c₀, h₀, c₁', hminor, c₁, hmajor, c₂', hcount, c₂, hitems, c₃, h₃, c₄, h₄, c₅, h₅,
    c₇, h₆, c₈, h₇, h₈⟩ := hmoves
  let pool := poolFrom (c₁.offset + 2) s.pool
  have hmagic : (start bytes).number 4 = .ok (magic, c₀) :=
    number_eq_ok_iff.mpr ⟨by decide, h₀⟩
  have hversion : c₀.skip 4 = .ok c₁ := skip_twoShorts_eq_ok_iff.mpr
    ⟨s.minor, s.major, moves_append.mpr ⟨c₁', hminor, hmajor⟩⟩
  have hpool : ConstantPool.read c₁ = .ok (pool, c₂) := readPool_eq_ok_iff.mpr
    ⟨s.count, s.pool, s.fills, rfl, moves_append.mpr ⟨c₂', hcount, hitems⟩⟩
  have haccess : c₂.skip 2 = .ok c₃ := skip_short_eq_ok_iff.mpr ⟨s.access, h₃⟩
  have hthis : c₃.number 2 = .ok (s.thisClass.toNat, c₄) :=
    number_short_eq_ok_iff.mpr ⟨s.thisClass, rfl, h₄⟩
  have hname : pool.className s.thisClass.toNat c₃.offset = .ok own :=
    className_eq_ok_iff.mpr hown
  have hsuper : c₄.skip 2 = .ok c₅ := skip_short_eq_ok_iff.mpr ⟨s.superClass, h₅⟩
  obtain ⟨n, c₆, hlength, hinterfaces⟩ := counted_any_iff.mpr ⟨s.interfaces, h₆⟩
  have hinPool : poolTypes pool = .ok (s.pool.flatMap (Item.types s.pool)) :=
    poolTypes_eq_ok_iff.mpr ⟨hresolved.constants, rfl⟩
  have hinFields : membersTypes pool c₇ =
      .ok (s.fields.items.flatMap (Member.types s.pool), c₈) :=
    membersTypes_eq_ok_iff.mpr ⟨s.fields, ⟨hfields, rfl⟩, h₇⟩
  have hinMethods : membersTypes pool c₈ =
      .ok (s.methods.items.flatMap (Member.types s.pool), last) :=
    membersTypes_eq_ok_iff.mpr ⟨s.methods, ⟨hmethods, rfl⟩, h₈⟩
  rw [Skeleton.symbols_eq hown]
  simp only [references, bind_eq_ok_iff, Prod.exists]
  refine ⟨magic, c₀, hmagic, ?_⟩
  rw [if_neg (by simp)]
  simp only [bind_eq_ok_iff, Prod.exists]
  exact ⟨c₁, hversion, pool, c₂, hpool, c₃, haccess, _, c₄, hthis, own, hname, c₅, hsuper, n, c₆,
    hlength, c₇, skip_shorts_eq_ok_iff.mpr hinterfaces, _, hinPool, _, c₈, hinFields, _, last,
    hinMethods, rfl⟩

/-- Bytes are accepted just when they begin with a resolved skeleton, and then exactly its symbols
are reported. -/
theorem references_eq_ok_iff (bytes : Bytes) (symbols : List String) :
    references bytes = .ok symbols ↔
      ∃ (s : Skeleton) (tail : Bytes),
        bytes = s.encode ++ tail ∧ s.Resolved ∧ symbols = s.symbols := by
  constructor
  · exact exists_skeleton_of_references
  · rintro ⟨s, tail, hbytes, hresolved, rfl⟩
    obtain ⟨last, hmoves⟩ := moves_start.mpr ⟨tail, hbytes⟩
    exact references_of_moves hmoves hresolved

/-! ## References as texts -/

theorem ne_nil_of_mem_scanNames {pending : Option (List Char)} {descriptor : List Char} :
    ∀ letters ∈ scanNames pending descriptor, letters ≠ [] := by
  fun_induction scanNames pending descriptor with
  | case1 => simp
  | case2 c rest ih => exact ih
  | case3 rest ih => exact ih
  | case4 rest letters hne ih =>
      exact List.forall_mem_cons.mpr ⟨by simpa using hne, ih⟩
  | case5 c rest letters hc ih => exact ih

theorem ne_nil_of_mem_objectTypes {descriptor name : String} (h : name ∈ objectTypes descriptor) :
    name.toList ≠ [] := by
  obtain ⟨letters, hletters, rfl⟩ := List.mem_map.mp h
  rw [String.toList_ofList]
  exact ne_nil_of_mem_scanNames letters hletters

theorem ne_nil_of_classEntryType? {name type : String} (h : classEntryType? name = some type) :
    type.toList ≠ [] := by
  unfold classEntryType? at h
  split at h
  · exact ne_nil_of_mem_objectTypes (List.mem_of_mem_head? h)
  · split at h
    · cases h
    next hempty =>
      cases h
      rw [Ne, String.toList_eq_nil_iff]
      simpa using hempty

theorem Skeleton.ne_nil_of_mem_types {s : Skeleton} {type : String} (h : type ∈ s.types) :
    type.toList ≠ [] := by
  have hdescriptor : ∀ {text? : Option String}, type ∈ text?.toList.flatMap objectTypes →
      type.toList ≠ [] := by
    intro text? hmem
    obtain ⟨text, -, htype⟩ := List.mem_flatMap.mp hmem
    exact ne_nil_of_mem_objectTypes htype
  simp only [Skeleton.types, List.mem_append, List.mem_flatMap] at h
  obtain (⟨item, -, hitem⟩ | ⟨member, -, hmember⟩) | ⟨member, -, hmember⟩ := h
  · cases item with
    | utf8 content => cases hitem
    | plain kind content => cases hitem
    | classEntry nameIndex =>
        obtain ⟨name, -, hname⟩ := List.mem_filterMap.mp hitem
        exact ne_nil_of_classEntryType? hname
    | nameAndType nameIndex descriptorIndex => exact hdescriptor hitem
    | methodType descriptorIndex => exact hdescriptor hitem
  · exact hdescriptor hmember
  · exact hdescriptor hmember

/-- No reference is empty. -/
theorem ne_nil_of_references {bytes : Bytes} {symbols : List String}
    (h : references bytes = .ok symbols) : ∀ symbol ∈ symbols, symbol.toList ≠ [] := by
  obtain ⟨s, tail, -, -, rfl⟩ := exists_skeleton_of_references h
  intro symbol hsymbol
  rw [Skeleton.symbols, List.mem_eraseDups] at hsymbol
  obtain ⟨type, htype, rfl⟩ := List.mem_map.mp (List.mem_filter.mp hsymbol).1
  rw [toSymbol, String.toList_ofList, Ne, List.map_eq_nil_iff]
  exact s.ne_nil_of_mem_types htype

/-- References without a newline, and without a carriage return at the end, fit on lines. -/
theorem fits_of_references {bytes : Bytes} {symbols : List String}
    (h : references bytes = .ok symbols) (hlines : ∀ symbol ∈ symbols, Lines.Unbroken symbol) :
    ∀ symbol ∈ symbols, Lines.Fits symbol := by
  intro symbol hsymbol
  obtain ⟨hnewline, hreturn⟩ := hlines symbol hsymbol
  exact ⟨ne_nil_of_references h symbol hsymbol, hnewline, hreturn⟩

/-! ## A class file with one reference -/

/-- The class `A`, whose constants mention one more class. -/
def referring (name : Counted 2 UInt8) : Skeleton where
  minor := 0
  major := 52
  count := 5
  pool := [.classEntry 2, .utf8 ⟨[0x41], by decide⟩, .classEntry 4, .utf8 name]
  fills := .more (by decide) (.more (by decide) (.more (by decide) (.more (by decide)
    (.done (Nat.le_refl 5)))))
  access := 0x20
  thisClass := 1
  superClass := 0
  interfaces := ⟨[], by decide⟩
  fields := ⟨[], by decide⟩
  methods := ⟨[], by decide⟩

section Referring

variable (name : Counted 2 UInt8)

theorem textAt?_referring_own : textAt? (referring name).pool 2 = some "A" := by
  have hname : Utf8.decodeLossy [0x41] = "A" := by decide
  simp [textAt?, itemAt?, referring, Item.slots, hname]

theorem textAt?_referring_other :
    textAt? (referring name).pool 4 = some (Utf8.decodeLossy name.items) := by
  simp [textAt?, itemAt?, referring, Item.slots]

theorem classAt?_referring : classAt? (referring name).pool (referring name).thisClass = some "A" :=
  textAt?_referring_own name

theorem resolved_referring : (referring name).Resolved where
  own := ⟨"A", classAt?_referring name⟩
  constants := by
    intro item hitem index hindex
    simp only [referring, List.mem_cons, List.not_mem_nil, or_false] at hitem
    obtain rfl | rfl | rfl | rfl := hitem
    · cases hindex
      exact ⟨_, textAt?_referring_own name⟩
    · cases hindex
    · cases hindex
      exact ⟨_, textAt?_referring_other name⟩
    · cases hindex
  members := by
    intro m hm
    cases hm

theorem types_referring : (referring name).types =
    "A" :: (classEntryType? (Utf8.decodeLossy name.items)).toList := by
  have hown : classEntryType? "A" = some "A" := by decide
  have hpool : (referring name).types = List.flatMap (Item.types (referring name).pool)
      [.classEntry 2, .utf8 ⟨[0x41], by decide⟩, .classEntry 4, .utf8 name] ++ [] ++ [] := rfl
  rw [hpool]
  simp only [List.flatMap_cons, List.flatMap_nil, List.append_nil, Item.types,
    textAt?_referring_own, textAt?_referring_other]
  cases hother : classEntryType? (Utf8.decodeLossy name.items) <;> simp [hown, hother]

/-- What is reported of the class `A` is the other class. -/
theorem references_referring {mentioned : String}
    (hmentioned : classEntryType? (Utf8.decodeLossy name.items) = some mentioned)
    (hother : toSymbol mentioned ≠ "A") :
    references (referring name).encode = .ok [toSymbol mentioned] := by
  have hown : toSymbol "A" = "A" := by decide
  obtain ⟨last, hmoves⟩ := moves_start.mpr ⟨[], (List.append_nil (referring name).encode).symm⟩
  rw [references_of_moves hmoves (resolved_referring name), Skeleton.symbols, types_referring,
    classAt?_referring, hmentioned]
  simp [hown, hother, List.eraseDups_cons]

end Referring

end ClassFile
end Freshness
