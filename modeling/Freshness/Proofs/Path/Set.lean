import Freshness.Path.Set
import Freshness.Proofs.Table
import Mathlib.Data.List.Basic

/-!
# Sets of paths

A set of paths counts paths with the same components as one, and lists its paths in the
order of their components.  Going through a list of paths with such a set keeps, of the
paths with the same components, the first.
-/

namespace Freshness

theorem Path.key_eq_key_iff {p q : Path} :
    p.key = q.key ↔ p.components = q.components := by
  constructor
  · intro h
    refine List.map_injective_iff.mpr ?_ h
    intro c d hcd
    cases c <;> cases d <;> simp_all
  · intro h
    rw [Path.key, Path.key, h]

namespace PathSet

@[simp] theorem contains_empty (p : Path) :
    ({} : PathSet).contains p = false := by
  simp [contains]

theorem contains_insert (seen : PathSet) (p q : Path) :
    (seen.insert p).contains q = true ↔
      p.key = q.key ∨ seen.contains q = true := by
  simp [contains, insert, Std.TreeMap.contains_insertIfNew]

/-- The paths of a list that are not in the set, and of those with the same
components only the first. -/
def firsts (seen : PathSet) : List Path → List Path
  | [] => []
  | p :: rest =>
      if seen.contains p then firsts seen rest
      else p :: firsts (seen.insert p) rest

theorem mem_of_mem_firsts {seen : PathSet} {paths : List Path} {p : Path}
    (h : p ∈ seen.firsts paths) :
    p ∈ paths ∧ seen.contains p = false := by
  induction paths generalizing seen with
  | nil => simp [firsts] at h
  | cons q rest ih =>
      by_cases hq : seen.contains q = true
      · rw [firsts, if_pos hq] at h
        obtain ⟨hmem, hfresh⟩ := ih h
        exact ⟨List.mem_cons_of_mem q hmem, hfresh⟩
      · rw [firsts, if_neg hq] at h
        rcases List.mem_cons.mp h with rfl | hrest
        · exact ⟨List.mem_cons_self, by simpa using hq⟩
        · obtain ⟨hmem, hfresh⟩ := ih hrest
          refine ⟨List.mem_cons_of_mem q hmem, Bool.eq_false_iff.mpr ?_⟩
          intro hseen
          have hin : (seen.insert q).contains p = true :=
            (contains_insert seen q p).mpr (Or.inr hseen)
          rw [hfresh] at hin
          exact Bool.false_ne_true hin

/-- No two first occurrences have the same components. -/
theorem firsts_pairwise (seen : PathSet) (paths : List Path) :
    (seen.firsts paths).Pairwise fun p q => p.key ≠ q.key := by
  induction paths generalizing seen with
  | nil => exact List.Pairwise.nil
  | cons p rest ih =>
      by_cases hp : seen.contains p = true
      · rw [firsts, if_pos hp]
        exact ih seen
      · rw [firsts, if_neg hp]
        refine List.Pairwise.cons ?_ (ih _)
        intro q hq hkey
        have hfresh := (mem_of_mem_firsts hq).2
        have hin : (seen.insert p).contains q = true :=
          (contains_insert seen p q).mpr (Or.inl hkey)
        rw [hfresh] at hin
        exact Bool.false_ne_true hin

/-- Every path of a list is in the set or has a first occurrence. -/
theorem exists_mem_firsts (seen : PathSet) {paths : List Path} {p : Path}
    (h : p ∈ paths) :
    seen.contains p = true ∨ ∃ q ∈ seen.firsts paths, q.key = p.key := by
  induction paths generalizing seen with
  | nil => simp at h
  | cons q rest ih =>
      by_cases hq : seen.contains q = true
      · rw [firsts, if_pos hq]
        rcases List.mem_cons.mp h with rfl | hrest
        · exact Or.inl hq
        · exact ih seen hrest
      · rw [firsts, if_neg hq]
        rcases List.mem_cons.mp h with rfl | hrest
        · exact Or.inr ⟨p, List.mem_cons_self, rfl⟩
        · rcases ih (seen.insert q) hrest with hin | ⟨r, hr, hkey⟩
          · rcases (contains_insert seen q p).mp hin with hkey | hseen
            · exact Or.inr ⟨q, List.mem_cons_self, hkey⟩
            · exact Or.inl hseen
          · exact Or.inr ⟨r, List.mem_cons_of_mem q hr, hkey⟩

/-! ## What a set holds -/

/-- Every path is kept under its own components. -/
def Keyed (s : PathSet) : Prop :=
  ∀ (key : List Name) p, s.byKey[key]? = some p → p.key = key

theorem mem_toList_iff {s : PathSet} {p : Path} :
    p ∈ s.toList ↔ ∃ key : List Name, s.byKey[key]? = some p :=
  mem_values_iff

theorem keyed_empty : Keyed {} := by
  intro key p h
  simp at h

theorem Keyed.insert {s : PathSet} (h : s.Keyed) (p : Path) : (s.insert p).Keyed := by
  intro key q hq
  rw [PathSet.insert, Std.TreeMap.getElem?_insertIfNew] at hq
  split at hq
  next hkey =>
    obtain rfl := Option.some.inj hq
    simpa using hkey.1
  next => exact h key q hq

/-- A set holds a path if it lists one with the same components. -/
theorem Keyed.contains_iff {s : PathSet} (h : s.Keyed) (p : Path) :
    s.contains p = true ↔ ∃ q ∈ s.toList, q.key = p.key := by
  rw [contains, Std.TreeMap.contains_eq_isSome_getElem?, Option.isSome_iff_exists]
  constructor
  · rintro ⟨q, hq⟩
    exact ⟨q, mem_toList_iff.mpr ⟨p.key, hq⟩, h p.key q hq⟩
  · rintro ⟨q, hq, hkey⟩
    obtain ⟨key, hfound⟩ := mem_toList_iff.mp hq
    rw [← hkey, h key q hfound]
    exact ⟨q, hfound⟩

/-- A path that is inserted is listed unless one with its components is listed already. -/
theorem mem_toList_insert {s : PathSet} {p q : Path} :
    q ∈ (s.insert p).toList ↔ q ∈ s.toList ∨ q = p ∧ s.contains p = false := by
  simp only [mem_toList_iff, PathSet.insert, Std.TreeMap.getElem?_insertIfNew]
  constructor
  · rintro ⟨key, hq⟩
    split at hq
    next hkey => exact Or.inr ⟨(Option.some.inj hq).symm, Bool.eq_false_iff.mpr hkey.2⟩
    next => exact Or.inl ⟨key, hq⟩
  · rintro (⟨key, hq⟩ | ⟨rfl, hfresh⟩)
    · refine ⟨key, ?_⟩
      rw [if_neg, hq]
      rintro ⟨hkey, hfresh⟩
      rw [Std.LawfulEqOrd.eq_of_compare hkey, Std.TreeMap.mem_iff_isSome_getElem?, hq] at hfresh
      exact hfresh rfl
    · exact ⟨q.key, if_pos ⟨by simp, Bool.eq_false_iff.mp hfresh⟩⟩

theorem Keyed.foldl_insert {s : PathSet} (h : s.Keyed) (paths : List Path) :
    (paths.foldl PathSet.insert s).Keyed :=
  List.foldlRecOn paths PathSet.insert h fun _ h p _ => h.insert p

theorem contains_foldl_insert (s : PathSet) (paths : List Path) (p : Path) :
    (paths.foldl insert s).contains p = true ↔
      s.contains p = true ∨ ∃ q ∈ paths, q.key = p.key := by
  induction paths generalizing s with
  | nil => simp
  | cons q rest ih =>
      simp only [List.foldl_cons, ih, contains_insert, List.mem_cons, exists_eq_or_imp]
      rw [or_assoc, or_left_comm]

theorem mem_of_mem_foldl_insert {s : PathSet} {paths : List Path} {p : Path}
    (h : p ∈ (paths.foldl insert s).toList) : p ∈ s.toList ∨ p ∈ paths := by
  induction paths generalizing s with
  | nil => exact Or.inl h
  | cons q rest ih =>
      rcases ih h with hmem | hmem
      · rcases mem_toList_insert.mp hmem with hmem | ⟨rfl, -⟩
        · exact Or.inl hmem
        · exact Or.inr List.mem_cons_self
      · exact Or.inr (List.mem_cons_of_mem q hmem)

theorem isEmpty_iff {s : PathSet} : s.isEmpty = true ↔ s.toList = [] := by
  rw [isEmpty, toList, values_eq, List.map_eq_nil_iff, ← List.isEmpty_iff,
    Std.TreeMap.isEmpty_toList]

/-- Paths are listed in the order of their components, and of those with the same ones
there is only one. -/
theorem Keyed.pairwise_toList {s : PathSet} (h : s.Keyed) :
    s.toList.Pairwise fun p q => compare p.key q.key = .lt :=
  pairwise_values_of_keyed h

/-- The first path with a property in the list of a set is the least one. -/
theorem Keyed.find?_eq_some_iff {s : PathSet} (h : s.Keyed) {f : Path → Bool} {p : Path} :
    s.toList.find? f = some p ↔ p ∈ s.toList ∧ f p = true ∧
      ∀ q ∈ s.toList, f q = true → (compare p.key q.key).isLE = true := by
  have hsorted := h.pairwise_toList
  generalize s.toList = paths at hsorted
  rw [List.find?_eq_some_iff_append]
  constructor
  · rintro ⟨hp, before, after, rfl, hbefore⟩
    refine ⟨by simp, hp, fun q hq hfq => ?_⟩
    rcases List.mem_append.mp hq with hq | hq
    · exact absurd hfq (by simpa using hbefore q hq)
    · rcases List.mem_cons.mp hq with rfl | hq
      · simp
      · have hlt := (List.pairwise_cons.mp (List.pairwise_append.mp hsorted).2.1).1 q hq
        rw [hlt]
        rfl
  · rintro ⟨hp, hfp, hleast⟩
    obtain ⟨before, after, rfl⟩ := List.append_of_mem hp
    refine ⟨hfp, before, after, rfl, fun q hq => ?_⟩
    have hlt := (List.pairwise_append.mp hsorted).2.2 q hq p List.mem_cons_self
    by_contra hfq
    have hle := hleast q (List.mem_append_left _ hq) (by simpa using hfq)
    rw [Std.OrientedCmp.gt_of_lt hlt] at hle
    cases hle

/-- The paths in a set are of the given ones, one for all that have its components. -/
structure Holds (s : PathSet) (given : Path → Prop) : Prop where
  of_mem : ∀ p ∈ s.toList, given p
  exists_mem : ∀ p, given p → ∃ q ∈ s.toList, q.components = p.components
  pairwise : s.toList.Pairwise fun p q => compare p.key q.key = .lt

theorem holds_foldl_insert (paths : List Path) :
    (paths.foldl insert ({} : PathSet)).Holds (· ∈ paths) := by
  have hkeyed := keyed_empty.foldl_insert paths
  refine ⟨fun p hp => ?_, fun p hp => ?_, hkeyed.pairwise_toList⟩
  · refine (mem_of_mem_foldl_insert hp).resolve_left fun hnone => ?_
    obtain ⟨key, hkey⟩ := mem_toList_iff.mp hnone
    simp at hkey
  · obtain ⟨q, hq, hkey⟩ := (hkeyed.contains_iff p).mp
      ((contains_foldl_insert _ paths p).mpr (Or.inr ⟨p, hp, rfl⟩))
    exact ⟨q, hq, Path.key_eq_key_iff.mp hkey⟩

end PathSet
end Freshness
