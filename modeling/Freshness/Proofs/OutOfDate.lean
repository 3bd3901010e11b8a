import Freshness.OutOfDate
import Freshness.Proofs.Graph

/-!
# What is out of date

Sources and libraries are gone through in order, and the first reason that is found for an identity
stays.  The sources of one identity all give the same reason, if they give one, and only one set of
libraries is asked for it, so an identity is out of date exactly if one of the sources, or one of
the libraries of its unit, gives a reason.
-/

namespace Freshness

namespace OutOfDate

variable {fs : FileSystem} {g : DependencyGraph} {sources : List SourceUnit}
  {libraries : Option LibraryMap} {id : Identity}

/-! ## The first reason stays -/

theorem findSome?_eq_some_iff_exists {α β : Type} {f : α → Option β} {items : List α} {b : β}
    (hagree : ∀ a ∈ items, ∀ a' ∈ items, ∀ b b', f a = some b → f a' = some b' → b = b') :
    items.findSome? f = some b ↔ ∃ a ∈ items, f a = some b := by
  constructor
  · exact List.exists_of_findSome?_eq_some
  · rintro ⟨a, ha, hb⟩
    obtain ⟨b', hb'⟩ := Option.isSome_iff_exists.mp
      (List.findSome?_isSome_iff.mpr ⟨a, ha, Option.isSome_of_eq_some hb⟩)
    obtain ⟨a', ha', hfound⟩ := List.exists_of_findSome?_eq_some hb'
    rw [hb', hagree a' ha' a ha b' b hfound hb]

theorem getElem?_add (stale : OutOfDate) (x : Identity) (reason : Option StaleReason) :
    (add stale x reason)[id]? = (stale[id]?).or (if x = id then reason else none) := by
  cases reason with
  | none => simp [add]
  | some reason =>
      simp only [add, Std.TreeMap.getElem?_insertIfNew, Std.compare_eq_iff_eq,
        Std.TreeMap.mem_iff_isSome_getElem?]
      by_cases hx : x = id
      · subst hx
        cases stale[x]? <;> simp
      · simp [hx]

theorem getElem?_foldl_add {α : Type} (key : α → Identity) (reason? : α → Option StaleReason)
    (items : List α) (stale : OutOfDate) :
    (items.foldl (fun stale item => add stale (key item) (reason? item)) stale)[id]? =
      (stale[id]?).or
        (items.findSome? fun item => if key item = id then reason? item else none) := by
  induction items generalizing stale with
  | nil => simp
  | cons item rest ih =>
      rw [List.foldl_cons, ih, getElem?_add, Option.or_assoc, List.findSome?_cons]
      cases (if key item = id then reason? item else none) <;> simp

/-- All sources of an identity that give a reason give the same one. -/
theorem eq_of_sourceReason? {source source' : SourceUnit} {reason reason' : StaleReason}
    (hid : source.id = source'.id) (h : sourceReason? fs g source = some reason)
    (h' : sourceReason? fs g source' = some reason') : reason = reason' := by
  unfold sourceReason? at h h'
  rw [hid] at h
  cases hunit : g.unit? source'.id with
  | none => simp_all
  | some unit => grind

/-- The reason that sources give is that of any of them. -/
theorem getElem?_bySources {reason : StaleReason} :
    (bySources fs g sources)[id]? = some reason ↔
      ∃ source ∈ sources, source.id = id ∧ sourceReason? fs g source = some reason := by
  rw [bySources, getElem?_foldl_add SourceUnit.id, Std.TreeMap.getElem?_emptyc, Option.none_or,
    findSome?_eq_some_iff_exists]
  · simp
  · intro source _ source' _ reason reason' h h'
    simp only [Option.ite_none_right_eq_some] at h h'
    exact eq_of_sourceReason? (h.1.trans h'.1.symm) h.2 h'.2

theorem findSome?_libraryReason? (map : LibraryMap) :
    (map.toList.findSome? fun row =>
      if row.1 = id then libraryReason? fs g row.1 row.2 else none) =
      (map[id]?).bind (libraryReason? fs g id) := by
  ext reason
  rw [findSome?_eq_some_iff_exists, Option.bind_eq_some_iff]
  · simp only [Prod.exists, Std.TreeMap.mem_toList_iff_getElem?_eq_some,
      Option.ite_none_right_eq_some]
    constructor
    · rintro ⟨_, supplied, hsupplied, rfl, hreason⟩
      exact ⟨supplied, hsupplied, hreason⟩
    · rintro ⟨supplied, hsupplied, hreason⟩
      exact ⟨id, supplied, hsupplied, rfl, hreason⟩
  · rintro ⟨x, supplied⟩ hrow ⟨x', supplied'⟩ hrow' reason reason' h h'
    simp only [Option.ite_none_right_eq_some] at h h'
    obtain ⟨rfl, hreason⟩ := h
    obtain ⟨rfl, hreason'⟩ := h'
    rw [Std.TreeMap.mem_toList_iff_getElem?_eq_some] at hrow hrow'
    obtain rfl := Option.some.inj (hrow.symm.trans hrow')
    exact Option.some.inj (hreason.symm.trans hreason')

/-- Libraries are asked for a reason where the sources give none. -/
theorem getElem?_find :
    (find fs sources g libraries)[id]? = ((bySources fs g sources)[id]?).or
      ((libraries.bind (·[id]?)).bind (libraryReason? fs g id)) := by
  unfold find
  cases libraries with
  | none => simp
  | some map =>
      dsimp only
      rw [Std.TreeMap.foldl_eq_foldl_toList, getElem?_foldl_add Prod.fst,
        findSome?_libraryReason?, Option.bind_some]

/-- The libraries of a unit give a reason if one of them is newer than its artifact. -/
theorem isSome_libraryReason? {fs : FileSystem} {g : DependencyGraph} {id : Identity}
    {libraries : PathSet} :
    (libraryReason? fs g id libraries).isSome = true ↔
      ∃ unit, g.unit? id = some unit ∧
        ∃ p ∈ libraries.toList, fs.isNewer p unit.absolute = true := by
  unfold libraryReason?
  cases g.unit? id with
  | none => simp
  | some unit => simp [List.find?_isSome]

theorem mem_find {fs : FileSystem} {sources : List SourceUnit} {g : DependencyGraph}
    {libraries : Option LibraryMap} {id : Identity} :
    id ∈ find fs sources g libraries ↔
      (∃ source ∈ sources, id = source.id ∧ (sourceReason? fs g source).isSome = true) ∨
      ∃ map, libraries = some map ∧ ∃ supplied, map[id]? = some supplied ∧
        (libraryReason? fs g id supplied).isSome = true := by
  have hsources : ((bySources fs g sources)[id]?).isSome = true ↔
      ∃ source ∈ sources, id = source.id ∧ (sourceReason? fs g source).isSome = true := by
    simp only [Option.isSome_iff_exists, getElem?_bySources]
    constructor
    · rintro ⟨reason, source, hsource, rfl, hreason⟩
      exact ⟨source, hsource, rfl, reason, hreason⟩
    · rintro ⟨source, hsource, rfl, reason, hreason⟩
      exact ⟨reason, source, hsource, rfl, hreason⟩
  rw [Std.TreeMap.mem_iff_isSome_getElem?, getElem?_find, Option.isSome_or, Bool.or_eq_true,
    hsources]
  apply or_congr Iff.rfl
  simp only [Option.isSome_iff_exists, Option.bind_eq_some_iff]
  constructor
  · rintro ⟨reason, supplied, ⟨map, hmap, hsupplied⟩, hreason⟩
    exact ⟨map, hmap, supplied, hsupplied, reason, hreason⟩
  · rintro ⟨map, hmap, supplied, hsupplied, reason, hreason⟩
    exact ⟨reason, supplied, ⟨map, hmap, hsupplied⟩, hreason⟩

end OutOfDate
end Freshness
