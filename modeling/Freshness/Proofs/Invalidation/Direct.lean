import Freshness.Proofs.Graph
import Freshness.Proofs.Invalidation.Sweep
import Mathlib

/-!
# Direct invalidation

Without closure, a sweep goes through the units that refer to an identity that is out
of date, then through the units that are out of date themselves, and takes with each
of them the unit that encloses it.  The units that come in as enclosing ones are not
asked for dependents or for a unit that encloses them.
-/

namespace Freshness
namespace Invalidation

open DependencyGraph

/-- A unit, and the unit of the graph that encloses it. -/
def withEnclosing (g : DependencyGraph) (unit : CompiledUnit) :
    List CompiledUnit :=
  unit :: ((Identity.enclosing? unit.id).bind g.unit?).toList

theorem removeWithEnclosing_eq
    (g : DependencyGraph) (s : Sweep) (unit : CompiledUnit) :
    Sweep.removeWithEnclosing g s unit =
      (withEnclosing g unit).foldl Sweep.remove s := by
  unfold Sweep.removeWithEnclosing withEnclosing
  cases (Identity.enclosing? unit.id).bind g.unit? <;> rfl

theorem foldl_removeWithEnclosing
    (g : DependencyGraph) (s : Sweep) (units : List CompiledUnit) :
    units.foldl (Sweep.removeWithEnclosing g) s =
      (units.flatMap (withEnclosing g)).foldl Sweep.remove s := by
  have hstep : Sweep.removeWithEnclosing g =
      fun s unit => (withEnclosing g unit).foldl Sweep.remove s := by
    funext s unit
    exact removeWithEnclosing_eq g s unit
  rw [hstep, List.foldl_flatMap]

theorem sweepDirect_eq
    (g : DependencyGraph) (ids : List Identity) (s : Sweep) :
    sweepDirect g ids s =
      ((ids.flatMap g.dependents).flatMap (withEnclosing g)).foldl
        Sweep.remove s := by
  rw [sweepDirect, ← foldl_removeWithEnclosing, List.foldl_flatMap]

/-- A unit that is out of date, or that refers to an identity which is. -/
def AffectedDirectly (g : DependencyGraph) (stale : OutOfDate)
    (unit : CompiledUnit) : Prop :=
  g.unit? unit.id = some unit ∧
    (unit.id ∈ stale ∨ ∃ id ∈ stale, g.Affects id unit.id)

/-- A unit that is affected directly, or that encloses one that is. -/
def AffectedOrEnclosing (g : DependencyGraph) (stale : OutOfDate)
    (unit : CompiledUnit) : Prop :=
  AffectedDirectly g stale unit ∨
    g.unit? unit.id = some unit ∧
      ∃ nested, AffectedDirectly g stale nested ∧
        Identity.enclosing? nested.id = some unit.id

variable {g : DependencyGraph}

theorem mem_withEnclosing (hg : g.WellFormed) (nested unit : CompiledUnit) :
    unit ∈ withEnclosing g nested ↔ unit = nested ∨
      g.unit? unit.id = some unit ∧
        Identity.enclosing? nested.id = some unit.id := by
  rw [withEnclosing, List.mem_cons, Option.mem_toList,
    Option.bind_eq_some_iff]
  apply or_congr Iff.rfl
  constructor
  · rintro ⟨id, henclosing, hunit⟩
    rw [hg.unit?_id hunit]
    exact ⟨hunit, henclosing⟩
  · rintro ⟨hunit, henclosing⟩
    exact ⟨unit.id, henclosing, hunit⟩

/-- Without closure, an invalidation sweeps the units that are affected directly and
those that enclose them, in an order that depends on the graph only. -/
theorem exists_order_direct (hg : g.WellFormed) (stale : OutOfDate) :
    ∃ order : List CompiledUnit,
      (∀ unit, unit ∈ order ↔ AffectedOrEnclosing g stale unit) ∧
      ∀ dryRun fs, invalidate false dryRun g stale fs =
        order.foldl Sweep.remove { fileSystem := fs, dryRun } := by
  refine ⟨(stale.keys.flatMap g.dependents ++
    stale.keys.filterMap g.unit?).flatMap (withEnclosing g), ?_, ?_⟩
  · have hdirect : ∀ unit, unit ∈ stale.keys.flatMap g.dependents ++
        stale.keys.filterMap g.unit? ↔ AffectedDirectly g stale unit := by
      intro unit
      rw [List.mem_append, List.mem_flatMap, hg.mem_filterMap_unit?]
      simp only [hg.mem_dependents, Std.TreeMap.mem_keys, AffectedDirectly]
      constructor
      · rintro (⟨id, hid, hunit, haffects⟩ | ⟨hunit, hstale⟩)
        · exact ⟨hunit, Or.inr ⟨id, hid, haffects⟩⟩
        · exact ⟨hunit, Or.inl hstale⟩
      · rintro ⟨hunit, hstale | ⟨id, hid, haffects⟩⟩
        · exact Or.inr ⟨hunit, hstale⟩
        · exact Or.inl ⟨id, hid, hunit, haffects⟩
    intro unit
    rw [List.mem_flatMap, AffectedOrEnclosing]
    simp only [hdirect, mem_withEnclosing hg]
    constructor
    · rintro ⟨nested, hnested, rfl | ⟨hunit, henclosing⟩⟩
      · exact Or.inl hnested
      · exact Or.inr ⟨hunit, nested, hnested, henclosing⟩
    · rintro (hunit | ⟨hunit, nested, hnested, henclosing⟩)
      · exact ⟨unit, hunit, Or.inl rfl⟩
      · exact ⟨nested, hnested, Or.inr ⟨hunit, henclosing⟩⟩
  · intro dryRun fs
    simp only [invalidate, sweepRoots, Bool.false_eq_true, if_false]
    rw [sweepDirect_eq, foldl_removeWithEnclosing, ← List.foldl_append,
      ← List.flatMap_append]

/-- Without closure, an invalidation that only records lists the artifacts of the
units that are affected directly and of those that enclose them, and of no others. -/
theorem invalidate_direct_listsArtifacts
    {units : UnitMap} (hkeyed : units.Keyed)
    (given : Std.TreeMap Identity (List Identity))
    (stale : OutOfDate) (fs : FileSystem) :
    ListsArtifacts fs (AffectedOrEnclosing (ofReferences units given) stale)
      (invalidate false true (ofReferences units given) stale fs).removed := by
  obtain ⟨order, horder, heq⟩ :=
    exists_order_direct (wellFormed_ofReferences hkeyed given) stale
  rw [heq]
  exact listsArtifacts_of_order horder fs

/-- The artifacts of a class, of one nested in it and of two others. -/
def nestedArtifacts : FileSystem :=
  ["/out/A.class", "/out/A$I.class", "/out/B.class", "/out/C.class"].foldl
    (fun fs p => fs.addFile (Path.ofString p) 0 []) (FileSystem.empty 0)

/-- The units of these classes. -/
def nestedUnits : UnitMap :=
  Scan.ofUnits
    [⟨"A", Path.ofString "/out/A.class", Path.ofString "A"⟩,
      ⟨"A$I", Path.ofString "/out/A$I.class", Path.ofString "A$I"⟩,
      ⟨"B", Path.ofString "/out/B.class", Path.ofString "B"⟩,
      ⟨"C", Path.ofString "/out/C.class", Path.ofString "C"⟩]

/-- The nested class refers to `B`, and `C` to the class around the nested one. -/
def nestedReferences : Std.TreeMap Identity (List Identity) :=
  .ofList [("A$I", ["B"]), ("C", ["A"])]

/-- `B` is out of date. -/
def oneStale : OutOfDate := .ofList [("B", StaleReason.sourceNewer)]

/-- The class around the nested one goes with it. -/
theorem removed_nested :
    (invalidate false true (ofReferences nestedUnits nestedReferences)
      oneStale nestedArtifacts).removed =
      [Path.ofString "/out/A$I.class", Path.ofString "/out/A.class",
        Path.ofString "/out/B.class"] := by
  cbv

theorem invalidate_direct_nested :
    nestedUnits.Keyed ∧
      (invalidate false true (ofReferences nestedUnits nestedReferences)
        oneStale nestedArtifacts).removed =
        [Path.ofString "/out/A$I.class", Path.ofString "/out/A.class",
          Path.ofString "/out/B.class"] ∧
      ListsArtifacts nestedArtifacts
        (AffectedOrEnclosing (ofReferences nestedUnits nestedReferences)
          oneStale)
        (invalidate false true (ofReferences nestedUnits nestedReferences)
          oneStale nestedArtifacts).removed :=
  ⟨keyed_ofUnits _, removed_nested,
    invalidate_direct_listsArtifacts (keyed_ofUnits _) _ _ _⟩

/-- A file is left out here too when the same components come first in the spelling
of a directory. -/
theorem invalidate_direct_not_all_listed :
    ¬∀ unit, AffectedOrEnclosing (ofReferences spelledTwice {}) bothStale unit →
      oneArtifact.isFile unit.absolute = true →
      ∃ p ∈ (invalidate false true (ofReferences spelledTwice {}) bothStale
          oneArtifact).removed,
        p.components = unit.absolute.components := by
  intro h
  obtain ⟨p, hp, -⟩ := h
    ⟨"B", Path.ofString "/out/A.class", Path.ofString "A"⟩
    (Or.inl ⟨by cbv, Or.inl (by rw [Std.TreeMap.mem_iff_contains]; cbv)⟩)
    (by cbv)
  have hnone : (invalidate false true (ofReferences spelledTwice {}) bothStale
      oneArtifact).removed = [] := by cbv
  rw [hnone] at hp
  cases hp

end Invalidation
end Freshness
