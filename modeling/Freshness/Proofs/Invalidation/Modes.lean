import Freshness.Proofs.Invalidation.Closure
import Freshness.Proofs.Invalidation.Direct
import Mathlib

/-!
# Direct invalidation against invalidation through any number of steps

A unit that refers to an identity which is out of date is one step away from it, so
closure takes all that is affected directly.  It does not take the units that enclose
these on that account: the rule for nested classes belongs to direct invalidation.
What closure leaves of a direct invalidation are therefore artifacts of such
enclosing units.
-/

namespace Freshness

/-- Two lists of artifacts: what only the first has belongs to a unit that the second is
not about, or is left out of the second for a path with the same components at which
no file is found. -/
theorem ListsArtifacts.exists_or {fs : FileSystem}
    {affected affected' : CompiledUnit → Prop} {removed removed' : List Path}
    (h : ListsArtifacts fs affected removed)
    (h' : ListsArtifacts fs affected' removed') {p : Path} (hp : p ∈ removed) :
    (∃ q ∈ removed', q.components = p.components) ∨
      (∃ unit, affected unit ∧ unit.absolute = p ∧
        ∀ other, affected' other → other.absolute.components ≠ p.components) ∨
      ∃ other, affected' other ∧ other.absolute.components = p.components ∧
        fs.isFile other.absolute = false := by
  by_cases hother : ∃ other, affected' other ∧
      other.absolute.components = p.components
  · obtain ⟨other, haffected, hcomponents⟩ := hother
    cases hfile : fs.isFile other.absolute with
    | false => exact Or.inr (Or.inr ⟨other, haffected, hcomponents, hfile⟩)
    | true =>
        obtain ⟨q, hq, hsame⟩ | ⟨hidden, haffected', hsame, hfile'⟩ :=
          h'.complete other haffected hfile
        · exact Or.inl ⟨q, hq, hsame.trans hcomponents⟩
        · exact Or.inr (Or.inr
            ⟨hidden, haffected', hsame.trans hcomponents, hfile'⟩)
  · obtain ⟨-, unit, haffected, habsolute⟩ := h.sound p hp
    exact Or.inr (Or.inl ⟨unit, haffected, habsolute,
      fun other haffected' hcomponents =>
        hother ⟨other, haffected', hcomponents⟩⟩)

namespace Invalidation

open DependencyGraph Relation

/-- A unit that a direct invalidation takes for a unit nested in it only: it is
neither out of date nor does it depend on anything that is. -/
def OnlyEnclosing (g : DependencyGraph) (stale : OutOfDate)
    (unit : CompiledUnit) : Prop :=
  g.unit? unit.id = some unit ∧ ¬AffectedThrough g stale unit ∧
    ∃ nested, AffectedDirectly g stale nested ∧
      Identity.enclosing? nested.id = some unit.id

/-- A unit that an invalidation goes through, with closure or without. -/
def Affected (closure : Bool) (g : DependencyGraph) (stale : OutOfDate) (unit : CompiledUnit) :
    Prop :=
  if closure then AffectedThrough g stale unit else AffectedOrEnclosing g stale unit

variable {g : DependencyGraph} {stale : OutOfDate} {unit : CompiledUnit}

theorem Affected.unit? {closure : Bool} (h : Affected closure g stale unit) :
    g.unit? unit.id = some unit := by
  cases closure with
  | true =>
      rw [Affected, if_pos rfl] at h
      exact h.1
  | false =>
      rw [Affected, if_neg (by simp)] at h
      exact h.elim (fun hdirect => hdirect.1) fun henclosing => henclosing.1

/-- An invalidation sweeps the affected units in an order that depends on the graph
only. -/
theorem exists_order (hg : g.WellFormed) (closure : Bool) (stale : OutOfDate) :
    ∃ order : List CompiledUnit,
      (∀ unit, unit ∈ order ↔ Affected closure g stale unit) ∧
      ∀ dryRun fs, invalidate closure dryRun g stale fs =
        order.foldl Sweep.remove { fileSystem := fs, dryRun } := by
  cases closure with
  | true => exact exists_order_closure hg stale
  | false => exact exists_order_direct hg stale

theorem AffectedDirectly.affectedThrough
    (h : AffectedDirectly g stale unit) : AffectedThrough g stale unit := by
  obtain ⟨hunit, hstale | ⟨id, hid, haffects⟩⟩ := h
  · exact ⟨hunit, Or.inl hstale⟩
  · exact ⟨hunit, Or.inr ⟨id, hid, TransGen.single haffects⟩⟩

/-- The units of a direct invalidation are those of a closure, and enclosing ones. -/
theorem AffectedOrEnclosing.affectedThrough_or
    (h : AffectedOrEnclosing g stale unit) :
    AffectedThrough g stale unit ∨ OnlyEnclosing g stale unit := by
  by_cases hthrough : AffectedThrough g stale unit
  · exact Or.inl hthrough
  · obtain hdirect | ⟨hunit, hnested⟩ := h
    · exact absurd hdirect.affectedThrough hthrough
    · exact Or.inr ⟨hunit, hthrough, hnested⟩

/-- What is listed without closure is listed with it, except for the artifacts of
units that only enclose others, and for an artifact that is hidden there by another
spelling of its path, at which no file is found. -/
theorem invalidate_direct_closure
    {units : UnitMap} (hkeyed : units.Keyed)
    (given : Std.TreeMap Identity (List Identity))
    (stale : OutOfDate) (fs : FileSystem) {p : Path}
    (hp : p ∈ (invalidate false true (ofReferences units given) stale fs).removed) :
    (∃ q ∈ (invalidate true true (ofReferences units given) stale fs).removed,
        q.components = p.components) ∨
      (∃ unit, OnlyEnclosing (ofReferences units given) stale unit ∧
        unit.absolute = p ∧
        ∀ other, AffectedThrough (ofReferences units given) stale other →
          other.absolute.components ≠ p.components) ∨
      ∃ other, AffectedThrough (ofReferences units given) stale other ∧
        other.absolute.components = p.components ∧
        fs.isFile other.absolute = false := by
  have hg := wellFormed_ofReferences hkeyed given
  obtain ⟨direct, hdirect, hdirectly⟩ := exists_order_direct hg stale
  obtain ⟨closure, hclosure, hthrough⟩ := exists_order_closure hg stale
  rw [hdirectly] at hp
  rw [hthrough]
  obtain hlisted | ⟨unit, haffected, rfl, hnone⟩ | hhidden :=
    (listsArtifacts_of_order hdirect fs).exists_or
      (listsArtifacts_of_order hclosure fs) hp
  · exact Or.inl hlisted
  · refine Or.inr (Or.inl ⟨unit, ?_, rfl, hnone⟩)
    obtain hthrough | honly := haffected.affectedThrough_or
    · exact absurd rfl (hnone unit hthrough)
    · exact honly
  · exact Or.inr (Or.inr hhidden)

theorem invalidate_direct_closure_nested :
    nestedUnits.Keyed ∧
      Path.ofString "/out/A.class" ∈
        (invalidate false true (ofReferences nestedUnits nestedReferences)
          oneStale nestedArtifacts).removed ∧
      ((∃ q ∈ (invalidate true true (ofReferences nestedUnits nestedReferences)
            oneStale nestedArtifacts).removed,
          q.components = (Path.ofString "/out/A.class").components) ∨
        (∃ unit, OnlyEnclosing (ofReferences nestedUnits nestedReferences)
            oneStale unit ∧
          unit.absolute = Path.ofString "/out/A.class" ∧
          ∀ other, AffectedThrough (ofReferences nestedUnits nestedReferences)
              oneStale other →
            other.absolute.components ≠
              (Path.ofString "/out/A.class").components) ∨
        ∃ other, AffectedThrough (ofReferences nestedUnits nestedReferences)
            oneStale other ∧
          other.absolute.components =
            (Path.ofString "/out/A.class").components ∧
          nestedArtifacts.isFile other.absolute = false) := by
  have hmem : Path.ofString "/out/A.class" ∈ (invalidate false true
      (ofReferences nestedUnits nestedReferences) oneStale
      nestedArtifacts).removed := by
    rw [removed_nested]
    exact List.mem_cons_of_mem _ List.mem_cons_self
  exact ⟨keyed_ofUnits _, hmem,
    invalidate_direct_closure (keyed_ofUnits _) _ _ _ hmem⟩

/-- The class around a nested one that refers to what is out of date is deleted
without closure, and is not with it. -/
theorem invalidate_direct_not_subset_closure :
    Path.ofString "/out/A.class" ∈
        (invalidate false true (ofReferences nestedUnits nestedReferences)
          oneStale nestedArtifacts).removed ∧
      ∀ q ∈ (invalidate true true (ofReferences nestedUnits nestedReferences)
          oneStale nestedArtifacts).removed,
        q.components ≠ (Path.ofString "/out/A.class").components := by
  have hclosure : (invalidate true true
      (ofReferences nestedUnits nestedReferences) oneStale
      nestedArtifacts).removed =
      [Path.ofString "/out/A$I.class", Path.ofString "/out/B.class"] := by cbv
  rw [removed_nested, hclosure]
  exact ⟨List.mem_cons_of_mem _ List.mem_cons_self, by decide⟩

end Invalidation
end Freshness
