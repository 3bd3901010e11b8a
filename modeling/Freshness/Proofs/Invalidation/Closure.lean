import Freshness.Proofs.Graph
import Freshness.Proofs.Invalidation.Sweep
import Mathlib

/-!
# Invalidation through any number of steps

The walk along references keeps one table of what it has not followed yet, for all of
the identities it begins with.  What it has followed it has followed completely:
every unit that refers to such a symbol has been swept and has itself been followed.
At the end this holds of every identity that the walk began with, so the swept units
are exactly those that can be reached.
-/

namespace Freshness
namespace Invalidation

open DependencyGraph Relation

/-- What a walk from some identities has done when `unfollowed` has become
`unfollowed'` and `order` has been swept. -/
structure Followed (g : DependencyGraph) (unfollowed : Unfollowed)
    (start : List Identity) (unfollowed' : Unfollowed)
    (order : List CompiledUnit) : Prop where
  shrinks : ∀ (id : Identity) ids,
    unfollowed'[id]? = some ids → unfollowed[id]? = some ids
  covers : ∀ id ∈ start, unfollowed'[id]? = none
  reached : ∀ unit ∈ order, g.unit? unit.id = some unit ∧
    ∃ id ∈ start, TransGen g.Affects id unit.id
  complete : ∀ id : Identity, unfollowed'[id]? = none →
    unfollowed[id]? = none ∨
      ∀ unit, g.unit? unit.id = some unit → g.Affects id unit.id →
        unit ∈ order ∧ unfollowed'[unit.id]? = none

/-- The references that are not followed yet are references of the graph. -/
def Within (g : DependencyGraph) (unfollowed : Unfollowed) : Prop :=
  ∀ (id : Identity) ids,
    unfollowed[id]? = some ids → g.affectedBy[id]? = some ids

variable {g : DependencyGraph}

theorem Within.erase {unfollowed : Unfollowed} (h : Within g unfollowed)
    (id : Identity) : Within g (unfollowed.erase id) := by
  intro x xs hx
  rw [Std.TreeMap.getElem?_erase] at hx
  split at hx
  · cases hx
  · exact h x xs hx

namespace Followed

theorem eq_none {unfollowed unfollowed' : Unfollowed} {start : List Identity}
    {order : List CompiledUnit}
    (h : Followed g unfollowed start unfollowed' order) {id : Identity}
    (hid : unfollowed[id]? = none) : unfollowed'[id]? = none := by
  cases hget : unfollowed'[id]? with
  | none => rfl
  | some ids =>
      have := h.shrinks id ids hget
      rw [hid] at this
      cases this

theorem nil (unfollowed : Unfollowed) : Followed g unfollowed [] unfollowed [] where
  shrinks _ _ h := h
  covers _ h := by cases h
  reached _ h := by cases h
  complete _ h := Or.inl h

/-- An identity that has been followed before is passed over. -/
theorem skip {unfollowed unfollowed' : Unfollowed} {start : List Identity}
    {order : List CompiledUnit} {id : Identity}
    (hid : unfollowed[id]? = none)
    (h : Followed g unfollowed start unfollowed' order) :
    Followed g unfollowed (id :: start) unfollowed' order where
  shrinks := h.shrinks
  covers x hx := by
    rcases List.mem_cons.mp hx with rfl | hx
    · exact h.eq_none hid
    · exact h.covers x hx
  reached unit hunit := by
    obtain ⟨hmem, x, hx, hreach⟩ := h.reached unit hunit
    exact ⟨hmem, x, List.mem_cons_of_mem id hx, hreach⟩
  complete := h.complete

/-- An identity is expanded: its units are swept and come next. -/
theorem expand (hg : g.WellFormed)
    {unfollowed unfollowed' : Unfollowed} {start : List Identity}
    {order : List CompiledUnit} {id : Identity} {ids : Std.TreeSet Identity}
    (hids : g.affectedBy[id]? = some ids)
    (h : Followed g (unfollowed.erase id)
      (((g.unitsOf ids).map CompiledUnit.id).reverse ++ start)
      unfollowed' order) :
    Followed g unfollowed (id :: start) unfollowed'
      (g.unitsOf ids ++ order) := by
  have hmem : ∀ unit, unit ∈ g.unitsOf ids ↔
      g.unit? unit.id = some unit ∧ g.Affects id unit.id := by
    intro unit
    rw [hg.mem_unitsOf, ← hg.affectedBy_iff,
      Std.TreeMap.getD_eq_getD_getElem?, hids, Option.getD_some]
  have herased : (unfollowed.erase id)[id]? = none :=
    Std.TreeMap.getElem?_erase_self
  constructor
  · intro x xs hx
    have hrest := h.shrinks x xs hx
    rw [Std.TreeMap.getElem?_erase] at hrest
    split at hrest
    · cases hrest
    · exact hrest
  · intro x hx
    rcases List.mem_cons.mp hx with rfl | hx
    · exact h.eq_none herased
    · exact h.covers x (List.mem_append_right _ hx)
  · intro unit hunit
    rcases List.mem_append.mp hunit with hhere | hlater
    · obtain ⟨hunit, haffects⟩ := (hmem unit).mp hhere
      exact ⟨hunit, id, List.mem_cons_self, TransGen.single haffects⟩
    · obtain ⟨hunit, x, hx, hreach⟩ := h.reached unit hlater
      refine ⟨hunit, ?_⟩
      rcases List.mem_append.mp hx with hnext | hx
      · obtain ⟨next, hhere, rfl⟩ :=
          List.mem_map.mp (List.mem_reverse.mp hnext)
        exact ⟨id, List.mem_cons_self,
          TransGen.head ((hmem next).mp hhere).2 hreach⟩
      · exact ⟨x, List.mem_cons_of_mem id hx, hreach⟩
  · intro x hx
    rcases h.complete x hx with hbefore | hnow
    · rw [Std.TreeMap.getElem?_erase] at hbefore
      split at hbefore
      next hsame =>
        right
        intro unit hunit haffects
        have hid : id = x := by simpa using hsame
        have hhere : unit ∈ g.unitsOf ids :=
          (hmem unit).mpr ⟨hunit, hid ▸ haffects⟩
        refine ⟨List.mem_append_left _ hhere, h.covers unit.id ?_⟩
        exact List.mem_append_left _
          (List.mem_reverse.mpr (List.mem_map_of_mem hhere))
      next => exact Or.inl hbefore
    · right
      intro unit hunit haffects
      obtain ⟨hlater, hdone⟩ := hnow unit hunit haffects
      exact ⟨List.mem_append_right _ hlater, hdone⟩

/-- A second walk continues what a first one has left. -/
theorem append {first second third : Unfollowed} {start start' : List Identity}
    {order order' : List CompiledUnit}
    (h : Followed g first start second order)
    (h' : Followed g second start' third order') :
    Followed g first (start ++ start') third (order ++ order') where
  shrinks id ids hid := h.shrinks id ids (h'.shrinks id ids hid)
  covers id hid := by
    rcases List.mem_append.mp hid with hid | hid
    · exact h'.eq_none (h.covers id hid)
    · exact h'.covers id hid
  reached unit hunit := by
    rcases List.mem_append.mp hunit with hunit | hunit
    · obtain ⟨hmem, id, hid, hreach⟩ := h.reached unit hunit
      exact ⟨hmem, id, List.mem_append_left _ hid, hreach⟩
    · obtain ⟨hmem, id, hid, hreach⟩ := h'.reached unit hunit
      exact ⟨hmem, id, List.mem_append_right _ hid, hreach⟩
  complete id hid := by
    rcases h'.complete id hid with hsecond | hnow
    · rcases h.complete id hsecond with hfirst | hnow
      · exact Or.inl hfirst
      · right
        intro unit hunit haffects
        obtain ⟨hmem, hdone⟩ := hnow unit hunit haffects
        exact ⟨List.mem_append_left _ hmem, h'.eq_none hdone⟩
    · right
      intro unit hunit haffects
      obtain ⟨hmem, hdone⟩ := hnow unit hunit haffects
      exact ⟨List.mem_append_right _ hmem, hdone⟩

/-- A walk that begins with nothing followed sweeps what it can reach, and
nothing else. -/
theorem mem_order_iff (hg : g.WellFormed)
    {unfollowed' : Unfollowed} {start : List Identity}
    {order : List CompiledUnit}
    (h : Followed g g.affectedBy start unfollowed' order)
    (unit : CompiledUnit) :
    unit ∈ order ↔ g.unit? unit.id = some unit ∧
      ∃ id ∈ start, TransGen g.Affects id unit.id := by
  constructor
  · exact h.reached unit
  · rintro ⟨hunit, root, hroot, hreach⟩
    have hstep : ∀ {id : Identity} {u : CompiledUnit},
        unfollowed'[id]? = none → g.unit? u.id = some u →
          g.Affects id u.id → u ∈ order ∧ unfollowed'[u.id]? = none := by
      intro id u hid hu haffects
      rcases h.complete id hid with hnone | hnow
      · have hin := (hg.affectedBy_iff id u.id).mpr haffects
        rw [Std.TreeMap.getD_eq_getD_getElem?, hnone] at hin
        exact absurd hin Std.TreeSet.not_mem_emptyc
      · exact hnow u hu haffects
    have hfollowed : ∀ {id : Identity},
        ReflTransGen g.Affects root id → unfollowed'[id]? = none := by
      intro id hpath
      induction hpath with
      | refl => exact h.covers root hroot
      | tail _ haffects ih =>
          obtain ⟨u, hu⟩ := hg.exists_unit_of_affects haffects
          obtain rfl := hg.unit?_id hu
          exact (hstep ih hu haffects).2
    obtain ⟨id, hpath, haffects⟩ := TransGen.tail'_iff.mp hreach
    exact (hstep (hfollowed hpath) hunit haffects).1

end Followed

theorem Within.shrink {unfollowed unfollowed' : Unfollowed}
    {start : List Identity} {order : List CompiledUnit}
    (h : Within g unfollowed)
    (hfollowed : Followed g unfollowed start unfollowed' order) :
    Within g unfollowed' :=
  fun id ids hid => h id ids (hfollowed.shrinks id ids hid)

/-- Following a stack sweeps units in an order that does not depend on the sweep. -/
theorem exists_followed (hg : g.WellFormed)
    (unfollowed : Unfollowed) (hwithin : Within g unfollowed)
    (stack : List Identity) :
    ∃ unfollowed' order, Followed g unfollowed stack unfollowed' order ∧
      ∀ s, follow g unfollowed s stack =
        (unfollowed', order.foldl Sweep.remove s) := by
  -- the induction is on the recursion, which carries some sweep along
  have hany : ∀ _ : Sweep, ∃ unfollowed' order,
      Followed g unfollowed stack unfollowed' order ∧
      ∀ s, follow g unfollowed s stack =
        (unfollowed', order.foldl Sweep.remove s) := by
    intro s
    induction unfollowed, s, stack using follow.induct g with
    | case1 unfollowed _ =>
        exact ⟨unfollowed, [], Followed.nil unfollowed,
          fun s => by rw [follow]; rfl⟩
    | case2 unfollowed _ id stack hnone ih =>
        obtain ⟨unfollowed', order, hfollowed, heq⟩ := ih hwithin
        refine ⟨unfollowed', order, hfollowed.skip hnone, fun s => ?_⟩
        rw [follow, hnone]
        exact heq s
    | case3 unfollowed _ id stack ids hsome units ih =>
        obtain ⟨unfollowed', order, hfollowed, heq⟩ := ih (hwithin.erase id)
        refine ⟨unfollowed', g.unitsOf ids ++ order,
          hfollowed.expand hg (hwithin id ids hsome), fun s => ?_⟩
        rw [follow, hsome, List.foldl_append]
        exact heq _
  exact hany { fileSystem := FileSystem.empty 0, dryRun := true }

/-- So does following one identity after the other. -/
theorem exists_followed_each (hg : g.WellFormed)
    (unfollowed : Unfollowed) (hwithin : Within g unfollowed)
    (ids : List Identity) :
    ∃ unfollowed' order, Followed g unfollowed ids unfollowed' order ∧
      ∀ s, ids.foldl (fun (unfollowed, s) id => follow g unfollowed s [id])
        (unfollowed, s) = (unfollowed', order.foldl Sweep.remove s) := by
  induction ids generalizing unfollowed with
  | nil => exact ⟨unfollowed, [], Followed.nil unfollowed, fun _ => rfl⟩
  | cons id rest ih =>
      obtain ⟨second, order, hfirst, heq⟩ :=
        exists_followed hg unfollowed hwithin [id]
      obtain ⟨third, order', hrest, heq'⟩ := ih second (hwithin.shrink hfirst)
      refine ⟨third, order ++ order', hfirst.append hrest, fun s => ?_⟩
      rw [List.foldl_cons, List.foldl_append, ← heq']
      dsimp only
      rw [heq]

/-- A unit that is out of date, or that refers to an identity which is, directly or
through other units. -/
def AffectedThrough (g : DependencyGraph) (stale : OutOfDate)
    (unit : CompiledUnit) : Prop :=
  g.unit? unit.id = some unit ∧
    (unit.id ∈ stale ∨ ∃ id ∈ stale, TransGen g.Affects id unit.id)

/-- With closure, an invalidation sweeps the units that are affected through any
number of steps, in an order that depends on the graph only. -/
theorem exists_order_closure (hg : g.WellFormed) (stale : OutOfDate) :
    ∃ order : List CompiledUnit,
      (∀ unit, unit ∈ order ↔ AffectedThrough g stale unit) ∧
      ∀ dryRun fs, invalidate true dryRun g stale fs =
        order.foldl Sweep.remove { fileSystem := fs, dryRun } := by
  obtain ⟨unfollowed', order, hfollowed, heq⟩ :=
    exists_followed_each hg g.affectedBy (fun _ _ h => h) stale.keys
  refine ⟨order ++ stale.keys.filterMap g.unit?, ?_, ?_⟩
  · intro unit
    rw [List.mem_append, hfollowed.mem_order_iff hg, hg.mem_filterMap_unit?]
    simp only [Std.TreeMap.mem_keys, AffectedThrough]
    constructor
    · rintro (⟨hunit, hreach⟩ | ⟨hunit, hstale⟩)
      · exact ⟨hunit, Or.inr hreach⟩
      · exact ⟨hunit, Or.inl hstale⟩
    · rintro ⟨hunit, hstale | hreach⟩
      · exact Or.inr ⟨hunit, hstale⟩
      · exact Or.inl ⟨hunit, hreach⟩
  · intro dryRun fs
    simp only [invalidate, sweepDependents, sweepRoots, if_true]
    rw [heq, List.foldl_append]

/-- With closure, an invalidation that only records lists the artifacts of the units
that are affected through any number of steps.  The references may form cycles, and
the identities that are out of date need not be units. -/
theorem invalidate_closure_listsArtifacts
    {units : UnitMap} (hkeyed : units.Keyed)
    (given : Std.TreeMap Identity (List Identity))
    (stale : OutOfDate) (fs : FileSystem) :
    ListsArtifacts fs (AffectedThrough (ofReferences units given) stale)
      (invalidate true true (ofReferences units given) stale fs).removed := by
  obtain ⟨order, horder, heq⟩ :=
    exists_order_closure (wellFormed_ofReferences hkeyed given) stale
  rw [heq]
  exact listsArtifacts_of_order horder fs

/-- The artifacts of three classes. -/
def threeArtifacts : FileSystem :=
  ["/out/A.class", "/out/B.class", "/out/C.class"].foldl
    (fun fs p => fs.addFile (Path.ofString p) 0 []) (FileSystem.empty 0)

/-- The units of these classes. -/
def threeUnits : UnitMap :=
  Scan.ofUnits
    [⟨"A", Path.ofString "/out/A.class", Path.ofString "A"⟩,
      ⟨"B", Path.ofString "/out/B.class", Path.ofString "B"⟩,
      ⟨"C", Path.ofString "/out/C.class", Path.ofString "C"⟩]

/-- `A` and `B` refer to each other, and `A` to a class without a unit; `C` refers to
itself. -/
def cyclicReferences : Std.TreeMap Identity (List Identity) :=
  .ofList [("A", ["B", "Gone"]), ("B", ["A"]), ("C", ["C"])]

/-- A class that has no unit is out of date. -/
def goneStale : OutOfDate := .ofList [("Gone", StaleReason.neverCompiled)]

theorem invalidate_closure_cycle :
    threeUnits.Keyed ∧
      (invalidate true true (ofReferences threeUnits cyclicReferences)
        goneStale threeArtifacts).removed =
        [Path.ofString "/out/A.class", Path.ofString "/out/B.class"] ∧
      ListsArtifacts threeArtifacts
        (AffectedThrough (ofReferences threeUnits cyclicReferences) goneStale)
        (invalidate true true (ofReferences threeUnits cyclicReferences)
          goneStale threeArtifacts).removed :=
  ⟨keyed_ofUnits _, by cbv,
    invalidate_closure_listsArtifacts (keyed_ofUnits _) _ _ _⟩

/-- A file is left out when a unit whose artifact is written as a directory, with the
same components, comes first. -/
theorem invalidate_closure_not_all_listed :
    ¬∀ unit, AffectedThrough (ofReferences spelledTwice {}) bothStale unit →
      oneArtifact.isFile unit.absolute = true →
      ∃ p ∈ (invalidate true true (ofReferences spelledTwice {}) bothStale
          oneArtifact).removed,
        p.components = unit.absolute.components := by
  intro h
  obtain ⟨p, hp, -⟩ := h
    ⟨"B", Path.ofString "/out/A.class", Path.ofString "A"⟩
    ⟨by cbv, Or.inl (by rw [Std.TreeMap.mem_iff_contains]; cbv)⟩ (by cbv)
  have hnone : (invalidate true true (ofReferences spelledTwice {}) bothStale
      oneArtifact).removed = [] := by cbv
  rw [hnone] at hp
  cases hp

end Invalidation
end Freshness
