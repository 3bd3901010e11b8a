import Mathlib
import Freshness.Proofs.FileSystem.Alike
import Freshness.Proofs.Invalidation.Modes
import Freshness.Proofs.Run.SecondRun

/-!
# What is due after a run

Nothing is kept from one run to the next.  What is out of date after a run can still be told from
what the run has found before: a source whose artifact is gone or older, and a unit with a newer
library.  An artifact is due if references of units that are left lead to it from there.  So it is
forgotten if every cause that led to it is gone, as that of a nested class without a source of its
own; but not if whatever has lost its artifact has a source.
-/

namespace Freshness

open FileSystem

namespace Run

open DependencyGraph Invalidation Relation

variable {ε : Type} {settings : Settings} {extract : Extractor ε}
  {table : Option (Identity → Option Path)} {fs fs' : FileSystem} {a a' : Analysis}

/-! ## Analyses of trees that look alike -/

theorem supplier_of_alike (h : Alike fs fs') (settings : Settings)
    (table : Option (Identity → Option Path)) :
    supplier settings table fs' = supplier settings table fs := by
  rw [supplier, supplier, h.ofPaths_eq, h.answer_eq]

theorem hasReferences_of_alike (h : Alike fs fs') {unit : CompiledUnit} {symbols : List Identity}
    (hreferences : Gathering.HasReferences fs extract unit symbols) :
    Gathering.HasReferences fs' extract unit symbols := by
  obtain ⟨bytes, hread, hextract⟩ := hreferences
  exact ⟨bytes, h.read_of_read hread, hextract⟩

theorem sourceReason?_of_alike (h : Alike fs fs') (g : DependencyGraph) (source : SourceUnit) :
    OutOfDate.sourceReason? fs' g source = OutOfDate.sourceReason? fs g source := by
  have hnewer : OutOfDate.newerThanArtifact fs' = OutOfDate.newerThanArtifact fs := by
    funext p q
    rw [OutOfDate.newerThanArtifact, OutOfDate.newerThanArtifact, h.modified?_eq, h.modified?_eq]
  rw [OutOfDate.sourceReason?, OutOfDate.sourceReason?, hnewer]

/-- What an analysis has found in one of the trees is what there is to find in the other. -/
theorem Found.of_alike (h : Alike fs fs') (hfound : Found settings extract table fs' a) :
    Found settings extract table fs a where
  wellFormed := hfound.wellFormed
  units := by rw [hfound.units, h.compiledUnits_eq]
  references id unit hunit := hasReferences_of_alike h.symm (hfound.references id unit hunit)
  outOfDate id := by
    have hlibraries : librariesOf settings table fs' a.graph =
        librariesOf settings table fs a.graph := by
      funext id
      rw [librariesOf, librariesOf, supplier_of_alike h]
    rw [hfound.outOfDate, h.sourceUnits_eq, hlibraries]
    simp only [sourceReason?_of_alike h, h.isNewer_eq]

/-! ## What is due after a run -/

/-- There is a unit of the identity of which the artifact was not removed. -/
def remains (a : Analysis) (removed : List Path) (id : Identity) : Bool :=
  (a.graph.unit? id).any fun unit => unit.absolute ∉ removed

/-- The libraries of a unit when the symbols of units that are gone are asked for as well. -/
def librariesAfter (settings : Settings) (table : Option (Identity → Option Path))
    (fs : FileSystem) (a : Analysis) (removed : List Path) (id : Identity) : PathSet :=
  Library.suppliers (supplier settings table fs) ((a.graph.references id).filter fun symbol =>
    !remains a removed symbol && !Identity.isPlatform symbol settings.platform)

/-- An identity that is out of date in `fs`, the tree that is left of the one in which `a` was
found when the artifacts have been removed. -/
inductive StaleAfter (settings : Settings) (table : Option (Identity → Option Path))
    (fs : FileSystem) (a : Analysis) (removed : List Path) : Identity → Prop
  /-- There is a source, and no artifact is left that is as new. -/
  | source {source : SourceUnit} (hsource : source ∈ Scan.sourceUnits fs settings.sourceRoots)
      (hnewer : ∀ unit, Left a removed unit → unit.id = source.id →
        OutOfDate.newerThanArtifact fs source.path unit.absolute = true) :
      StaleAfter settings table fs a removed source.id
  /-- An artifact is left, and a library of its unit is newer. -/
  | library {unit : CompiledUnit} {p : Path} (hasks : AsksForLibraries settings table)
      (hleft : Left a removed unit)
      (hp : p ∈ (librariesAfter settings table fs a removed unit.id).toList)
      (hnewer : fs.isNewer p unit.absolute = true) :
      StaleAfter settings table fs a removed unit.id

/-- A unit that is left refers to the symbol. -/
def AffectsLeft (a : Analysis) (removed : List Path) (symbol id : Identity) : Prop :=
  a.graph.Affects symbol id ∧ ∃ unit, Left a removed unit ∧ unit.id = id

/-- A unit that is left and out of date, or to which something leads that is. -/
def ReachedAfter (settings : Settings) (table : Option (Identity → Option Path))
    (fs : FileSystem) (a : Analysis) (removed : List Path)
    (leads : Identity → Identity → Prop) (unit : CompiledUnit) : Prop :=
  Left a removed unit ∧ (StaleAfter settings table fs a removed unit.id ∨
    ∃ id, StaleAfter settings table fs a removed id ∧ leads id unit.id)

/-- A unit of which the artifact is to be deleted after the run.  With closure, references of
units that are left lead to it from what is out of date; without, one reference does, or leads to a
unit that is left and nested in it. -/
def DueAfter (settings : Settings) (table : Option (Identity → Option Path))
    (fs : FileSystem) (a : Analysis) (removed : List Path) (unit : CompiledUnit) : Prop :=
  if settings.closure then
    ReachedAfter settings table fs a removed (TransGen (AffectsLeft a removed)) unit
  else
    ReachedAfter settings table fs a removed (AffectsLeft a removed) unit ∨
      Left a removed unit ∧ ∃ nested,
        ReachedAfter settings table fs a removed (AffectsLeft a removed) nested ∧
          Identity.enclosing? nested.id = some unit.id

theorem DueAfter.left {removed : List Path} {unit : CompiledUnit}
    (h : DueAfter settings table fs a removed unit) : Left a removed unit := by
  unfold DueAfter at h
  split at h
  · exact h.1
  · exact h.elim (fun hreached => hreached.1) fun hencloses => hencloses.1

/-- Nothing that has led to an artifact is taken for fresh after the run. -/
structure KeepsCauses (settings : Settings) (table : Option (Identity → Option Path))
    (fs : FileSystem) (a : Analysis) (removed : List Path) : Prop where
  /-- Where libraries are asked for, what was out of date still is. -/
  stale : AsksForLibraries settings table → ∀ id ∈ a.outOfDate,
    StaleAfter settings table fs a removed id
  /-- Whatever has lost its artifact has a source. -/
  taken : ∀ unit, a.graph.unit? unit.id = some unit → unit.absolute ∈ removed →
    ∃ source ∈ Scan.sourceUnits fs settings.sourceRoots, source.id = unit.id
  /-- Without closure, a unit has not lost its artifact if one that is left encloses it. -/
  nested : settings.closure = false → ∀ nested unit, a.graph.unit? nested.id = some nested →
    Left a removed unit → Identity.enclosing? nested.id = some unit.id →
      nested.absolute ∉ removed

theorem remains_iff {removed : List Path} {id : Identity} (hg : a.graph.WellFormed) :
    remains a removed id = true ↔ ∃ unit, Left a removed unit ∧ unit.id = id := by
  rw [remains, Option.any_eq_true]
  constructor
  · rintro ⟨unit, hunit, hkept⟩
    obtain rfl := hg.unit?_id hunit
    exact ⟨unit, ⟨hunit, by simpa using hkept⟩, rfl⟩
  · rintro ⟨unit, ⟨hunit, hkept⟩, rfl⟩
    exact ⟨unit, hunit, by simpa using hkept⟩

namespace Remainder

variable {affected : CompiledUnit → Prop} {removed : List Path}
  (h : Remainder settings extract table fs a affected (Sweep.StandFor fs removed) fs')
  (hremoved : ∀ p ∈ removed, ∃ unit, affected unit ∧ unit.absolute = p)
  (h' : Found settings extract table fs' a')
include h hremoved h'

theorem unit?_iff_left {unit : CompiledUnit} :
    a'.graph.unit? unit.id = some unit ↔ Left a removed unit :=
  ⟨h.left_of_unit? hremoved h', h.unit?_of_left hremoved h'⟩

theorem contains_eq_remains (symbol : Identity) :
    a'.graph.contains symbol = remains a removed symbol := by
  rw [Bool.eq_iff_iff, remains_iff h.found.wellFormed, contains,
    Std.TreeMap.contains_eq_isSome_getElem?, Option.isSome_iff_exists]
  refine exists_congr fun unit => ⟨fun hunit => ?_, ?_⟩
  · obtain rfl := h'.wellFormed.unit?_id hunit
    exact ⟨h.left_of_unit? hremoved h' hunit, rfl⟩
  · rintro ⟨hleft, rfl⟩
    exact h.unit?_of_left hremoved h' hleft

theorem affects_eq : a'.graph.Affects = AffectsLeft a removed := by
  funext symbol id
  apply propext
  constructor
  · intro haffects
    obtain ⟨unit, hunit⟩ := h'.wellFormed.exists_unit_of_affects haffects
    obtain rfl := h'.wellFormed.unit?_id hunit
    exact ⟨h.affects_of_affects h' haffects, unit, h.left_of_unit? hremoved h' hunit, rfl⟩
  · rintro ⟨haffects, unit, hleft, rfl⟩
    rw [Affects, h.references_eq h' (h.unit?_of_left hremoved h' hleft)]
    exact haffects

theorem librariesOf_eq_librariesAfter {unit : CompiledUnit} (hleft : Left a removed unit) :
    librariesOf settings table fs' a'.graph unit.id =
      librariesAfter settings table fs' a removed unit.id := by
  have hexternal : Library.isExternal a'.graph settings.platform = fun symbol =>
      !remains a removed symbol && !Identity.isPlatform symbol settings.platform := by
    funext symbol
    rw [Library.isExternal, h.contains_eq_remains hremoved h']
  rw [librariesOf, librariesAfter, hexternal,
    h.references_eq h' (h.unit?_of_left hremoved h' hleft)]

theorem sourceReason?_isSome_iff (source : SourceUnit) :
    (OutOfDate.sourceReason? fs' a'.graph source).isSome = true ↔
      ∀ unit, Left a removed unit → unit.id = source.id →
        OutOfDate.newerThanArtifact fs' source.path unit.absolute = true := by
  unfold OutOfDate.sourceReason?
  constructor
  · intro hreason unit hleft hid
    rw [← hid, h.unit?_of_left hremoved h' hleft] at hreason
    dsimp only at hreason
    split at hreason
    next hnewer => exact hnewer
    next => cases hreason
  · intro hnewer
    cases hunit : a'.graph.unit? source.id with
    | none => rfl
    | some unit =>
        have hid := h'.wellFormed.unit?_id hunit
        rw [← hid] at hunit
        have hleft := h.left_of_unit? hremoved h' hunit
        dsimp only
        rw [if_pos (hnewer unit hleft hid)]
        rfl

/-- What is out of date in the tree that is left. -/
theorem mem_outOfDate_iff_staleAfter {id : Identity} :
    id ∈ a'.outOfDate ↔ StaleAfter settings table fs' a removed id := by
  rw [h'.outOfDate]
  constructor
  · rintro (⟨source, hsource, rfl, hreason⟩ | ⟨hasks, unit, hunit, p, hp, hnewer⟩)
    · exact .source hsource ((h.sourceReason?_isSome_iff hremoved h' source).mp hreason)
    · obtain rfl := h'.wellFormed.unit?_id hunit
      have hleft := h.left_of_unit? hremoved h' hunit
      rw [h.librariesOf_eq_librariesAfter hremoved h' hleft] at hp
      exact .library hasks hleft hp hnewer
  · rintro (⟨hsource, hnewer⟩ | ⟨hasks, hleft, hp, hnewer⟩)
    · exact Or.inl ⟨_, hsource, rfl,
        (h.sourceReason?_isSome_iff hremoved h' _).mpr hnewer⟩
    · rw [← h.librariesOf_eq_librariesAfter hremoved h' hleft] at hp
      exact Or.inr ⟨hasks, _, h.unit?_of_left hremoved h' hleft, _, hp, hnewer⟩

/-- What an invalidation goes through in the tree that is left. -/
theorem affected_iff_dueAfter {unit : CompiledUnit} :
    Affected settings.closure a'.graph a'.outOfDate unit ↔
      DueAfter settings table fs' a removed unit := by
  unfold Affected DueAfter ReachedAfter AffectedThrough AffectedOrEnclosing AffectedDirectly
  simp only [h.unit?_iff_left hremoved h', h.affects_eq hremoved h',
    h.mem_outOfDate_iff_staleAfter hremoved h']

end Remainder

/-! ## What is not forgotten -/

theorem KeepsCauses.staleAfter_of_mem_removed {removed : List Path}
    (h : KeepsCauses settings table fs a removed) {unit : CompiledUnit}
    (hunit : a.graph.unit? unit.id = some unit) (hmem : unit.absolute ∈ removed) :
    StaleAfter settings table fs a removed unit.id := by
  obtain ⟨source, hsource, hid⟩ := h.taken unit hunit hmem
  rw [← hid]
  refine .source hsource fun other hleft hother => ?_
  have hsame := hleft.1
  rw [hother, hid, hunit] at hsame
  cases hsame
  exact absurd hmem hleft.2

/-- A reference from a unit that is left is followed as before, and the other units are out of
date themselves. -/
theorem KeepsCauses.stale_or_affectsLeft {removed : List Path}
    (h : KeepsCauses settings table fs a removed) (hg : a.graph.WellFormed)
    {symbol id : Identity} (haffects : a.graph.Affects symbol id) :
    StaleAfter settings table fs a removed id ∨ AffectsLeft a removed symbol id := by
  obtain ⟨unit, hunit⟩ := hg.exists_unit_of_affects haffects
  obtain rfl := hg.unit?_id hunit
  by_cases hmem : unit.absolute ∈ removed
  · exact Or.inl (h.staleAfter_of_mem_removed hunit hmem)
  · exact Or.inr ⟨haffects, unit, ⟨hunit, hmem⟩, rfl⟩

namespace Remainder

variable {affected : CompiledUnit → Prop} {removed : List Path}
  (h : Remainder settings extract table fs a affected (Sweep.StandFor fs removed) fs')
  (hremoved : ∀ p ∈ removed, ∃ unit, affected unit ∧ unit.absolute = p)
include h hremoved

/-- What a source has made out of date still is. -/
theorem staleAfter_of_source {source : SourceUnit}
    (hsource : source ∈ Scan.sourceUnits fs settings.sourceRoots)
    (hreason : (OutOfDate.sourceReason? fs a.graph source).isSome = true) :
    StaleAfter settings table fs' a removed source.id := by
  have hsource' : source ∈ Scan.sourceUnits fs' settings.sourceRoots := by
    refine Scan.source_stays h.tree h.without (fun l hl => ⟨h.hasFile_of_gone l hl, ?_⟩) hsource
    obtain ⟨unit, hunit, hfound⟩ := h.affected l hl
    obtain ⟨m, hcarries, -, -, hlocate⟩ := h.found.exists_location h.tree (h.unit? unit hunit)
    obtain rfl := hlocate _ _ hfound
    exact ⟨_, _, hcarries⟩
  obtain ⟨-, hlookup⟩ := Scan.source_kept h.tree h.without h.hasFile_of_gone hsource'
  refine .source hsource' fun unit hleft hid => ?_
  have hkept := (h.left_iff hremoved hleft.1).mpr hleft.2
  have hmodified : fs'.modified? source.path = fs.modified? source.path := by
    rw [modified?, modified?, hlookup]
  rw [OutOfDate.sourceReason?, ← hid, hleft.1] at hreason
  rw [OutOfDate.newerThanArtifact, hmodified, (h.modified?_unit hkept).1]
  dsimp only at hreason
  split at hreason
  next hnewer => exact hnewer
  next => cases hreason

variable (hcauses : KeepsCauses settings table fs' a removed)
include hcauses

/-- What was out of date still is. -/
theorem staleAfter_of_stale {id : Identity} (hid : id ∈ a.outOfDate) :
    StaleAfter settings table fs' a removed id := by
  by_cases hasks : AsksForLibraries settings table
  · exact hcauses.stale hasks id hid
  · rcases (h.found.outOfDate id).mp hid with ⟨source, hsource, rfl, hreason⟩ | ⟨hasks', -⟩
    · exact h.staleAfter_of_source hremoved hsource hreason
    · exact absurd hasks' hasks

theorem reachedAfter_of_affectedDirectly {unit : CompiledUnit}
    (hunit : AffectedDirectly a.graph a.outOfDate unit) (hkept : unit.absolute ∉ removed) :
    ReachedAfter settings table fs' a removed (AffectsLeft a removed) unit := by
  obtain ⟨hunit, hstale | ⟨id, hid, haffects⟩⟩ := hunit
  · exact ⟨⟨hunit, hkept⟩, Or.inl (h.staleAfter_of_stale hremoved hcauses hstale)⟩
  · exact ⟨⟨hunit, hkept⟩, (hcauses.stale_or_affectsLeft h.found.wellFormed haffects).imp_right
      fun hleft => ⟨id, h.staleAfter_of_stale hremoved hcauses hid, hleft⟩⟩

theorem reachedAfter_of_affectedThrough {unit : CompiledUnit}
    (hunit : AffectedThrough a.graph a.outOfDate unit) (hkept : unit.absolute ∉ removed) :
    ReachedAfter settings table fs' a removed (TransGen (AffectsLeft a removed)) unit := by
  obtain ⟨hunit, hstale | ⟨root, hroot, hreach⟩⟩ := hunit
  · exact ⟨⟨hunit, hkept⟩, Or.inl (h.staleAfter_of_stale hremoved hcauses hstale)⟩
  · refine ⟨⟨hunit, hkept⟩, ?_⟩
    -- the references lead on from the last unit on the way that has lost its artifact
    generalize unit.id = id at hreach
    induction hreach with
    | single haffects =>
        exact (hcauses.stale_or_affectsLeft h.found.wellFormed haffects).imp_right fun hleft =>
          ⟨root, h.staleAfter_of_stale hremoved hcauses hroot, .single hleft⟩
    | @tail symbol id _ haffects ih =>
        refine (hcauses.stale_or_affectsLeft h.found.wellFormed haffects).imp_right fun hleft => ?_
        rcases ih with hstale | ⟨cause, hcause, hreach⟩
        · exact ⟨symbol, hstale, .single hleft⟩
        · exact ⟨cause, hcause, hreach.tail hleft⟩

/-- Whatever was affected and is left is due. -/
theorem dueAfter_of_affected {unit : CompiledUnit}
    (hunit : Affected settings.closure a.graph a.outOfDate unit)
    (hkept : unit.absolute ∉ removed) : DueAfter settings table fs' a removed unit := by
  unfold Affected at hunit
  unfold DueAfter
  split at hunit
  next hclosure =>
    rw [if_pos hclosure]
    exact h.reachedAfter_of_affectedThrough hremoved hcauses hunit hkept
  next hclosure =>
    rw [if_neg hclosure]
    rcases hunit with hdirect | ⟨hunit, nested, hnested, henclosing⟩
    · exact Or.inl (h.reachedAfter_of_affectedDirectly hremoved hcauses hdirect hkept)
    · refine Or.inr ⟨⟨hunit, hkept⟩, nested, ?_, henclosing⟩
      exact h.reachedAfter_of_affectedDirectly hremoved hcauses hnested
        (hcauses.nested (by simpa using hclosure) nested unit hnested.1 ⟨hunit, hkept⟩ henclosing)

end Remainder

end Run
end Freshness
