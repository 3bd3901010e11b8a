import Freshness.Proofs.Invalidation.Direct
import Freshness.Proofs.FileSystem.Preservation
import Freshness.Proofs.Run.Remainder
import Mathlib

/-!
# A second run without closure

Without closure, a run deletes artifacts of units that are not out of date and does not
go on to what refers to those.  The next run finds that such a unit has a source and no
artifact, and takes it for one that was never compiled.  So a second run deletes what
refers to it, and nothing else.
-/

namespace Freshness
namespace Run

open DependencyGraph FileSystem Invalidation

variable {ε : Type}

/-- There is a source for an identity that was not out of date, and its artifact was
removed. -/
structure TakenAlong (a : Analysis) (removed : List Path) (sources : List SourceUnit)
    (id : Identity) : Prop where
  fresh : id ∉ a.outOfDate
  source : ∃ source ∈ sources, source.id = id
  removed : ∃ unit, a.graph.unit? id = some unit ∧ unit.absolute ∈ removed

/-- A unit of which the artifact was not removed. -/
def Left (a : Analysis) (removed : List Path) (unit : CompiledUnit) : Prop :=
  a.graph.unit? unit.id = some unit ∧ unit.absolute ∉ removed

/-- A unit that is left and refers to an identity that was taken along. -/
def RefersToTaken (a : Analysis) (removed : List Path) (sources : List SourceUnit)
    (unit : CompiledUnit) : Prop :=
  Left a removed unit ∧
    ∃ id, TakenAlong a removed sources id ∧ a.graph.Affects id unit.id

/-- A unit that is left and refers to an identity that was taken along, or encloses a
unit that does. -/
def NextInLine (a : Analysis) (removed : List Path) (sources : List SourceUnit)
    (unit : CompiledUnit) : Prop :=
  RefersToTaken a removed sources unit ∨ Left a removed unit ∧
    ∃ nested, RefersToTaken a removed sources nested ∧
      Identity.enclosing? nested.id = some unit.id

namespace Remainder

variable {settings : Settings} {extract : Extractor ε}
  {table : Option (Identity → Option Path)} {fs fs' : FileSystem} {a a' : Analysis}
  {affected : CompiledUnit → Prop} {removed : List Path}

/-- The units that are left are those whose artifacts were not removed. -/
theorem left_iff
    (h : Remainder settings extract table fs a affected (Sweep.StandFor fs removed) fs')
    (hremoved : ∀ p ∈ removed, ∃ unit, affected unit ∧ unit.absolute = p)
    {unit : CompiledUnit} (hunit : a.graph.unit? unit.id = some unit) :
    (Scan.compiledUnits fs' settings.outputRoots)[unit.id]? = some unit ↔
      unit.absolute ∉ removed := by
  obtain ⟨l, hcarries, hl, -, hlocate⟩ := h.found.exists_location h.tree hunit
  rw [h.compiledUnits_eq, hunit]
  constructor
  · intro hkept hmem
    obtain ⟨e, he⟩ := exists_locate_rearrange hl
    obtain rfl := hlocate _ _ he
    rw [if_pos ⟨e, hcarries, unit.absolute, hmem, he⟩] at hkept
    cases hkept
  · intro hkept
    apply if_neg
    rintro ⟨m, hcarries', p, hp, hm⟩
    obtain ⟨other, hother, rfl⟩ := hremoved p hp
    have hother := h.unit? other hother
    obtain ⟨m', hcarries'', -, -, hlocate'⟩ := h.found.exists_location h.tree hother
    obtain rfl := hlocate' _ _ hm
    apply hkept
    rw [unit_eq_of_carries h.unique hcarries' hcarries'' hunit hother]
    exact hp

theorem absolute_mem_of_missing
    (h : Remainder settings extract table fs a affected (Sweep.StandFor fs removed) fs')
    (hremoved : ∀ p ∈ removed, ∃ unit, affected unit ∧ unit.absolute = p)
    {id : Identity} {unit : CompiledUnit} (hunit : a.graph.unit? id = some unit)
    (hmissing : (Scan.compiledUnits fs' settings.outputRoots)[id]? = none) :
    unit.absolute ∈ removed := by
  obtain rfl := h.found.wellFormed.unit?_id hunit
  by_contra hkept
  rw [(h.left_iff hremoved hunit).mpr hkept] at hmissing
  cases hmissing

theorem unit?_eq_none_of_mem
    (h : Remainder settings extract table fs a affected (Sweep.StandFor fs removed) fs')
    (hremoved : ∀ p ∈ removed, ∃ unit, affected unit ∧ unit.absolute = p)
    {id : Identity} {unit : CompiledUnit} (hunit : a.graph.unit? id = some unit)
    (hmem : unit.absolute ∈ removed) :
    (Scan.compiledUnits fs' settings.outputRoots)[id]? = none := by
  obtain rfl := h.found.wellFormed.unit?_id hunit
  rw [Option.eq_none_iff_forall_ne_some]
  intro other hother
  have hsame := (h.unit_kept hother).1
  rw [hunit] at hsame
  cases hsame
  exact (h.left_iff hremoved hunit).mp hother hmem

/-- The files of the units that are left are there. -/
theorem isFile_of_left
    (h : Remainder settings extract table fs a affected (Sweep.StandFor fs removed) fs')
    (hremoved : ∀ p ∈ removed, ∃ unit, affected unit ∧ unit.absolute = p)
    {unit : CompiledUnit} (hleft : Left a removed unit) :
    fs'.isFile unit.absolute = true := by
  obtain ⟨bytes, hread, -⟩ :=
    h.references_kept ((h.left_iff hremoved hleft.1).mpr hleft.2)
  exact isFile_iff.mpr (exists_of_read hread)

variable (h : Remainder settings extract table fs a affected
    (Sweep.StandFor fs removed) fs')
  (hremoved : ∀ p ∈ removed, ∃ unit, affected unit ∧ unit.absolute = p)
  (h' : Found settings extract table fs' a')
include h hremoved h'

theorem left_of_unit? {unit : CompiledUnit}
    (hunit : a'.graph.unit? unit.id = some unit) : Left a removed unit := by
  have hkept := unit?_of_found h' hunit
  have hbefore := (h.unit_kept hkept).1
  exact ⟨hbefore, (h.left_iff hremoved hbefore).mp hkept⟩

theorem unit?_of_left {unit : CompiledUnit} (hleft : Left a removed unit) :
    a'.graph.unit? unit.id = some unit := by
  rw [DependencyGraph.unit?, h'.units]
  exact (h.left_iff hremoved hleft.1).mpr hleft.2

theorem stale_or_takenAlong (hasks : ¬AsksForLibraries settings table) {id : Identity}
    (hid : id ∈ a'.outOfDate) : id ∈ a.outOfDate ∨
      TakenAlong a removed (Scan.sourceUnits fs' settings.sourceRoots) id := by
  by_cases hfresh : id ∈ a.outOfDate
  · exact Or.inl hfresh
  rcases (h'.outOfDate id).mp hid with ⟨source, hsource, rfl, hreason⟩ | ⟨hasks', -⟩
  · rcases h.stale_or_missing_of_source h' hsource hreason with
      hstale | ⟨unit, hunit, hmissing⟩
    · exact Or.inl hstale
    · exact Or.inr ⟨hfresh, ⟨source, hsource, rfl⟩, unit, hunit,
        h.absolute_mem_of_missing hremoved hunit hmissing⟩
  · exact absurd hasks' hasks

theorem stale_of_takenAlong {id : Identity}
    (hid : TakenAlong a removed (Scan.sourceUnits fs' settings.sourceRoots) id) :
    id ∈ a'.outOfDate := by
  obtain ⟨source, hsource, rfl⟩ := hid.source
  obtain ⟨unit, hunit, hmem⟩ := hid.removed
  refine (h'.outOfDate _).mpr (Or.inl ⟨source, hsource, rfl, ?_⟩)
  have hmissing : a'.graph.unit? source.id = none := by
    rw [DependencyGraph.unit?, h'.units]
    exact h.unit?_eq_none_of_mem hremoved hunit hmem
  rw [OutOfDate.sourceReason?, hmissing]
  rfl

/-- A unit that is affected directly after a run was affected directly before it, or
refers to an identity that was taken along. -/
theorem affectedDirectly_or_refersToTaken (hasks : ¬AsksForLibraries settings table)
    {unit : CompiledUnit} (hunit : AffectedDirectly a'.graph a'.outOfDate unit) :
    AffectedDirectly a.graph a.outOfDate unit ∨
      RefersToTaken a removed (Scan.sourceUnits fs' settings.sourceRoots) unit := by
  obtain ⟨hunit', hcause⟩ := hunit
  have hleft := h.left_of_unit? hremoved h' hunit'
  rcases hcause with hstale | ⟨id, hid, haffects⟩
  · rcases h.stale_or_takenAlong hremoved h' hasks hstale with hbefore | htaken
    · exact Or.inl ⟨hleft.1, Or.inl hbefore⟩
    · obtain ⟨other, hother, hmem⟩ := htaken.removed
      rw [hleft.1] at hother
      cases hother
      exact absurd hmem hleft.2
  · have hbefore := h.affects_of_affects h' haffects
    rcases h.stale_or_takenAlong hremoved h' hasks hid with hstale | htaken
    · exact Or.inl ⟨hleft.1, Or.inr ⟨id, hstale, hbefore⟩⟩
    · exact Or.inr ⟨hleft, id, htaken, hbefore⟩

theorem affectedDirectly_of_refersToTaken {unit : CompiledUnit}
    (hunit : RefersToTaken a removed (Scan.sourceUnits fs' settings.sourceRoots) unit) :
    AffectedDirectly a'.graph a'.outOfDate unit := by
  obtain ⟨hleft, id, htaken, haffects⟩ := hunit
  have hunit' := h.unit?_of_left hremoved h' hleft
  refine ⟨hunit', Or.inr ⟨id, h.stale_of_takenAlong hremoved h' htaken, ?_⟩⟩
  rw [Affects, h.references_eq h' hunit']
  exact haffects

/-- What the next run goes through is what this one went through and what is next in
line. -/
theorem affectedOrEnclosing_or_nextInLine (hasks : ¬AsksForLibraries settings table)
    {unit : CompiledUnit} (hunit : AffectedOrEnclosing a'.graph a'.outOfDate unit) :
    AffectedOrEnclosing a.graph a.outOfDate unit ∨
      NextInLine a removed (Scan.sourceUnits fs' settings.sourceRoots) unit := by
  rcases hunit with hdirect | ⟨hunit', nested, hnested, henclosing⟩
  · exact (h.affectedDirectly_or_refersToTaken hremoved h' hasks hdirect).imp
      Or.inl Or.inl
  · have hleft := h.left_of_unit? hremoved h' hunit'
    exact (h.affectedDirectly_or_refersToTaken hremoved h' hasks hnested).imp
      (fun hbefore => Or.inr ⟨hleft.1, nested, hbefore, henclosing⟩)
      (fun hrefers => Or.inr ⟨hleft, nested, hrefers, henclosing⟩)

theorem affectedOrEnclosing_of_nextInLine {unit : CompiledUnit}
    (hunit : NextInLine a removed (Scan.sourceUnits fs' settings.sourceRoots) unit) :
    Left a removed unit ∧ AffectedOrEnclosing a'.graph a'.outOfDate unit := by
  rcases hunit with hrefers | ⟨hleft, nested, hnested, henclosing⟩
  · exact ⟨hrefers.1, Or.inl (h.affectedDirectly_of_refersToTaken hremoved h' hrefers)⟩
  · exact ⟨hleft, Or.inr ⟨h.unit?_of_left hremoved h' hleft, nested,
      h.affectedDirectly_of_refersToTaken hremoved h' hnested, henclosing⟩⟩

end Remainder

/-- A run without closure and without a cache goes through the units that are affected
directly and those that enclose them. -/
theorem exists_remainder_direct
    {settings : Settings} (hclosure : settings.closure = false)
    (hcache : settings.cacheRoot = none) {extract : Extractor ε}
    {table : Option (Identity → Option Path)} {fs : FileSystem} (htree : fs.WellFormed)
    (hunique : Scan.OneToOne fs settings.outputRoots)
    {summary : RunSummary} {g : Gathering}
    (hrun : execute settings extract table fs = (.ok summary, g)) :
    ∃ a, (analyze settings extract table fs).1 = .ok a ∧
      Remainder settings extract table fs a (AffectedOrEnclosing a.graph a.outOfDate)
        (Sweep.StandFor fs summary.removed) g.fileSystem ∧
      (∀ p ∈ summary.removed ++ summary.failures.map RemovalFailure.path,
        (∃ unit, AffectedOrEnclosing a.graph a.outOfDate unit ∧ unit.absolute = p) ∧
          fs.isFile p = true ∧ fs.delete p ≠ .error .notFound) ∧
      ∀ unit, AffectedOrEnclosing a.graph a.outOfDate unit →
        g.fileSystem.isFile unit.absolute = true →
        g.fileSystem.delete unit.absolute = .error .notFound ∨
          unit.absolute ∈ summary.failures.map RemovalFailure.path := by
  obtain ⟨a, hanalyze, hremainder, -, hattempted, hsettled⟩ := exists_remainder
    hcache htree hunique
    (fun g stale unit (h : AffectedOrEnclosing g stale unit) =>
      h.elim (fun hdirect => hdirect.1) fun henclosing => henclosing.1)
    (fun g hg stale => by
      rw [hclosure]
      exact exists_order_direct hg stale) hrun
  exact ⟨a, hanalyze, hremainder, hattempted, hsettled⟩

/-- Without closure, cache and libraries, a run that deletes all that it should is
followed by one that goes through the units next in line only: it deletes what refers
to an identity that the first run took along, and what encloses that. -/
theorem execute_execute_direct
    {settings : Settings} (hclosure : settings.closure = false)
    (hcache : settings.cacheRoot = none) (hclasspath : settings.classpath = [])
    (extract : Extractor ε) {fs : FileSystem}
    (htree : fs.WellFormed) (hunique : Scan.OneToOne fs settings.outputRoots)
    {summary : RunSummary} {g : Gathering}
    (hrun : execute settings extract none fs = (.ok summary, g))
    (hfailures : summary.failures = []) :
    ∃ a again g', (analyze settings extract none fs).1 = .ok a ∧
      execute settings extract none g.fileSystem = (.ok again, g') ∧
      (∀ p ∈ again.removed ++ again.failures.map RemovalFailure.path, ∃ unit,
        NextInLine a summary.removed
          (Scan.sourceUnits g.fileSystem settings.sourceRoots) unit ∧
        unit.absolute = p) ∧
      ((∀ l, fs.refusal? l ≠ some .notFound) → ∀ unit,
        NextInLine a summary.removed
          (Scan.sourceUnits g.fileSystem settings.sourceRoots) unit →
        unit.absolute ∈ again.removed ++ again.failures.map RemovalFailure.path) := by
  have hasks : ¬AsksForLibraries settings none := by
    simp [AsksForLibraries, hclasspath]
  obtain ⟨a, hanalyze, h, hattempted, hsettled⟩ :=
    exists_remainder_direct hclosure hcache htree hunique hrun
  have hremoved : ∀ p ∈ summary.removed, ∃ unit,
      AffectedOrEnclosing a.graph a.outOfDate unit ∧ unit.absolute = p :=
    fun p hp => (hattempted p (List.mem_append_left _ hp)).1
  obtain ⟨a', g₁, hanalyze', h', hg₁⟩ := h.exists_analyze hcache
  have hrun' := run_of_ok hanalyze' false rfl
  obtain ⟨a'', hsame, h'', hattempted', hsettled'⟩ := exists_remainder_direct hclosure
    hcache (h.without.wellFormed htree) (hunique.without h.without) hrun'
  obtain rfl : a' = a'' := by
    rw [hanalyze'] at hsame
    exact Except.ok.inj hsame
  refine ⟨a, _, _, hanalyze, hrun', ?_, ?_⟩
  · intro p hp
    obtain ⟨⟨unit, hunit, rfl⟩, hfile, hdelete⟩ := hattempted' p hp
    rcases h.affectedOrEnclosing_or_nextInLine hremoved h' hasks hunit with
      hbefore | hnext
    · -- the first run left this artifact only if it was told that it is not there
      rcases hsettled unit hbefore hfile with hnotFound | hfailed
      · exact absurd hnotFound hdelete
      · rw [hfailures] at hfailed
        cases hfailed
    · exact ⟨unit, hnext, rfl⟩
  · intro hrefusal unit hnext
    obtain ⟨hleft, hunit⟩ := h.affectedOrEnclosing_of_nextInLine hremoved h' hnext
    have hunit' := h.unit?_of_left hremoved h' hleft
    by_contra hkept
    rw [List.mem_append, not_or] at hkept
    have hfile := h''.isFile_of_left
      (fun p hp => (hattempted' p (List.mem_append_left _ hp)).1) ⟨hunit', hkept.1⟩
    rcases hsettled' unit hunit hfile with hnotFound | hfailed
    · obtain ⟨l, hl, -⟩ := isFile_iff.mp hfile
      refine delete_ne_notFound hl (fun m => ?_) hnotFound
      rw [h''.without.refusal, h.without.refusal]
      exact hrefusal m
    · exact hkept.2 hfailed

/-- A class with a newer source, a class that refers to it and has a source too, and
one that refers to the second. -/
def lineTree : FileSystem :=
  [("/o/A.class", 2, []), ("/o/B.class", 2, [0]), ("/o/C.class", 2, [0, 0]),
    ("/s/A.java", 3, []), ("/s/B.java", 1, [])].foldl
    (fun fs (p, time, content) => fs.addFile (Path.ofString p) time content)
    (FileSystem.empty 4)

def lineSettings : Settings where
  sourceRoots := [Path.ofString "/s"]
  outputRoots := [Path.ofString "/o"]

def lineReferences : Extractor String
  | [] => .ok []
  | [_] => .ok ["A"]
  | _ => .ok ["B"]

theorem wellFormed_lineTree : lineTree.WellFormed :=
  List.foldlRecOn _ _ (WellFormed.empty 4) fun _ h _ _ => h.addFile _ _ _

theorem oneToOne_lineTree : Scan.OneToOne lineTree lineSettings.outputRoots := by
  have hcarried : Scan.carried lineTree lineSettings.outputRoots =
      ["A", "B", "C"].map fun id =>
        (Location.ofNames [Utf8.encode "o", Utf8.encode (id ++ ".class")], id) := by
    cbv
  rw [Scan.oneToOne_iff, hcarried]
  decide

/-- The tree that a run leaves of these classes. -/
def lineLeft : FileSystem := (execute lineSettings lineReferences none lineTree).2.fileSystem

theorem fst_execute_line :
    (execute lineSettings lineReferences none lineTree).1.toOption.map
        (fun summary => (summary.removed, summary.failures)) =
      some ([Path.ofString "/o/B.class", Path.ofString "/o/A.class"], []) := by
  cbv

theorem fst_execute_lineLeft :
    (execute lineSettings lineReferences none lineLeft).1.toOption.map
        RunSummary.removed = some [Path.ofString "/o/C.class"] := by
  cbv

theorem execute_execute_direct_line :
    lineSettings.closure = false ∧ lineSettings.cacheRoot = none ∧
    lineSettings.classpath = [] ∧ lineTree.WellFormed ∧
    Scan.OneToOne lineTree lineSettings.outputRoots ∧
    ∃ summary g, execute lineSettings lineReferences none lineTree = (.ok summary, g) ∧
      summary.failures = [] ∧
      ∃ a again g', (analyze lineSettings lineReferences none lineTree).1 = .ok a ∧
        execute lineSettings lineReferences none g.fileSystem = (.ok again, g') ∧
        (∀ p ∈ again.removed ++ again.failures.map RemovalFailure.path, ∃ unit,
          NextInLine a summary.removed
            (Scan.sourceUnits g.fileSystem lineSettings.sourceRoots) unit ∧
          unit.absolute = p) ∧
        ((∀ l, lineTree.refusal? l ≠ some .notFound) → ∀ unit,
          NextInLine a summary.removed
            (Scan.sourceUnits g.fileSystem lineSettings.sourceRoots) unit →
          unit.absolute ∈ again.removed ++
            again.failures.map RemovalFailure.path) := by
  have hfirst := fst_execute_line
  rcases hrun : execute lineSettings lineReferences none lineTree with ⟨e | summary, g⟩
  · rw [hrun] at hfirst
    cases hfirst
  · rw [hrun] at hfirst
    have hfailures : summary.failures = [] :=
      (Prod.mk.inj (Option.some.inj hfirst)).2
    exact ⟨rfl, rfl, rfl, wellFormed_lineTree, oneToOne_lineTree, summary, g, rfl,
      hfailures, execute_execute_direct rfl rfl rfl lineReferences wellFormed_lineTree
        oneToOne_lineTree hrun hfailures⟩

/-- A second run goes one step further along a line of references. -/
theorem not_execute_execute_direct :
    ¬∀ (settings : Settings) (extract : Extractor String) (fs : FileSystem) summary g,
      settings.closure = false → settings.cacheRoot = none → settings.classpath = [] →
      fs.WellFormed → Scan.OneToOne fs settings.outputRoots →
      execute settings extract none fs = (.ok summary, g) → summary.failures = [] →
      ∀ again g', execute settings extract none g.fileSystem = (.ok again, g') →
        again.removed = [] := by
  intro h
  have hfirst := fst_execute_line
  have hsecond := fst_execute_lineLeft
  rw [lineLeft] at hsecond
  rcases hrun : execute lineSettings lineReferences none lineTree with ⟨e | summary, g⟩
  · rw [hrun] at hfirst
    cases hfirst
  · rw [hrun] at hfirst hsecond
    dsimp only at hsecond
    rcases hrun' : execute lineSettings lineReferences none g.fileSystem with
      ⟨e | again, g'⟩
    · rw [hrun'] at hsecond
      cases hsecond
    · rw [hrun'] at hsecond
      have hnone := h _ _ _ summary g rfl rfl rfl wellFormed_lineTree oneToOne_lineTree
        hrun (Prod.mk.inj (Option.some.inj hfirst)).2 again g' hrun'
      have hsome : again.removed = [Path.ofString "/o/C.class"] :=
        Option.some.inj hsecond
      rw [hnone] at hsome
      cases hsome

end Run
end Freshness
