import Freshness.Proofs.Invalidation.Deletion
import Freshness.Proofs.Run.Analysis
import Freshness.Proofs.Scan

/-!
# What a run leaves

A run without a cache takes only artifacts away.  Whatever units it was that it took
them from, an analysis of the tree that is left finds the other units as they were, with
the same references, and finds nothing out of date by a source but what was out of date
before and what has lost its artifact.
-/

namespace Freshness
namespace Run

open DependencyGraph FileSystem

variable {ε : Type}

/-- The path of a unit in the graph leads to the file that is scanned for it, and
stands for nothing else. -/
theorem Found.exists_location {settings : Settings} {extract : Extractor ε}
    {table : Option (Identity → Option Path)} {fs : FileSystem} {a : Analysis}
    (hfound : Found settings extract table fs a) (htree : fs.WellFormed) {id : Identity}
    {unit : CompiledUnit} (hunit : a.graph.unit? id = some unit) :
    ∃ l, Scan.Carries fs settings.outputRoots l id ∧
      fs.resolve unit.absolute = .ok l ∧ fs.HasFile l ∧
      ∀ purpose m, fs.locate purpose unit.absolute = .ok (.found m) → m = l := by
  obtain ⟨bytes, hread, -⟩ := hfound.references id unit hunit
  obtain ⟨l, hl, hfile⟩ := exists_of_read hread
  rw [DependencyGraph.unit?, hfound.units] at hunit
  obtain ⟨m, hcarries, -, hlocate⟩ := Scan.exists_location htree hunit
  obtain rfl := hlocate .inspect l (resolve_eq_ok_iff_locate.mp hl)
  exact ⟨l, hcarries, hl, hfile, hlocate⟩

/-- Units whose artifacts are at one location are the same. -/
theorem unit_eq_of_carries {fs : FileSystem} {roots : List Path}
    (hunique : Scan.OneToOne fs roots) {g : DependencyGraph} {l : Location}
    {id : Identity} {unit other : CompiledUnit} (hid : Scan.Carries fs roots l id)
    (hcarries : Scan.Carries fs roots l other.id) (hunit : g.unit? id = some unit)
    (hother : g.unit? other.id = some other) : unit = other := by
  rw [hunique.identity hid hcarries, hother] at hunit
  exact (Option.some.inj hunit).symm

/-- Units whose artifacts have paths with the same components are the same. -/
theorem Found.unit_unique {settings : Settings} {extract : Extractor ε}
    {table : Option (Identity → Option Path)} {fs : FileSystem} {a : Analysis}
    (hfound : Found settings extract table fs a) (htree : fs.WellFormed)
    (hunique : Scan.OneToOne fs settings.outputRoots) {unit other : CompiledUnit}
    (hunit : a.graph.unit? unit.id = some unit)
    (hother : a.graph.unit? other.id = some other)
    (hcomponents : unit.absolute.components = other.absolute.components) :
    unit = other := by
  obtain ⟨l, hcarries, hl, -⟩ := hfound.exists_location htree hunit
  obtain ⟨m, hcarries', hm, -⟩ := hfound.exists_location htree hother
  obtain rfl := resolve_unique hl hm hcomponents
  exact unit_eq_of_carries hunique hcarries hcarries' hunit hother

/-- `fs'` is what is left of a tree, in which an analysis has found `a`, when only
artifacts of `affected` units are gone. -/
structure Remainder (settings : Settings) (extract : Extractor ε)
    (table : Option (Identity → Option Path)) (fs : FileSystem) (a : Analysis)
    (affected : CompiledUnit → Prop) (gone : Location → Prop)
    (fs' : FileSystem) : Prop where
  tree : fs.WellFormed
  unique : Scan.OneToOne fs settings.outputRoots
  found : Found settings extract table fs a
  without : Without fs gone fs'
  unit? : ∀ unit, affected unit → a.graph.unit? unit.id = some unit
  affected : ∀ l, gone l → ∃ unit, affected unit ∧
    fs.locate .rearrange unit.absolute = .ok (.found l)

namespace Remainder

variable {settings : Settings} {extract : Extractor ε}
  {table : Option (Identity → Option Path)} {fs fs' : FileSystem} {a a' : Analysis}
  {affected : CompiledUnit → Prop} {gone : Location → Prop}

/-- What is gone are files, and the units that they carried were affected. -/
theorem of_gone (h : Remainder settings extract table fs a affected gone fs')
    {l : Location} (hl : gone l) :
    fs.HasFile l ∧ ∀ id unit, Scan.Carries fs settings.outputRoots l id →
      a.graph.unit? id = some unit → affected unit := by
  obtain ⟨other, hother, hfound⟩ := h.affected l hl
  have hunit? := h.unit? other hother
  obtain ⟨m, hcarries, -, hfile, hlocate⟩ := h.found.exists_location h.tree hunit?
  obtain rfl : l = m := hlocate _ _ hfound
  refine ⟨hfile, fun id unit hid hunit => ?_⟩
  rw [unit_eq_of_carries h.unique hid hcarries hunit hunit?]
  exact hother

theorem hasFile_of_gone (h : Remainder settings extract table fs a affected gone fs')
    (l : Location) (hl : gone l) : fs.HasFile l :=
  (h.of_gone hl).1

open Classical in
theorem compiledUnits_eq (h : Remainder settings extract table fs a affected gone fs')
    (id : Identity) :
    (Scan.compiledUnits fs' settings.outputRoots)[id]? =
      if ∃ l, Scan.Carries fs settings.outputRoots l id ∧ gone l then none
      else a.graph.unit? id := by
  rw [Scan.compiledUnits_without h.tree h.without h.hasFile_of_gone
    h.unique, DependencyGraph.unit?, h.found.units]

/-- A unit that is missing afterwards was affected, and its file is gone. -/
theorem gone_of_missing (h : Remainder settings extract table fs a affected gone fs')
    {id : Identity} {unit : CompiledUnit} (hunit : a.graph.unit? id = some unit)
    (hmissing : (Scan.compiledUnits fs' settings.outputRoots)[id]? = none) :
    affected unit ∧ ∃ l, Scan.Carries fs settings.outputRoots l id ∧ gone l := by
  rw [h.compiledUnits_eq, hunit] at hmissing
  split at hmissing
  next hgone =>
    obtain ⟨l, hcarries, hl⟩ := hgone
    exact ⟨(h.of_gone hl).2 id unit hcarries hunit, l, hcarries, hl⟩
  next => cases hmissing

/-- A unit that is still there was there before, and its artifact is the same. -/
theorem unit_kept (h : Remainder settings extract table fs a affected gone fs')
    {id : Identity} {unit : CompiledUnit}
    (hunit : (Scan.compiledUnits fs' settings.outputRoots)[id]? = some unit) :
    a.graph.unit? id = some unit ∧
      ∃ l, fs'.resolve unit.absolute = .ok l ∧ fs.HasFile l := by
  rw [h.compiledUnits_eq] at hunit
  split at hunit
  next => cases hunit
  next hkept =>
    obtain ⟨l, hcarries, hl, hfile, -⟩ := h.found.exists_location h.tree hunit
    have hgone : ¬gone l := fun hgone => hkept ⟨l, hcarries, hgone⟩
    exact ⟨hunit, l, (h.without.smaller h.hasFile_of_gone).resolve hl hgone, hfile⟩

theorem references_kept (h : Remainder settings extract table fs a affected gone fs')
    {id : Identity} {unit : CompiledUnit}
    (hunit : (Scan.compiledUnits fs' settings.outputRoots)[id]? = some unit) :
    Gathering.HasReferences fs' extract unit (a.graph.references id) := by
  obtain ⟨hunit', l, hl, hfile⟩ := h.unit_kept hunit
  obtain ⟨bytes, hread, hextract⟩ := h.found.references id unit hunit'
  exact ⟨bytes, (h.without.read_eq hl hfile).trans hread, hextract⟩

theorem modified?_unit (h : Remainder settings extract table fs a affected gone fs')
    {id : Identity} {unit : CompiledUnit}
    (hunit : (Scan.compiledUnits fs' settings.outputRoots)[id]? = some unit) :
    fs'.modified? unit.absolute = fs.modified? unit.absolute ∧
      (fs'.modified? unit.absolute).isSome = true := by
  obtain ⟨-, l, hl, content, hnode⟩ := h.unit_kept hunit
  have hlookup := h.without.lookup?_eq hl (by rw [hnode]; simp)
  refine ⟨by rw [modified?, modified?, hlookup], ?_⟩
  have hentry := (resolve_eq_ok_iff.mp hl).2.entry_isSome
  rw [modified?, lookup?, hl]
  simpa using hentry

/-- An analysis of what is left finds something. -/
theorem exists_analyze (h : Remainder settings extract table fs a affected gone fs')
    (hcache : settings.cacheRoot = none) :
    ∃ a' g', analyze settings extract table fs' = (.ok a', g') ∧
      Found settings extract table fs' a' ∧ g'.fileSystem = fs' := by
  obtain ⟨a', g', hanalyze⟩ := Run.exists_analyze hcache table fun id unit hunit =>
    ⟨a.graph.references id, h.references_kept hunit⟩
  exact ⟨a', g', hanalyze, found_of_analyze hcache hanalyze⟩

/-! ## An analysis of what is left -/

theorem unit?_of_found (h' : Found settings extract table fs' a') {id : Identity}
    {unit : CompiledUnit} (hunit : a'.graph.unit? id = some unit) :
    (Scan.compiledUnits fs' settings.outputRoots)[id]? = some unit := by
  rw [← h'.units]
  exact hunit

variable (h : Remainder settings extract table fs a affected gone fs')
  (h' : Found settings extract table fs' a')
include h h'

/-- A unit that is still there has the references that it had. -/
theorem references_eq {id : Identity} {unit : CompiledUnit}
    (hunit : a'.graph.unit? id = some unit) :
    a'.graph.references id = a.graph.references id := by
  obtain ⟨bytes, hread, hextract⟩ := h.references_kept (unit?_of_found h' hunit)
  obtain ⟨bytes', hread', hextract'⟩ := h'.references id unit hunit
  rw [hread] at hread'
  cases hread'
  rw [hextract] at hextract'
  exact (Except.ok.inj hextract').symm

theorem affects_of_affects {symbol id : Identity} (haffects : a'.graph.Affects symbol id) :
    a.graph.Affects symbol id := by
  obtain ⟨unit, hunit⟩ := h'.wellFormed.exists_unit_of_affects haffects
  rw [Affects, ← h.references_eq h' hunit]
  exact haffects

theorem contains_of_contains {symbol : Identity}
    (hcontains : a'.graph.contains symbol = true) : a.graph.contains symbol = true := by
  rw [contains, Std.TreeMap.contains_eq_isSome_getElem?] at hcontains ⊢
  obtain ⟨unit, hunit⟩ := Option.isSome_iff_exists.mp hcontains
  exact Option.isSome_iff_exists.mpr
    ⟨unit, (h.unit_kept (unit?_of_found h' hunit)).1⟩

/-- What is out of date by a source was out of date, or has lost its artifact. -/
theorem stale_or_missing_of_source {source : SourceUnit}
    (hsource : source ∈ Scan.sourceUnits fs' settings.sourceRoots)
    (hreason : (OutOfDate.sourceReason? fs' a'.graph source).isSome = true) :
    source.id ∈ a.outOfDate ∨ ∃ unit, a.graph.unit? source.id = some unit ∧
      (Scan.compiledUnits fs' settings.outputRoots)[source.id]? = none := by
  obtain ⟨hbefore, hlookup⟩ :=
    Scan.source_kept h.tree h.without h.hasFile_of_gone hsource
  cases hunit : a.graph.unit? source.id with
  | none =>
      refine Or.inl ((h.found.outOfDate _).mpr (Or.inl ⟨source, hbefore, rfl, ?_⟩))
      rw [OutOfDate.sourceReason?, hunit]
      rfl
  | some unit =>
      cases hunit' : a'.graph.unit? source.id with
      | none =>
          refine Or.inr ⟨unit, rfl, ?_⟩
          rw [← h'.units]
          exact hunit'
      | some unit' =>
          have hkept := unit?_of_found h' hunit'
          obtain rfl : unit = unit' := by
            have hsame := (h.unit_kept hkept).1
            rw [hunit] at hsame
            exact Option.some.inj hsame
          refine Or.inl ((h.found.outOfDate _).mpr (Or.inl ⟨source, hbefore, rfl, ?_⟩))
          rw [OutOfDate.sourceReason?, hunit'] at hreason
          rw [OutOfDate.sourceReason?, hunit]
          have hmodified : fs'.modified? source.path = fs.modified? source.path := by
            rw [modified?, modified?, hlookup]
          have hnewer : OutOfDate.newerThanArtifact fs source.path unit.absolute =
              OutOfDate.newerThanArtifact fs' source.path unit.absolute := by
            rw [OutOfDate.newerThanArtifact, OutOfDate.newerThanArtifact,
              (h.modified?_unit hkept).1, hmodified]
          dsimp only at hreason ⊢
          rw [hnewer]
          exact hreason

end Remainder

/-- A run that goes through the affected units leaves what its list of removed paths
says, and of the artifacts that it has not reported as failures it leaves only those
that are said not to be there. -/
theorem exists_remainder
    {settings : Settings} (hcache : settings.cacheRoot = none) {extract : Extractor ε}
    {table : Option (Identity → Option Path)} {fs : FileSystem} (htree : fs.WellFormed)
    (hunique : Scan.OneToOne fs settings.outputRoots)
    {affected : DependencyGraph → OutOfDate → CompiledUnit → Prop}
    (hunit? : ∀ g stale unit, affected g stale unit → g.unit? unit.id = some unit)
    (hsweep : ∀ (g : DependencyGraph), g.WellFormed → ∀ stale,
      ∃ order : List CompiledUnit, (∀ unit, unit ∈ order ↔ affected g stale unit) ∧
        ∀ dryRun fs, Invalidation.invalidate settings.closure dryRun g stale fs =
          order.foldl Sweep.remove { fileSystem := fs, dryRun })
    {summary : RunSummary} {g : Gathering}
    (hrun : execute settings extract table fs = (.ok summary, g)) :
    ∃ a, (analyze settings extract table fs).1 = .ok a ∧
      Remainder settings extract table fs a (affected a.graph a.outOfDate)
        (Sweep.StandFor fs summary.removed) g.fileSystem ∧
      summary.outOfDate = a.outOfDate ∧
      (∀ p ∈ summary.removed ++ summary.failures.map RemovalFailure.path,
        (∃ unit, affected a.graph a.outOfDate unit ∧ unit.absolute = p) ∧
          fs.isFile p = true ∧ fs.delete p ≠ .error .notFound) ∧
      ∀ unit, affected a.graph a.outOfDate unit →
        g.fileSystem.isFile unit.absolute = true →
        g.fileSystem.delete unit.absolute = .error .notFound ∨
          unit.absolute ∈ summary.failures.map RemovalFailure.path := by
  rw [execute] at hrun
  rcases hanalyze : analyze settings extract table fs with ⟨e | a, g'⟩
  · rw [run_of_error hanalyze] at hrun
    cases hrun
  obtain ⟨hfound, hg⟩ := found_of_analyze hcache hanalyze
  obtain ⟨order, horder, horder'⟩ := hsweep a.graph hfound.wellFormed a.outOfDate
  have hattempts := Sweep.attempts_firsts order
  obtain ⟨seen, hseen⟩ :=
    Sweep.foldl_remove_eq { fileSystem := fs, dryRun := false } order
  obtain ⟨removed, failures, hremoved, hfailures, hsettles⟩ :=
    Sweep.settles_foldl_attempt (s := { fileSystem := fs, dryRun := false }) rfl
      (PathSet.firsts {} (order.map CompiledUnit.absolute))
  rw [List.nil_append] at hremoved hfailures
  rw [run_of_ok hanalyze false rfl, hg, horder', hseen] at hrun
  cases hrun
  dsimp only
  rw [hremoved, hfailures]
  have hattempted : ∀ p ∈ removed ++ failures.map RemovalFailure.path,
      ∃ unit, affected a.graph a.outOfDate unit ∧ unit.absolute = p := by
    intro p hp
    obtain ⟨unit, hunit, habsolute⟩ := hattempts.sound p (hsettles.attempted p hp).1
    exact ⟨unit, (horder unit).mp hunit, habsolute⟩
  refine ⟨a, rfl, ⟨htree, hunique, hfound, hsettles.without, hunit? _ _, ?_⟩, rfl,
    fun p hp => ⟨hattempted p hp, (hsettles.attempted p hp).2⟩, ?_⟩
  · rintro l ⟨p, hp, hl⟩
    obtain ⟨unit, hunit, rfl⟩ := hattempted p (List.mem_append_left _ hp)
    exact ⟨unit, hunit, hl⟩
  · -- the artifact was attempted under its own path: no other unit has a path with
    -- the same components
    intro unit haffected hfile
    obtain ⟨p, hp, hcomponents⟩ :=
      hattempts.complete unit ((horder unit).mpr haffected)
    obtain ⟨other, hother, rfl⟩ := hattempts.sound p hp
    obtain rfl : other = unit := hfound.unit_unique htree hunique
      (hunit? _ _ _ ((horder other).mp hother)) (hunit? _ _ _ haffected) hcomponents
    exact hsettles.settled _ hp hfile

end Run
end Freshness
