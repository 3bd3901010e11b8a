import Mathlib
import Freshness.Proofs.FileSystem.Permission
import Freshness.Proofs.Run.Aftermath
import Freshness.Proofs.Run.Attempts

/-!
# Another run after deletions that failed

A run takes note of the deletions that fail, but the next run does not know of them.  When it can
delete every file, it deletes what is due after the first run.  Whether an artifact that could not
be deleted is among that is up to what the first run has left.
-/

namespace Freshness

open FileSystem

namespace Sweep

/-- Where every file can be deleted, no deletion fails. -/
theorem failures_foldl_attempt {s : Sweep} (hreal : s.dryRun = false)
    (hpermits : s.fileSystem.Permits) (paths : List Path) :
    (paths.foldl attempt s).failures = s.failures := by
  induction paths generalizing s with
  | nil => rfl
  | cons p rest ih =>
      rw [List.foldl_cons]
      rcases attempt_cases hreal p with
        ⟨-, hstep⟩ | ⟨hfile, ⟨fs, hdelete, hstep⟩ | ⟨-, hstep⟩ | ⟨e, -, hdelete, -⟩⟩
      · rw [hstep, ih hreal hpermits]
      · obtain ⟨l, -, hwithout⟩ := without_of_delete hdelete
        rw [hstep]
        exact ih (s := { s with fileSystem := fs, removed := s.removed ++ [p] }) hreal
          (hpermits.of_without hwithout)
      · rw [hstep, ih hreal hpermits]
      · obtain ⟨fs, hsucceeds⟩ := hpermits p hfile
        rw [hdelete] at hsucceeds
        cases hsucceeds

/-- A sweep puts each path on one list at most. -/
theorem interleaving_foldl_attempt {s : Sweep} (hreal : s.dryRun = false) (paths : List Path) :
    ∃ removed failures all, (paths.foldl attempt s).removed = s.removed ++ removed ∧
      (paths.foldl attempt s).failures = s.failures ++ failures ∧
      Interleaving removed (failures.map RemovalFailure.path) all ∧ all.Sublist paths := by
  induction paths generalizing s with
  | nil => exact ⟨[], [], [], by simp, by simp, .nil, .slnil⟩
  | cons p rest ih =>
      rw [List.foldl_cons]
      rcases attempt_cases hreal p with
        ⟨-, hstep⟩ | ⟨-, ⟨fs, -, hstep⟩ | ⟨-, hstep⟩ | ⟨e, -, -, hstep⟩⟩
      · obtain ⟨removed, failures, all, hremoved, hfailures, h, hall⟩ := ih hreal
        rw [hstep]
        exact ⟨removed, failures, all, hremoved, hfailures, h, hall.cons p⟩
      · obtain ⟨removed, failures, all, hremoved, hfailures, h, hall⟩ :=
          ih (s := { s with fileSystem := fs, removed := s.removed ++ [p] }) hreal
        rw [hstep]
        exact ⟨p :: removed, failures, p :: all, by rw [hremoved]; simp, hfailures, .left h,
          hall.cons_cons p⟩
      · obtain ⟨removed, failures, all, hremoved, hfailures, h, hall⟩ := ih hreal
        rw [hstep]
        exact ⟨removed, failures, all, hremoved, hfailures, h, hall.cons p⟩
      · obtain ⟨removed, failures, all, hremoved, hfailures, h, hall⟩ :=
          ih (s := { s with failures := s.failures ++ [⟨p, e⟩] }) hreal
        rw [hstep]
        exact ⟨removed, ⟨p, e⟩ :: failures, p :: all, hremoved, by rw [hfailures]; simp,
          .right h, hall.cons_cons p⟩

end Sweep

namespace Run

open DependencyGraph Invalidation

variable {ε : Type} {settings : Settings} {extract : Extractor ε}
  {table : Option (Identity → Option Path)} {fs fs' : FileSystem} {a : Analysis}

/-! ## What the lists of a run say -/

/-- A run sweeps through different paths after its analysis. -/
theorem exists_sweep_of_execute {summary : RunSummary} {g : Gathering}
    (hrun : execute settings extract table fs = (.ok summary, g)) :
    ∃ paths : List Path, (paths.Pairwise fun p q => p.components ≠ q.components) ∧
      ∃ sweep, sweep = paths.foldl Sweep.attempt
          { fileSystem := (analyze settings extract table fs).2.fileSystem, dryRun := false } ∧
        summary.removed = sweep.removed ∧ summary.failures = sweep.failures := by
  rcases h : analyze settings extract table fs with ⟨e | a, g'⟩
  · rw [execute, run_of_error h] at hrun
    cases hrun
  · obtain ⟨paths, -, hdistinct, hsweep⟩ := exists_attempts_of_analyze h
    obtain ⟨seen, hexecute⟩ := hsweep false
    rw [execute, run_of_ok h false hexecute] at hrun
    cases hrun
    exact ⟨paths, hdistinct, _, rfl, rfl, rfl⟩

/-- What a run reports as a failure it does not report as removed. -/
theorem not_mem_removed_of_failed {summary : RunSummary} {g : Gathering}
    (hrun : execute settings extract table fs = (.ok summary, g)) {p : Path}
    (hp : p ∈ summary.failures.map RemovalFailure.path) : p ∉ summary.removed := by
  obtain ⟨paths, hdistinct, sweep, rfl, hremoved, hfailures⟩ := exists_sweep_of_execute hrun
  obtain ⟨removed, failures, all, hremoved', hfailures', h, hall⟩ :=
    Sweep.interleaving_foldl_attempt (s :=
      { fileSystem := (analyze settings extract table fs).2.fileSystem, dryRun := false }) rfl paths
  have hpairwise : (removed ++ failures.map RemovalFailure.path).Pairwise
      fun p q => p.components ≠ q.components :=
    (h.perm.pairwise_iff fun h => Ne.symm h).mpr (hdistinct.sublist hall)
  rw [hremoved, hremoved', List.nil_append]
  rw [hfailures, hfailures', List.nil_append] at hp
  exact fun hmem => (List.pairwise_append.mp hpairwise).2.2 p hmem p hp rfl

/-- Without a cache, a run fails to delete nothing where every file can be deleted. -/
theorem failures_execute_of_permits (hcache : settings.cacheRoot = none)
    (hpermits : fs.Permits) {summary : RunSummary} {g : Gathering}
    (hrun : execute settings extract table fs = (.ok summary, g)) : summary.failures = [] := by
  obtain ⟨paths, -, sweep, rfl, -, hfailures⟩ := exists_sweep_of_execute hrun
  rw [hfailures, Sweep.failures_foldl_attempt rfl]
  have hsame : (analyze settings extract table fs).2.fileSystem = fs := by
    rw [snd_analyze, hcache, Option.map_none]
    exact Gathering.fileSystem_addUnits extract _ _
  rw [hsame]
  exact hpermits

/-! ## The next run -/

/-- What a second run does about what the first could not delete.  The tree that the first run
left is `fs`. -/
structure Retries (settings : Settings) (table : Option (Identity → Option Path))
    (fs : FileSystem) (a : Analysis) (first second : RunSummary) : Prop where
  nothing_failed : second.failures = []
  /-- It deletes the artifacts that are due, and no others. -/
  removed : ∀ p, p ∈ second.removed ↔
    ∃ unit, DueAfter settings table fs a first.removed unit ∧ unit.absolute = p
  /-- So whether it deletes one that the first run could not is up to the unit of that. -/
  failed : ∀ p ∈ first.failures.map RemovalFailure.path, ∃ unit,
    Left a first.removed unit ∧ unit.absolute = p ∧
      (p ∈ second.removed ↔ DueAfter settings table fs a first.removed unit)
  /-- It deletes all of them if the causes are kept. -/
  complete : KeepsCauses settings table fs a first.removed →
    ∀ p ∈ first.failures.map RemovalFailure.path, p ∈ second.removed

/-- A run without a cache goes through the units that are affected. -/
theorem exists_remainder_affected (hcache : settings.cacheRoot = none) (htree : fs.WellFormed)
    (hunique : Scan.OneToOne fs settings.outputRoots) {summary : RunSummary} {g : Gathering}
    (hrun : execute settings extract table fs = (.ok summary, g)) :
    ∃ a, (analyze settings extract table fs).1 = .ok a ∧
      Remainder settings extract table fs a (Affected settings.closure a.graph a.outOfDate)
        (Sweep.StandFor fs summary.removed) g.fileSystem ∧
      (∀ p ∈ summary.removed ++ summary.failures.map RemovalFailure.path,
        ∃ unit, Affected settings.closure a.graph a.outOfDate unit ∧ unit.absolute = p) ∧
      ∀ unit, Affected settings.closure a.graph a.outOfDate unit →
        g.fileSystem.isFile unit.absolute = true →
        g.fileSystem.delete unit.absolute = .error .notFound ∨
          unit.absolute ∈ summary.failures.map RemovalFailure.path := by
  obtain ⟨a, hanalyze, hremainder, -, hattempted, hsettled⟩ := exists_remainder
    hcache htree hunique
    (fun g stale unit (h : Affected settings.closure g stale unit) => h.unit?)
    (fun g hg stale => exists_order hg settings.closure stale) hrun
  exact ⟨a, hanalyze, hremainder, fun p hp => (hattempted p hp).1, hsettled⟩

/-- Without a cache, a run where every file can be deleted deletes the artifacts of the units that
are affected. -/
theorem mem_removed_iff_of_permits (hcache : settings.cacheRoot = none)
    (htree : fs.WellFormed) (hunique : Scan.OneToOne fs settings.outputRoots)
    (hpermits : fs.Permits) {summary : RunSummary} {g : Gathering}
    (hanalyze : (analyze settings extract table fs).1 = .ok a)
    (hrun : execute settings extract table fs = (.ok summary, g)) {p : Path} :
    p ∈ summary.removed ↔
      ∃ unit, Affected settings.closure a.graph a.outOfDate unit ∧ unit.absolute = p := by
  obtain ⟨a', hanalyze', h, hattempted, hsettled⟩ :=
    exists_remainder_affected hcache htree hunique hrun
  obtain rfl : a = a' := by
    rw [hanalyze] at hanalyze'
    exact Except.ok.inj hanalyze'
  have hremoved : ∀ p ∈ summary.removed,
      ∃ unit, Affected settings.closure a.graph a.outOfDate unit ∧ unit.absolute = p :=
    fun p hp => hattempted p (List.mem_append_left _ hp)
  refine ⟨hremoved p, ?_⟩
  rintro ⟨unit, hunit, rfl⟩
  by_contra hkept
  have hfile := h.isFile_of_left hremoved ⟨hunit.unit?, hkept⟩
  rcases hsettled unit hunit hfile with hnotFound | hfailed
  · obtain ⟨fs₁, hdelete⟩ := hpermits.of_without h.without _ hfile
    rw [hdelete] at hnotFound
    cases hnotFound
  · rw [failures_execute_of_permits hcache hpermits hrun] at hfailed
    cases hfailed

/-- What a run has left can be analyzed in every tree that looks like it. -/
theorem Remainder.exists_analyze_of_alike {affected : CompiledUnit → Prop}
    {gone : Location → Prop} {fs₁ : FileSystem}
    (h : Remainder settings extract table fs a affected gone fs₁) (halike : Alike fs₁ fs')
    (hcache : settings.cacheRoot = none) :
    ∃ a' g', analyze settings extract table fs' = (.ok a', g') ∧
      Found settings extract table fs₁ a' := by
  have hreferences : ∀ (id : Identity) unit,
      (Scan.compiledUnits fs' settings.outputRoots)[id]? = some unit →
        ∃ symbols, Gathering.HasReferences fs' extract unit symbols := by
    intro id unit hunit
    rw [halike.compiledUnits_eq] at hunit
    exact ⟨_, hasReferences_of_alike halike (h.references_kept hunit)⟩
  obtain ⟨a', g', hanalyze⟩ := Run.exists_analyze hcache table hreferences
  exact ⟨a', g', hanalyze, (found_of_analyze hcache hanalyze).1.of_alike halike⟩

/-- A second run retries what the first could not delete if it deletes what is due. -/
theorem retries_of_removed {first second : RunSummary}
    (h : Remainder settings extract table fs a (Affected settings.closure a.graph a.outOfDate)
      (Sweep.StandFor fs first.removed) fs')
    (hattempted : ∀ p ∈ first.removed ++ first.failures.map RemovalFailure.path,
      ∃ unit, Affected settings.closure a.graph a.outOfDate unit ∧ unit.absolute = p)
    (hfailed : ∀ p ∈ first.failures.map RemovalFailure.path, p ∉ first.removed)
    (hnothing : second.failures = [])
    (hremoved : ∀ p, p ∈ second.removed ↔
      ∃ unit, DueAfter settings table fs' a first.removed unit ∧ unit.absolute = p) :
    Retries settings table fs' a first second where
  nothing_failed := hnothing
  removed := hremoved
  failed p hp := by
    obtain ⟨unit, hunit, rfl⟩ := hattempted p (List.mem_append_right _ hp)
    refine ⟨unit, ⟨hunit.unit?, hfailed _ hp⟩, rfl, fun hmem => ?_,
      fun hdue => (hremoved _).mpr ⟨unit, hdue, rfl⟩⟩
    obtain ⟨other, hother, habsolute⟩ := (hremoved _).mp hmem
    obtain rfl := h.found.unit_unique h.tree h.unique hother.left.1 hunit.unit?
      (congrArg Path.components habsolute)
    exact hother
  complete hcauses p hp := by
    obtain ⟨unit, hunit, rfl⟩ := hattempted p (List.mem_append_right _ hp)
    exact (hremoved _).mpr ⟨unit, h.dueAfter_of_affected
      (fun p hp => hattempted p (List.mem_append_left _ hp)) hcauses hunit (hfailed _ hp), rfl⟩

/-- Without a cache, a run on the tree that another one has left, when every file in it can be
deleted and nothing else is different, deletes what is due after the first run. -/
theorem execute_execute_permitted (hcache : settings.cacheRoot = none) (extract : Extractor ε)
    (table : Option (Identity → Option Path)) (htree : fs.WellFormed)
    (hunique : Scan.OneToOne fs settings.outputRoots) {summary : RunSummary} {g : Gathering}
    (hrun : execute settings extract table fs = (.ok summary, g))
    (halike : Alike g.fileSystem fs') (hpermits : fs'.Permits) :
    ∃ a again g', (analyze settings extract table fs).1 = .ok a ∧
      execute settings extract table fs' = (.ok again, g') ∧
      Retries settings table g.fileSystem a summary again := by
  obtain ⟨a, hanalyze, h, hattempted, -⟩ := exists_remainder_affected hcache htree hunique hrun
  obtain ⟨a', g₁, hanalyze', h'⟩ := h.exists_analyze_of_alike halike hcache
  have hrun' := run_of_ok hanalyze' false rfl
  refine ⟨a, _, _, hanalyze, hrun', retries_of_removed h hattempted
    (fun p hp => not_mem_removed_of_failed hrun hp)
    (failures_execute_of_permits hcache hpermits hrun') fun p => ?_⟩
  rw [mem_removed_iff_of_permits hcache (halike.wellFormed (h.without.wellFormed htree))
    (halike.oneToOne (hunique.without h.without)) hpermits (congrArg Prod.fst hanalyze') hrun']
  simp only [h.affected_iff_dueAfter (fun p hp => hattempted p (List.mem_append_left _ hp)) h']

/-- A class with a newer source, a nested class without one that refers to it, and in a sealed
directory a class that refers to the nested one and a class that refers to the first. -/
def sealedTree : FileSystem :=
  ([("/o/E$Y.class", 2, [0]), ("/o/X.class", 2, []), ("/o/p/G.class", 2, [0, 0]),
    ("/o/p/H.class", 2, [0]), ("/s/X.java", 3, [])].foldl
    (fun fs (p, time, content) => fs.addFile (Path.ofString p) time content)
    (FileSystem.empty 4)).restrict [Path.ofString "/o/p"] []

def sealedSettings : Settings where
  sourceRoots := [Path.ofString "/s"]
  outputRoots := [Path.ofString "/o"]
  closure := true

def sealedReferences : Extractor String
  | [] => .ok []
  | [_] => .ok ["X"]
  | _ => .ok ["E$Y"]

/-- The tree that a run leaves of these classes. -/
def sealedLeft : FileSystem :=
  (execute sealedSettings sealedReferences none sealedTree).2.fileSystem

theorem fst_execute_sealed :
    (execute sealedSettings sealedReferences none sealedTree).1.toOption.map
        (fun summary => (summary.removed, summary.failures)) =
      some ([Path.ofString "/o/E$Y.class", Path.ofString "/o/X.class"],
        [⟨Path.ofString "/o/p/H.class", .permissionDenied⟩,
          ⟨Path.ofString "/o/p/G.class", .permissionDenied⟩]) := by
  cbv

theorem fst_execute_sealedLeft :
    (execute sealedSettings sealedReferences none sealedLeft.free).1.toOption.map
        RunSummary.removed = some [Path.ofString "/o/p/H.class"] := by
  cbv

theorem wellFormed_sealedTree : sealedTree.WellFormed :=
  WellFormed.restrict
    (List.foldlRecOn _ _ (WellFormed.empty 4) fun _ h _ _ => h.addFile _ _ _) _ _

theorem oneToOne_sealedTree : Scan.OneToOne sealedTree sealedSettings.outputRoots := by
  have hcarried : Scan.carried sealedTree sealedSettings.outputRoots =
      [("E$Y", ["E$Y.class"]), ("X", ["X.class"]), ("p.G", ["p", "G.class"]),
        ("p.H", ["p", "H.class"])].map fun row =>
          (Location.ofNames (("o" :: row.2).map Utf8.encode), row.1) := by
    cbv
  rw [Scan.oneToOne_iff, hcarried]
  decide

theorem open_sealedTree :
    (sealedTree.refusal?, sealedTree.entries.toList.all fun row => row.2.access ≠ .locked) =
      (fun _ => none, true) := by
  cbv

/-- What is left can be read as before when everything is allowed, and deleted. -/
theorem permits_of_execute_sealed {summary : RunSummary} {g : Gathering}
    (hrun : execute sealedSettings sealedReferences none sealedTree = (.ok summary, g)) :
    Alike g.fileSystem g.fileSystem.free ∧ g.fileSystem.free.Permits := by
  obtain ⟨a, -, h, -⟩ :=
    exists_remainder_affected rfl wellFormed_sealedTree oneToOne_sealedTree hrun
  obtain ⟨hrefusal, haccess⟩ := Prod.mk.inj open_sealedTree
  refine ⟨alike_free fun l e he hlocked => ?_,
    permits_free (h.without.wellFormed wellFormed_sealedTree) fun l => ?_⟩
  · obtain ⟨e', he', hsame⟩ := h.without.exists_access he
    have hopen := List.all_eq_true.mp haccess _
      (Std.TreeMap.mem_toList_iff_getElem?_eq_some.mpr he')
    rw [hsame, hlocked] at hopen
    simp at hopen
  · rw [h.without.refusal, hrefusal]

theorem execute_execute_permitted_sealed :
    sealedSettings.cacheRoot = none ∧ sealedTree.WellFormed ∧
    Scan.OneToOne sealedTree sealedSettings.outputRoots ∧
    ∃ summary g, execute sealedSettings sealedReferences none sealedTree = (.ok summary, g) ∧
      summary.failures.map RemovalFailure.path =
        [Path.ofString "/o/p/H.class", Path.ofString "/o/p/G.class"] ∧
      Alike g.fileSystem g.fileSystem.free ∧ g.fileSystem.free.Permits ∧
      ∃ a again g', (analyze sealedSettings sealedReferences none sealedTree).1 = .ok a ∧
        execute sealedSettings sealedReferences none g.fileSystem.free = (.ok again, g') ∧
        Retries sealedSettings none g.fileSystem a summary again := by
  have hfirst := fst_execute_sealed
  rcases hrun : execute sealedSettings sealedReferences none sealedTree with ⟨e | summary, g⟩
  · rw [hrun] at hfirst
    cases hfirst
  · rw [hrun] at hfirst
    obtain ⟨-, hfailures⟩ := Prod.mk.inj (Option.some.inj hfirst)
    obtain ⟨halike, hpermits⟩ := permits_of_execute_sealed hrun
    exact ⟨rfl, wellFormed_sealedTree, oneToOne_sealedTree, summary, g, rfl,
      by rw [hfailures]; rfl, halike, hpermits,
      execute_execute_permitted rfl sealedReferences none wellFormed_sealedTree
        oneToOne_sealedTree hrun halike hpermits⟩

/-- A second run forgets what only a nested class without a source referred on to. -/
theorem not_execute_execute_permitted :
    ¬∀ (settings : Settings) (extract : Extractor String)
      (table : Option (Identity → Option Path)) (fs fs' : FileSystem) summary g,
      settings.cacheRoot = none → fs.WellFormed → Scan.OneToOne fs settings.outputRoots →
      execute settings extract table fs = (.ok summary, g) → Alike g.fileSystem fs' →
      fs'.Permits → ∀ again g', execute settings extract table fs' = (.ok again, g') →
        ∀ p ∈ summary.failures.map RemovalFailure.path, p ∈ again.removed := by
  intro h
  have hfirst := fst_execute_sealed
  have hsecond := fst_execute_sealedLeft
  rw [sealedLeft] at hsecond
  rcases hrun : execute sealedSettings sealedReferences none sealedTree with ⟨e | summary, g⟩
  · rw [hrun] at hfirst
    cases hfirst
  · rw [hrun] at hfirst hsecond
    obtain ⟨-, hfailures⟩ := Prod.mk.inj (Option.some.inj hfirst)
    obtain ⟨halike, hpermits⟩ := permits_of_execute_sealed hrun
    dsimp only at hsecond
    rcases hrun' : execute sealedSettings sealedReferences none g.fileSystem.free with
      ⟨e | again, g'⟩
    · rw [hrun'] at hsecond
      cases hsecond
    · rw [hrun'] at hsecond
      have hremoved : again.removed = [Path.ofString "/o/p/H.class"] := Option.some.inj hsecond
      have hmem := h _ _ _ _ _ summary g rfl wellFormed_sealedTree oneToOne_sealedTree hrun halike
        hpermits again g' hrun' (Path.ofString "/o/p/G.class") (by rw [hfailures]; simp)
      rw [hremoved] at hmem
      revert hmem
      decide

end Run
end Freshness
