import Freshness.Proofs.Invalidation.Deletion
import Freshness.Proofs.Invalidation.Modes
import Freshness.Proofs.Run.Analysis

/-!
# What a run attempts

A plan and a run that deletes go through the same paths in the same order.  The paths are those of
scanned units, they are different from each other, and the analysis alone determines them.
-/

namespace Freshness

open FileSystem

namespace Invalidation

/-- What an invalidation attempts does not depend on the tree or on whether it
deletes. -/
theorem exists_attempts {g : DependencyGraph} (hg : g.WellFormed) (closure : Bool)
    (stale : OutOfDate) :
    ∃ paths : List Path,
      (∀ p ∈ paths, ∃ unit, g.unit? unit.id = some unit ∧ unit.absolute = p) ∧
      (paths.Pairwise fun p q => p.components ≠ q.components) ∧
      ∀ dryRun fs, ∃ seen, invalidate closure dryRun g stale fs =
        { paths.foldl Sweep.attempt { fileSystem := fs, dryRun } with
          attempted := seen } := by
  obtain ⟨order, horder, heq⟩ := exists_order hg closure stale
  have hattempts := Sweep.attempts_firsts order
  refine ⟨_, ?_, hattempts.distinct, ?_⟩
  · intro p hp
    obtain ⟨unit, hunit, rfl⟩ := hattempts.sound p hp
    exact ⟨unit, ((horder unit).mp hunit).unit?, rfl⟩
  · intro dryRun fs
    rw [heq]
    exact Sweep.foldl_remove_eq { fileSystem := fs, dryRun } order

end Invalidation

namespace Run

variable {ε : Type} {settings : Settings} {extract : Extractor ε} {fs : FileSystem}
  {graph : DependencyGraph} {g : Gathering} {source : SourceUnit} {units : List CompiledUnit}

/-- After an analysis that finds something, a run attempts different paths of scanned units, which
do not depend on whether it deletes. -/
theorem exists_attempts_of_analyze
    {table : Option (Identity → Option Path)} {a : Analysis}
    (hanalyze : analyze settings extract table fs = (.ok a, g)) :
    ∃ paths : List Path,
      (∀ p ∈ paths, ∃ (id : Identity) (unit : CompiledUnit),
        (Scan.compiledUnits fs settings.outputRoots)[id]? = some unit ∧ unit.absolute = p) ∧
      (paths.Pairwise fun p q => p.components ≠ q.components) ∧
      ∀ dryRun, ∃ seen, Invalidation.invalidate settings.closure dryRun a.graph a.outOfDate
          g.fileSystem =
        { paths.foldl Sweep.attempt { fileSystem := g.fileSystem, dryRun } with
          attempted := seen } := by
  have hgraph := exists_ofReferences_of_analyze hanalyze
  have hwell : a.graph.WellFormed := by
    rw [hgraph]
    exact DependencyGraph.wellFormed_ofReferences (keyed_ofUnits _) _
  have hunits : a.graph.units = Scan.compiledUnits fs settings.outputRoots := by
    rw [hgraph]
    rfl
  obtain ⟨paths, hpaths, hdistinct, hsweep⟩ :=
    Invalidation.exists_attempts hwell settings.closure a.outOfDate
  refine ⟨paths, ?_, hdistinct, fun dryRun => hsweep dryRun g.fileSystem⟩
  intro p hp
  obtain ⟨unit, hunit, habsolute⟩ := hpaths p hp
  rw [DependencyGraph.unit?, hunits] at hunit
  exact ⟨unit.id, unit, hunit, habsolute⟩

/-- Where one source is missing in the graph, a direct run goes through the units that refer to it,
if there is no other source and none of the units is nested. -/
theorem exists_run_of_missing (hclosure : settings.closure = false)
    (hclasspath : settings.classpath = [])
    (hbuild : DependencyGraph.build fs (Scan.compiledUnits fs settings.outputRoots)
      (settings.cacheRoot.map Cache.mk) extract = (.ok graph, g))
    (hsources : Scan.sourceUnits g.fileSystem settings.sourceRoots = [source])
    (hmissing : graph.unit? source.id = none) (hunits : graph.dependents source.id = units)
    (hnested : ∀ unit ∈ units, Identity.enclosing? unit.id = none) (dryRun : Bool) :
    ∃ summary, (run dryRun settings extract none fs).1 = .ok summary ∧
      summary.removed =
        (units.foldl Sweep.remove { fileSystem := g.fileSystem, dryRun }).removed ∧
      summary.failures =
        (units.foldl Sweep.remove { fileSystem := g.fileSystem, dryRun }).failures := by
  let stale : OutOfDate := ({} : OutOfDate).insertIfNew source.id .neverCompiled
  have hstale : OutOfDate.find g.fileSystem [source] graph none = stale := by
    simp [OutOfDate.find, OutOfDate.bySources, OutOfDate.sourceReason?, hmissing, OutOfDate.add,
      stale]
  have hanalyze : ∃ libraries stats,
      analyze settings extract none fs = (.ok ⟨graph, libraries, stale, stats⟩, g) := by
    rw [analyze, hbuild, ← hstale, ← hsources]
    dsimp only
    rw [libraries?, hclasspath]
    exact ⟨none, g.stats, rfl⟩
  have hkeys : stale.keys = [source.id] := rfl
  have hremove : ∀ s : Sweep, ∀ unit ∈ units, s.removeWithEnclosing graph unit = s.remove unit := by
    intro s unit hmem
    rw [Sweep.removeWithEnclosing, hnested unit hmem]
    rfl
  have hsweep : Invalidation.invalidate settings.closure dryRun graph stale g.fileSystem =
      units.foldl Sweep.remove { fileSystem := g.fileSystem, dryRun } := by
    rw [hclosure, Invalidation.invalidate, hkeys, Invalidation.sweepRoots,
      List.filterMap_cons_none hmissing]
    simp only [List.filterMap_nil, List.foldl_nil, Bool.false_eq_true, if_false,
      Invalidation.sweepDirect, List.foldl_cons, hunits]
    exact List.foldl_ext _ _ _ hremove
  obtain ⟨libraries, stats, hanalyze⟩ := hanalyze
  rw [run_of_ok hanalyze dryRun hsweep]
  exact ⟨_, rfl, rfl, rfl⟩
end Run
end Freshness
