import Freshness.Proofs.FileSystem.Refusal
import Freshness.Proofs.Run.Footprint
import Mathlib

/-!
# Plans and runs

A plan and a run analyze the same tree and go through the same paths in the same order.
What a plan lists is what a run deletes together with what it cannot delete, whatever
deletions fail.  What the cache writes before matters to neither, unless a link diverts it.
-/

namespace Freshness

open FileSystem

namespace Run

variable {ε : Type} {settings : Settings} {extract : Extractor ε}
  {table : Option (Identity → Option Path)} {fs fs' : FileSystem}

/-- Artifacts with different paths are different files. -/
def NameDifferentFiles (fs : FileSystem) (units : UnitMap) : Prop :=
  ∀ (id id' : Identity) unit unit',
    units[id]? = some unit → units[id']? = some unit' →
    unit.absolute.components ≠ unit'.absolute.components →
      ¬fs.SameFile unit.absolute unit'.absolute

/-- A plan says what a run does that begins in the same tree `fs`.  The tree is `planned`
after the plan and `executed` after the run. -/
structure Foretells (settings : Settings) (fs planned executed : FileSystem)
    (plan run : RunSummary) : Prop where
  outOfDate : plan.outOfDate = run.outOfDate
  stats : plan.stats = run.stats
  dump : plan.dump = run.dump
  interleaving :
    Interleaving run.removed (run.failures.map RemovalFailure.path) plan.removed
  distinct : (run.removed ++ run.failures.map RemovalFailure.path).Pairwise
    fun p q => p.components ≠ q.components
  gone : ∀ p ∈ run.removed, executed.pathExists p = false
  kept : ∀ p ∈ run.failures.map RemovalFailure.path, executed.isFile p = true
  nothing_failed : plan.failures = []
  /-- The plan deletes nothing; only files of the cache are written. -/
  nothing_deleted : Footprint settings fs [] planned
  artifacts : ∀ (id : Identity) unit,
    (Scan.compiledUnits fs settings.outputRoots)[id]? = some unit →
      planned.lookup? unit.absolute = fs.lookup? unit.absolute
  cacheless : settings.cacheRoot = none → planned = fs

/-- Artifacts that are different files are different files still when only files of the
cache have been written. -/
theorem NameDifferentFiles.of_confined (htree : fs.WellFormed) (h : Confined settings fs fs')
    (hdifferent : NameDifferentFiles fs (Scan.compiledUnits fs settings.outputRoots)) :
    NameDifferentFiles fs' (Scan.compiledUnits fs settings.outputRoots) := by
  have hbefore : ∀ (id : Identity) unit l,
      (Scan.compiledUnits fs settings.outputRoots)[id]? = some unit →
      fs'.resolve unit.absolute = .ok l → fs'.HasFile l →
        fs.resolve unit.absolute = .ok l ∧ fs.HasFile l := by
    intro id unit l hunit hl hfile
    obtain ⟨dirs, stem, hplaced⟩ := Scan.placed_of_compiledUnits htree hunit
    obtain ⟨m, hm, hmfile, -, -, hlocate⟩ :=
      h.exists_artifact htree hplaced (isFile_iff.mpr ⟨l, hl, hfile⟩)
    obtain rfl := hlocate .inspect l (resolve_eq_ok_iff_locate.mp hl)
    exact ⟨hm, hmfile⟩
  intro id id' unit unit' hunit hunit' hne
  rintro ⟨l, hl, hl', hfile⟩
  obtain ⟨hresolve, hfileBefore⟩ := hbefore id unit l hunit hl hfile
  obtain ⟨hresolve', -⟩ := hbefore id' unit' l hunit' hl' hfile
  exact hdifferent id id' unit unit' hunit hunit' hne ⟨l, hresolve, hresolve', hfileBefore⟩

/-- A plan and a run whose analysis finds something find the same and go through the
same paths. -/
theorem exists_foretells {a : Analysis} {g : Gathering} (htree : fs.WellFormed)
    (hanalyze : analyze settings extract table fs = (.ok a, g))
    (hconfined : Confined settings fs g.fileSystem)
    (hrefusal : ∀ l, g.fileSystem.refusal? l ≠ some .notFound)
    (hcacheless : settings.cacheRoot = none → g.fileSystem = fs)
    (hdifferent : NameDifferentFiles fs (Scan.compiledUnits fs settings.outputRoots)) :
    ∃ planned executed, (run true settings extract table fs).1 = .ok planned ∧
      (run false settings extract table fs).1 = .ok executed ∧
      Foretells settings fs (run true settings extract table fs).2.fileSystem
        (run false settings extract table fs).2.fileSystem planned executed := by
  obtain ⟨paths, hpaths, hdistinct, hsweep⟩ := exists_attempts_of_analyze hanalyze
  have hfiles : paths.Pairwise fun p q => ¬g.fileSystem.SameFile p q := by
    apply hdistinct.imp_of_mem
    intro p q hp hq hne
    obtain ⟨id, unit, hunit, rfl⟩ := hpaths p hp
    obtain ⟨id', unit', hunit', rfl⟩ := hpaths q hq
    exact hdifferent.of_confined htree hconfined id id' unit unit' hunit hunit' hne
  obtain ⟨removed, failures, hremoved, hfailures, hdeletes⟩ :=
    Sweep.deletes_foldl_attempt
      (s := { fileSystem := g.fileSystem, dryRun := false }) rfl hrefusal hfiles
  obtain ⟨seen, hplan⟩ := hsweep true
  obtain ⟨seen', hexecute⟩ := hsweep false
  rw [Sweep.foldl_attempt_dryRun rfl] at hplan
  rw [run_of_ok hanalyze true hplan, run_of_ok hanalyze false hexecute]
  refine ⟨_, _, rfl, rfl, ?_⟩
  rw [List.nil_append] at hremoved hfailures
  constructor
  · rfl
  · rfl
  · rfl
  · dsimp only
    rw [hremoved, hfailures, List.nil_append]
    exact hdeletes.interleaving
  · dsimp only
    rw [hremoved, hfailures]
    apply (hdeletes.interleaving.perm.pairwise_iff fun h => Ne.symm h).mpr
    exact hdistinct.filter _
  · intro p hp
    rw [← Bool.not_eq_true, pathExists_iff]
    rintro ⟨l, hl⟩
    exact hdeletes.gone p (hremoved ▸ hp) l hl
  · intro p hp
    exact hdeletes.kept p (hfailures ▸ hp)
  · rfl
  · exact footprint_of_confined hconfined
  · intro id unit hunit
    obtain ⟨dirs, stem, hplaced⟩ := Scan.placed_of_compiledUnits htree hunit
    exact (hconfined.artifact hplaced).2
  · exact hcacheless

/-- A plan says what a run does, whatever deletions fail, if artifacts with different
paths are different files when both begin and no link diverts what the cache writes. -/
theorem plan_foretells_execute
    (settings : Settings) (extract : Extractor ε)
    (table : Option (Identity → Option Path)) {fs : FileSystem} (htree : fs.WellFormed)
    (hrefusal : ∀ l, fs.refusal? l ≠ some .notFound)
    (hdifferent : NameDifferentFiles fs (Scan.compiledUnits fs settings.outputRoots))
    (hlinks : Cache.Undiverted (settings.cacheRoot.map Cache.mk)
      (Scan.compiledUnits fs settings.outputRoots).values fs) :
    (∃ e, (plan settings extract table fs).1 = .error e ∧
      (execute settings extract table fs).1 = .error e) ∨
    ∃ planned executed, (plan settings extract table fs).1 = .ok planned ∧
      (execute settings extract table fs).1 = .ok executed ∧
      Foretells settings fs (plan settings extract table fs).2.fileSystem
        (execute settings extract table fs).2.fileSystem planned executed := by
  have hconfined := confined_analyze settings extract table htree
    (Cache.guards_undiverted _ _) hlinks
  have hrefusal' : ∀ l, (analyze settings extract table fs).2.fileSystem.refusal? l ≠
      some .notFound := by
    rw [snd_analyze, Gathering.refusal?_addUnits]
    exact hrefusal
  have hcacheless : settings.cacheRoot = none →
      (analyze settings extract table fs).2.fileSystem = fs := by
    intro hnone
    rw [snd_analyze, hnone]
    exact Gathering.fileSystem_addUnits extract _ _
  rw [plan, execute]
  rcases hanalyze : analyze settings extract table fs with ⟨e | a, g⟩
  · rw [run_of_error hanalyze, run_of_error hanalyze]
    exact Or.inl ⟨e, rfl, rfl⟩
  · rw [hanalyze] at hconfined hrefusal' hcacheless
    exact Or.inr (exists_foretells htree hanalyze hconfined hrefusal' hcacheless hdifferent)

/-- Different artifacts are different files if their paths lead to different locations. -/
theorem nameDifferentFiles_of_nodup {units : UnitMap}
    (h : (units.values.map fun unit => fs.resolve unit.absolute).Nodup) :
    NameDifferentFiles fs units := by
  intro id id' unit unit' hunit hunit' hne
  rintro ⟨l, hl, hl', -⟩
  have heq := List.inj_on_of_nodup_map h (mem_values_iff.mpr ⟨id, hunit⟩)
    (mem_values_iff.mpr ⟨id', hunit'⟩) (hl.trans hl'.symm)
  exact hne (by rw [heq])

/-! ## Units that wait for a class -/

/-- A tree of empty files. -/
def treeOf (paths : List String) : FileSystem :=
  paths.foldl (fun fs p => fs.addFile (Path.ofString p) 1 []) (FileSystem.empty 1)

theorem wellFormed_treeOf (paths : List String) : (treeOf paths).WellFormed :=
  List.foldlRecOn _ _ (WellFormed.empty 1) fun _ h _ _ => h.addFile _ _ _

/-- Every class refers to a class that was never compiled. -/
def referToNew : Extractor String := fun _ => .ok ["N"]

/-- The graph of some units that all refer to a class that was never compiled. -/
def awaiting (units : List CompiledUnit) : DependencyGraph :=
  .ofReferences (Scan.ofUnits units)
    (units.foldl (fun forward unit => forward.insert unit.id ["N"]) {})

/-- Different units, none of them nested, wait for a class that is not among them. -/
structure Await (units : List CompiledUnit) : Prop where
  values : (Scan.ofUnits units).values = units
  missing : (awaiting units).unit? "N" = none
  dependents : (awaiting units).dependents "N" = units
  outermost : ∀ unit ∈ units, Identity.enclosing? unit.id = none

/-- What is left of a tree when the references of units that wait have been kept. -/
def leftBy (cache : Cache) (fs : FileSystem) (units : List CompiledUnit) : FileSystem :=
  cache.putAll fs (units.map fun unit => (unit, ["N"]))

/-- What is deleted, or would be, among units that wait. -/
def sweepOf (cache : Cache) (fs : FileSystem) (units : List CompiledUnit) (dryRun : Bool) : Sweep :=
  units.foldl Sweep.remove { fileSystem := leftBy cache fs units, dryRun }

/-- A direct run goes through all units that wait for the only source. -/
theorem exists_run_of_await {settings : Settings} {cache : Cache} {units : List CompiledUnit}
    {source : Path} (hclosure : settings.closure = false) (hclasspath : settings.classpath = [])
    (hcache : settings.cacheRoot.map Cache.mk = some cache)
    (hscan : settings.outputRoots.flatMap (Scan.unitsBelow fs) = units) (hawait : Await units)
    (hturns : ∀ turn ∈ Gathering.turns cache ["N"] fs units, turn = (false, .ok []))
    (hsources : Scan.sourceUnits (leftBy cache fs units) settings.sourceRoots = [⟨"N", source⟩])
    (dryRun : Bool) :
    ∃ summary, (run dryRun settings referToNew none fs).1 = .ok summary ∧
      summary.removed = (sweepOf cache fs units dryRun).removed ∧
      summary.failures = (sweepOf cache fs units dryRun).failures := by
  obtain ⟨g, hadd, hleft, hforward⟩ :=
    Gathering.exists_addUnits_of_turns (show referToNew [] = .ok ["N"] from rfl)
      { fileSystem := fs } hturns
  have hbuild : DependencyGraph.build fs (Scan.compiledUnits fs settings.outputRoots)
      (settings.cacheRoot.map Cache.mk) referToNew = (.ok (awaiting units), g) := by
    rw [Scan.compiledUnits, hscan, hcache, DependencyGraph.build, hawait.values, hadd]
    dsimp only
    rw [hforward, awaiting]
  rw [leftBy, ← hleft] at hsources
  rw [sweepOf, leftBy, ← hleft]
  exact exists_run_of_missing hclosure hclasspath hbuild hsources hawait.missing hawait.dependents
    hawait.outermost dryRun

/-- Two artifacts, of which the one that lies deeper cannot be deleted, and a source that was never
compiled. -/
def guardedTree : FileSystem :=
  { treeOf ["/out/A.class", "/out/p/B.class", "/s/N.java"] with
    refusal? := fun l => if l.depth = 3 then some .permissionDenied else none }

def guardedSettings : Settings where
  sourceRoots := [Path.ofString "/s"]
  outputRoots := [Path.ofString "/out"]
  cacheRoot := some (Path.ofString "/k")

def guardedCache : Cache := ⟨Path.ofString "/k"⟩

def guardedUnits : List CompiledUnit :=
  [⟨"A", Path.ofString "/out/A.class", Path.ofString "A"⟩,
    ⟨"p.B", Path.ofString "/out/p/B.class", Path.ofString "p/B"⟩]

theorem wellFormed_guardedTree : guardedTree.WellFormed := by
  have hfiles := wellFormed_treeOf ["/out/A.class", "/out/p/B.class", "/s/N.java"]
  exact ⟨hfiles.root, hfiles.isName, hfiles.holder⟩

theorem refusal?_guardedTree (l : Location) : guardedTree.refusal? l ≠ some .notFound := by
  intro h
  change (if l.depth = 3 then some OsError.permissionDenied else none) = some .notFound at h
  split at h <;> cases h

theorem unitsBelow_guardedTree :
    guardedSettings.outputRoots.flatMap (Scan.unitsBelow guardedTree) = guardedUnits := by
  cbv

theorem await_guardedUnits : Await guardedUnits where
  values := by decide +kernel
  missing := by decide +kernel
  dependents := by decide +kernel
  outermost := by decide +kernel

theorem values_guardedTree :
    (Scan.compiledUnits guardedTree guardedSettings.outputRoots).values = guardedUnits := by
  rw [Scan.compiledUnits, unitsBelow_guardedTree, await_guardedUnits.values]

theorem nameDifferentFiles_guardedTree : NameDifferentFiles guardedTree
    (Scan.compiledUnits guardedTree guardedSettings.outputRoots) := by
  have hresolve : guardedUnits.map (fun unit => guardedTree.resolve unit.absolute) =
      [.ok (Location.ofNames [Utf8.encode "out", Utf8.encode "A.class"]),
        .ok (Location.ofNames [Utf8.encode "out", Utf8.encode "p", Utf8.encode "B.class"])] := by
    cbv
  apply nameDifferentFiles_of_nodup
  rw [values_guardedTree, hresolve]
  decide

theorem undiverted_guardedTree (cache : Option Cache) (units : List CompiledUnit) :
    Cache.Undiverted cache units guardedTree := by
  have hnodes : guardedTree.entries.toList.map (fun row => row.2.node) =
      [.directory, .directory, .directory, .file [], .file [], .directory, .file []] := by
    cbv
  exact Or.inr fun _ _ => Cache.noLinkNamed_of_forall (not_link_of_forall (by rw [hnodes]; simp))

theorem turns_guardedTree : Gathering.turns guardedCache ["N"] guardedTree guardedUnits =
    [(false, .ok []), (false, .ok [])] := by
  cbv

theorem sourceUnits_guardedTree :
    Scan.sourceUnits (leftBy guardedCache guardedTree guardedUnits) guardedSettings.sourceRoots =
      [⟨"N", Path.ofString "/s/N.java"⟩] := by
  cbv

theorem sweepOf_guardedTree :
    ((sweepOf guardedCache guardedTree guardedUnits false).removed,
      (sweepOf guardedCache guardedTree guardedUnits false).failures) =
    ([Path.ofString "/out/A.class"], [⟨Path.ofString "/out/p/B.class", .permissionDenied⟩]) := by
  cbv

theorem exists_execute_guardedTree :
    ∃ executed, (execute guardedSettings referToNew none guardedTree).1 = .ok executed ∧
      executed.removed = [Path.ofString "/out/A.class"] ∧
      executed.failures = [⟨Path.ofString "/out/p/B.class", .permissionDenied⟩] := by
  obtain ⟨executed, hexecuted, hremoved, hfailures⟩ :=
    exists_run_of_await rfl rfl rfl unitsBelow_guardedTree await_guardedUnits
      (by simp [turns_guardedTree]) sourceUnits_guardedTree false
  obtain ⟨hremoved', hfailures'⟩ := Prod.mk.inj sweepOf_guardedTree
  exact ⟨executed, hexecuted, hremoved.trans hremoved', hfailures.trans hfailures'⟩

theorem plan_foretells_execute_guarded :
    guardedTree.WellFormed ∧
    (∀ l, guardedTree.refusal? l ≠ some .notFound) ∧
    NameDifferentFiles guardedTree (Scan.compiledUnits guardedTree guardedSettings.outputRoots) ∧
    Cache.Undiverted (guardedSettings.cacheRoot.map Cache.mk)
      (Scan.compiledUnits guardedTree guardedSettings.outputRoots).values guardedTree ∧
    (∃ executed, (execute guardedSettings referToNew none guardedTree).1 = .ok executed ∧
      executed.removed = [Path.ofString "/out/A.class"] ∧
      executed.failures = [⟨Path.ofString "/out/p/B.class", .permissionDenied⟩]) ∧
    ((∃ e, (plan guardedSettings referToNew none guardedTree).1 = .error e ∧
        (execute guardedSettings referToNew none guardedTree).1 = .error e) ∨
      ∃ planned executed,
        (plan guardedSettings referToNew none guardedTree).1 = .ok planned ∧
        (execute guardedSettings referToNew none guardedTree).1 = .ok executed ∧
        Foretells guardedSettings guardedTree
          (plan guardedSettings referToNew none guardedTree).2.fileSystem
          (execute guardedSettings referToNew none guardedTree).2.fileSystem
          planned executed) :=
  ⟨wellFormed_guardedTree, refusal?_guardedTree, nameDifferentFiles_guardedTree,
    undiverted_guardedTree _ _, exists_execute_guardedTree,
    plan_foretells_execute guardedSettings referToNew none wellFormed_guardedTree
      refusal?_guardedTree nameDifferentFiles_guardedTree (undiverted_guardedTree _ _)⟩

/-! ## A link that is called like a file of the cache -/

/-- A root leads through a link that has the place of an entry.  The link that has the place of the
file that becomes the entry leads to where the cache creates a file, moves it away and creates a
directory, so that the root leads to a directory with another artifact from then on. -/
def strayTree : FileSystem :=
  (((treeOf ["/x/A.class", "/c/o/A.class", "/out/o/A.dep.tmp/Z.class", "/s/N.java"]).addDirectory
    (Path.ofString "/x/d")).addLink (Path.ofString "/c/A.dep") (Path.ofString "../x/d")).addLink
      (Path.ofString "/c/A.dep.tmp") (Path.ofString "o/A.dep.tmp")

def straySettings : Settings where
  sourceRoots := [Path.ofString "/s"]
  outputRoots := [Path.ofString "/c/A.dep/..", Path.ofString "/c", Path.ofString "/out"]
  cacheRoot := some (Path.ofString "/c")

def strayCache : Cache := ⟨Path.ofString "/c"⟩

def strayUnits : List CompiledUnit :=
  [⟨"A", Path.ofString "/c/A.dep/../A.class", Path.ofString "A"⟩,
    ⟨"o.A", Path.ofString "/c/o/A.class", Path.ofString "o/A"⟩,
    ⟨"o.A.dep.tmp.Z", Path.ofString "/out/o/A.dep.tmp/Z.class", Path.ofString "o/A.dep.tmp/Z"⟩]

theorem wellFormed_strayTree : strayTree.WellFormed :=
  (((wellFormed_treeOf _).createDirectories _).addLink _ _).addLink _ _

theorem refusal?_strayTree (l : Location) : strayTree.refusal? l = none := by
  cbv

theorem unitsBelow_strayTree :
    straySettings.outputRoots.flatMap (Scan.unitsBelow strayTree) = strayUnits := by
  cbv

theorem await_strayUnits : Await strayUnits where
  values := by decide +kernel
  missing := by decide +kernel
  dependents := by decide +kernel
  outermost := by decide +kernel

theorem nameDifferentFiles_strayTree : NameDifferentFiles strayTree
    (Scan.compiledUnits strayTree straySettings.outputRoots) := by
  have hresolve : strayUnits.map (fun unit => strayTree.resolve unit.absolute) =
      [.ok (Location.ofNames [Utf8.encode "x", Utf8.encode "A.class"]),
        .ok (Location.ofNames [Utf8.encode "c", Utf8.encode "o", Utf8.encode "A.class"]),
        .ok (Location.ofNames [Utf8.encode "out", Utf8.encode "o", Utf8.encode "A.dep.tmp",
          Utf8.encode "Z.class"])] := by
    cbv
  apply nameDifferentFiles_of_nodup
  rw [Scan.compiledUnits, unitsBelow_strayTree, await_strayUnits.values, hresolve]
  decide

theorem turns_strayTree : Gathering.turns strayCache ["N"] strayTree strayUnits =
    [(false, .ok []), (false, .ok []), (false, .ok [])] := by
  cbv

theorem sourceUnits_strayTree :
    Scan.sourceUnits (leftBy strayCache strayTree strayUnits) straySettings.sourceRoots =
      [⟨"N", Path.ofString "/s/N.java"⟩] := by
  cbv

/-- A plan lists two paths of one file, which a run deletes once. -/
theorem sweepOf_strayTree :
    ((sweepOf strayCache strayTree strayUnits true).removed.length,
      (sweepOf strayCache strayTree strayUnits false).removed.length,
      (sweepOf strayCache strayTree strayUnits false).failures.length) = (3, 2, 0) := by
  cbv

/-- A link that is called like a file of the cache may make one file of two artifacts, and then a
plan lists more than a run deletes. -/
theorem not_plan_foretells_execute_stray :
    ¬∀ (settings : Settings) (extract : Extractor String) (fs : FileSystem), fs.WellFormed →
      (∀ l, fs.refusal? l ≠ some .notFound) →
      NameDifferentFiles fs (Scan.compiledUnits fs settings.outputRoots) →
      (∃ e, (plan settings extract none fs).1 = .error e ∧
        (execute settings extract none fs).1 = .error e) ∨
      ∃ planned executed, (plan settings extract none fs).1 = .ok planned ∧
        (execute settings extract none fs).1 = .ok executed ∧
        Interleaving executed.removed (executed.failures.map RemovalFailure.path)
          planned.removed := by
  intro h
  have hcache : straySettings.cacheRoot.map Cache.mk = some strayCache := rfl
  have hrun := exists_run_of_await rfl rfl hcache unitsBelow_strayTree await_strayUnits
    (by simp [turns_strayTree]) sourceUnits_strayTree
  obtain ⟨planned, hplan, hplanned, -⟩ := hrun true
  obtain ⟨executed, hexecute, hremoved, hfailures⟩ := hrun false
  rcases h straySettings referToNew strayTree wellFormed_strayTree
    (fun l => by rw [refusal?_strayTree]; simp) nameDifferentFiles_strayTree with
    ⟨e, he, -⟩ | ⟨planned', executed', hplan', hexecute', hall⟩
  · exact absurd (hplan.symm.trans he) (by simp)
  · obtain rfl := Except.ok.inj (hplan.symm.trans hplan')
    obtain rfl := Except.ok.inj (hexecute.symm.trans hexecute')
    have hlength := hall.perm.length_eq
    obtain ⟨hthree, hrest⟩ := Prod.mk.inj sweepOf_strayTree
    obtain ⟨htwo, hzero⟩ := Prod.mk.inj hrest
    rw [List.length_append, List.length_map, hplanned, hremoved, hfailures, hthree, htwo, hzero]
      at hlength
    cases hlength

end Run
end Freshness
