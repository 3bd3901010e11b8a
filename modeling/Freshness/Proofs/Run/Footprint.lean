import Mathlib
import Freshness.Proofs.Cache.Keeping
import Freshness.Proofs.Run.Attempts

/-!
# What a run leaves alone

A run changes the files that its cache keeps for the scanned units, and deletes the artifacts that
it reports as removed.  Every other file keeps its content and its time, and is found at the same
paths; no file is created but those of the cache.
-/

namespace Freshness

open FileSystem

namespace Run

variable {ε : Type} {settings : Settings} {extract : Extractor ε}
  {table : Option (Identity → Option Path)} {fs fs₁ fs' : FileSystem}

/-- The location is that of a file which the cache keeps for a unit that is scanned in `fs`, in the
tree `fs'`. -/
def CacheFile (settings : Settings) (fs fs' : FileSystem) (l : Location) : Prop :=
  Cache.Owned (settings.cacheRoot.map Cache.mk)
    (Scan.compiledUnits fs settings.outputRoots).values fs' l

/-- A tree in which only the given paths have been removed, and only files of the cache have been
written. -/
structure Footprint (settings : Settings) (fs : FileSystem) (removed : List Path)
    (fs' : FileSystem) : Prop where
  /-- Other files and links are as they were, and there are no others. -/
  entry : ∀ l e, e.node ≠ .directory → ¬CacheFile settings fs fs' l →
    (fs'.entry? l = some e ↔ fs.entry? l = some e ∧ ∀ p ∈ removed, fs.resolve p ≠ .ok l)
  /-- No directory is gone. -/
  directory : ∀ l, fs.node? l = some .directory → fs'.node? l = some .directory
  /-- Other files and links are not hidden either. -/
  found : ∀ q l, fs.resolve q = .ok l → ¬CacheFile settings fs fs' l →
    (∀ p ∈ removed, fs.resolve p ≠ .ok l) → fs'.resolve q = .ok l
  /-- The files of the cache are told by their names. -/
  named : ∀ l, CacheFile settings fs fs' l →
    ∃ (d : Location) (stem : Name), l = d.child (stem ++ Utf8.encode ".dep") ∨
      l = d.child (stem ++ Utf8.encode ".dep" ++ Utf8.encode ".tmp")
  /-- What has been removed is an artifact below an output root, and is gone. -/
  removed : ∀ p ∈ removed,
    (∃ root ∈ settings.outputRoots, p ∈ fs.filesBelow root) ∧
      p.extension? = some (Utf8.encode Identity.compiledExtension) ∧
      ∃ l, fs.resolve p = .ok l ∧ fs.HasFile l ∧ fs'.entry? l = none

/-- What the cache has written while the references were looked for. -/
abbrev Confined (settings : Settings) (fs fs' : FileSystem) : Prop :=
  Cache.Confined (settings.cacheRoot.map Cache.mk)
    (Scan.compiledUnits fs settings.outputRoots).values fs fs'

theorem named_of_cacheFile {l : Location} (h : CacheFile settings fs fs' l) :
    ∃ (d : Location) (stem : Name), l = d.child (stem ++ Utf8.encode ".dep") ∨
      l = d.child (stem ++ Utf8.encode ".dep" ++ Utf8.encode ".tmp") := by
  obtain ⟨c, -, unit, -, howns⟩ := h
  exact howns.exists_child

theorem footprint_of_confined (h : Confined settings fs fs') : Footprint settings fs [] fs' where
  entry l e he hl := by simpa using h.entry l e he hl
  directory := h.directory
  found q l hq hl _ := h.found q l hq hl
  named _ := named_of_cacheFile
  removed _ hp := by cases hp

section Deletions

variable {paths removed failed : List Path}

/-- What is removed is a file, and it was one where it is before the cache was written. -/
theorem exists_location_of_removed (htree : fs.WellFormed) (h : Confined settings fs fs₁)
    (hpaths : ∀ p ∈ paths, ∃ (id : Identity) (unit : CompiledUnit),
      (Scan.compiledUnits fs settings.outputRoots)[id]? = some unit ∧ unit.absolute = p)
    (hsettles : Sweep.Settles fs₁ paths fs' removed failed) {p : Path} (hp : p ∈ removed) :
    ∃ l, fs.resolve p = .ok l ∧ fs.HasFile l ∧ fs₁.HasFile l ∧
      fs₁.locate .rearrange p = .ok (.found l) := by
  obtain ⟨hmem, hfile, -⟩ := hsettles.attempted p (List.mem_append_left failed hp)
  obtain ⟨id, unit, hunit, rfl⟩ := hpaths p hmem
  obtain ⟨dirs, stem, hplaced⟩ := Scan.placed_of_compiledUnits htree hunit
  obtain ⟨l, hl, hlfile, -, hlfile', hlocate⟩ := h.exists_artifact htree hplaced hfile
  obtain ⟨m, hm, -⟩ := isFile_iff.mp hfile
  obtain ⟨m', hm'⟩ := exists_locate_rearrange hm
  obtain rfl := hlocate _ _ hm'
  exact ⟨_, hl, hlfile, hlfile', hm'⟩

/-- Nothing but files is removed. -/
theorem hasFile_of_standFor (htree : fs.WellFormed) (h : Confined settings fs fs₁)
    (hpaths : ∀ p ∈ paths, ∃ (id : Identity) (unit : CompiledUnit),
      (Scan.compiledUnits fs settings.outputRoots)[id]? = some unit ∧ unit.absolute = p)
    (hsettles : Sweep.Settles fs₁ paths fs' removed failed) {l : Location}
    (hl : Sweep.StandFor fs₁ removed l) : fs₁.HasFile l := by
  obtain ⟨p, hp, hlocate⟩ := hl
  obtain ⟨m, -, -, hfile, hfound⟩ := exists_location_of_removed htree h hpaths hsettles hp
  rw [hfound] at hlocate
  cases hlocate
  exact hfile

/-- Deletions of artifacts of scanned units after the cache has been written. -/
theorem footprint_of_settles (htree : fs.WellFormed) (h : Confined settings fs fs₁)
    (hpaths : ∀ p ∈ paths, ∃ (id : Identity) (unit : CompiledUnit),
      (Scan.compiledUnits fs settings.outputRoots)[id]? = some unit ∧ unit.absolute = p)
    (hsettles : Sweep.Settles fs₁ paths fs' removed failed) :
    Footprint settings fs removed fs' := by
  have hremoved : ∀ p ∈ removed, ∃ l, fs.resolve p = .ok l ∧ fs.HasFile l ∧ fs₁.HasFile l ∧
      fs₁.locate .rearrange p = .ok (.found l) :=
    fun p => exists_location_of_removed htree h hpaths hsettles
  have hgone : ∀ l, Sweep.StandFor fs₁ removed l ↔ ∃ p ∈ removed, fs.resolve p = .ok l := by
    intro l
    refine exists_congr fun p => and_congr_right fun hp => ?_
    obtain ⟨m, hm, -, -, hfound⟩ := hremoved p hp
    rw [hm, hfound]
    constructor
    · rintro ⟨⟩
      rfl
    · rintro ⟨⟩
      rfl
  have hfiles : ∀ l, Sweep.StandFor fs₁ removed l → fs₁.HasFile l :=
    fun l => hasFile_of_standFor htree h hpaths hsettles
  have hcache : ∀ l, CacheFile settings fs fs₁ l → CacheFile settings fs fs' l := by
    rintro l ⟨c, hc, unit, hunit, howns⟩
    exact ⟨c, hc, unit, hunit, howns.of_without hsettles.without hfiles⟩
  have hkept : ∀ l, (∀ p ∈ removed, fs.resolve p ≠ .ok l) ↔ ¬Sweep.StandFor fs₁ removed l := by
    intro l
    rw [hgone]
    simp
  constructor
  · intro l e he hl
    rw [hkept, ← h.entry l e he fun hfile => hl (hcache l hfile)]
    by_cases hl' : Sweep.StandFor fs₁ removed l
    · simp [hsettles.without.absent l hl', hl']
    · rcases hsettles.without.kept l hl' with hsame | ⟨e₁, time, he₁, hnode, he'⟩
      · simp [hsame, hl']
      · -- a directory with another time
        rw [he₁, he']
        constructor
        · rintro ⟨⟩
          exact absurd hnode he
        · rintro ⟨⟨⟩, -⟩
          exact absurd hnode he
  · intro l hl
    have hl' := h.directory l hl
    have hstays : ¬Sweep.StandFor fs₁ removed l :=
      fun hgone => hsettles.without.not_directory l hgone hl'
    exact (hsettles.without.node?_kept hstays).trans hl'
  · intro q l hq hl hother
    exact (hsettles.without.smaller hfiles).resolve
      (h.found q l hq fun hfile => hl (hcache l hfile)) ((hkept l).mp hother)
  · exact fun _ => named_of_cacheFile
  · intro p hp
    obtain ⟨id, unit, hunit, rfl⟩ :=
      hpaths p (hsettles.attempted p (List.mem_append_left failed hp)).1
    obtain ⟨hroot, hextension⟩ := Scan.exists_root_of_compiledUnits htree hunit
    obtain ⟨l, hl, hfile, -, -⟩ := hremoved _ hp
    exact ⟨hroot, hextension, l, hl, hfile,
      hsettles.without.absent l ((hgone l).mpr ⟨_, hp, hl⟩)⟩

end Deletions

/-- The search for references, whether it ends with all of them or fails, writes files of the cache
only. -/
theorem confined_addUnits (settings : Settings) (extract : Extractor ε) (htree : fs.WellFormed)
    {guard : FileSystem → Prop} (hguards : Cache.Guards (settings.cacheRoot.map Cache.mk)
      (Scan.compiledUnits fs settings.outputRoots).values guard) (hguard : guard fs) :
    Confined settings fs (Gathering.addUnits (settings.cacheRoot.map Cache.mk) extract
      { fileSystem := fs } (Scan.compiledUnits fs settings.outputRoots).values).2.fileSystem := by
  refine Gathering.confined_addUnits hguards extract { fileSystem := fs } htree hguard ?_
    (List.Subset.refl _)
  intro unit hmem
  obtain ⟨dirs, stem, hplaced⟩ := Scan.exists_placed_of_mem htree hmem
  exact ⟨dirs, stem, hplaced.named⟩

/-- An analysis, whether it finds something or fails, writes files of the cache only. -/
theorem confined_analyze (settings : Settings) (extract : Extractor ε)
    (table : Option (Identity → Option Path)) (htree : fs.WellFormed)
    {guard : FileSystem → Prop} (hguards : Cache.Guards (settings.cacheRoot.map Cache.mk)
      (Scan.compiledUnits fs settings.outputRoots).values guard) (hguard : guard fs) :
    Confined settings fs (analyze settings extract table fs).2.fileSystem := by
  rw [snd_analyze]
  exact confined_addUnits settings extract htree hguards hguard

/-- What a run reports as removed. -/
def removedBy : Except (ExtractionError ε) RunSummary → List Path
  | .ok summary => summary.removed
  | .error _ => []

/-- A plan leaves the tree as its analysis does. -/
theorem fileSystem_plan (settings : Settings) (extract : Extractor ε)
    (table : Option (Identity → Option Path)) (fs : FileSystem) :
    (plan settings extract table fs).2.fileSystem =
      (analyze settings extract table fs).2.fileSystem := by
  rcases h : analyze settings extract table fs with ⟨e | a, g⟩
  · rw [plan, run_of_error h]
  · obtain ⟨paths, -, -, hsweep⟩ := exists_attempts_of_analyze h
    obtain ⟨seen, hplan⟩ := hsweep true
    rw [Sweep.foldl_attempt_dryRun rfl] at hplan
    rw [plan, run_of_ok h true hplan]

/-- A run that deletes goes through artifacts of scanned units after its analysis. -/
theorem exists_settles_execute {a : Analysis} {g : Gathering}
    (h : analyze settings extract table fs = (.ok a, g)) :
    ∃ paths failed, (∀ p ∈ paths, ∃ (id : Identity) (unit : CompiledUnit),
        (Scan.compiledUnits fs settings.outputRoots)[id]? = some unit ∧ unit.absolute = p) ∧
      Sweep.Settles g.fileSystem paths (execute settings extract table fs).2.fileSystem
        (removedBy (execute settings extract table fs).1) failed := by
  obtain ⟨paths, hpaths, -, hsweep⟩ := exists_attempts_of_analyze h
  obtain ⟨seen, hexecute⟩ := hsweep false
  obtain ⟨removed, failures, hremoved, -, hsettles⟩ :=
    Sweep.settles_foldl_attempt (s := { fileSystem := g.fileSystem, dryRun := false }) rfl paths
  rw [execute, run_of_ok h false hexecute]
  dsimp only [removedBy]
  rw [hremoved, List.nil_append]
  exact ⟨paths, _, hpaths, hsettles⟩

theorem footprint_execute (htree : fs.WellFormed)
    (hanalyze : Confined settings fs (analyze settings extract table fs).2.fileSystem) :
    Footprint settings fs (removedBy (execute settings extract table fs).1)
      (execute settings extract table fs).2.fileSystem := by
  rcases h : analyze settings extract table fs with ⟨e | a, g⟩
  · rw [execute, run_of_error h]
    rw [h] at hanalyze
    exact footprint_of_confined hanalyze
  · rw [h] at hanalyze
    obtain ⟨paths, failed, hpaths, hsettles⟩ := exists_settles_execute h
    exact footprint_of_settles htree hanalyze hpaths hsettles

/-- Whether they succeed or fail, an analysis and a plan write files of the cache only, and a run
that deletes has removed what it reports besides. -/
theorem run_footprint (settings : Settings) (extract : Extractor ε)
    (table : Option (Identity → Option Path)) {fs : FileSystem} (htree : fs.WellFormed)
    (hclear : ∀ cache ∈ settings.cacheRoot.map Cache.mk, cache.Clear fs) :
    Footprint settings fs [] (analyze settings extract table fs).2.fileSystem ∧
      Footprint settings fs [] (plan settings extract table fs).2.fileSystem ∧
      Footprint settings fs (removedBy (execute settings extract table fs).1)
        (execute settings extract table fs).2.fileSystem := by
  have hanalyze := confined_analyze settings extract table htree (Cache.guards_clear _ _) hclear
  refine ⟨footprint_of_confined hanalyze, ?_, footprint_execute htree hanalyze⟩
  rw [fileSystem_plan]
  exact footprint_of_confined hanalyze

/-- Two classes in a directory that is the cache as well; the source of the first has changed. -/
def sharedTree : FileSystem :=
  [("/o/A.class", 1, ""), ("/o/B.class", 1, "A\n"), ("/s/A.java", 2, "")].foldl
    (fun fs (p, time, text) => fs.addFile (Path.ofString p) time (Utf8.encode text))
    (FileSystem.empty 4)

def sharedSettings : Settings where
  sourceRoots := [Path.ofString "/s"]
  outputRoots := DependencyGraph.classRoots
  cacheRoot := some (Path.ofString "/o")

theorem run_footprint_shared :
    sharedTree.WellFormed ∧
    (∀ cache ∈ sharedSettings.cacheRoot.map Cache.mk, cache.Clear sharedTree) ∧
    Footprint sharedSettings sharedTree []
      (analyze sharedSettings DependencyGraph.linesReferences none sharedTree).2.fileSystem ∧
    Footprint sharedSettings sharedTree []
      (plan sharedSettings DependencyGraph.linesReferences none sharedTree).2.fileSystem ∧
    Footprint sharedSettings sharedTree
      (removedBy (execute sharedSettings DependencyGraph.linesReferences none sharedTree).1)
      (execute sharedSettings DependencyGraph.linesReferences none sharedTree).2.fileSystem := by
  have htree : sharedTree.WellFormed :=
    List.foldlRecOn _ _ (WellFormed.empty 4) fun _ h _ _ => h.addFile _ _ _
  have hnodes : sharedTree.entries.toList.map (fun row => row.2.node) =
      [.directory, .directory, .directory, .file [], .file [], .file (Utf8.encode "A\n")] := by
    cbv
  have hclear : ∀ cache ∈ sharedSettings.cacheRoot.map Cache.mk, cache.Clear sharedTree := by
    rintro _ ⟨⟩
    have hway : Cache.way ⟨Path.ofString "/o"⟩ = [Utf8.encode "o"] := by cbv
    exact (Cache.sound_of_not_mem htree
      (fun base _ => noLinkBelow_of_forall (by rw [hnodes]; simp) base)
      (by rw [hway]; decide)).clear
  exact ⟨htree, hclear,
    run_footprint sharedSettings DependencyGraph.linesReferences none htree hclear⟩

/-- Where the root of the cache leads once directories have been created, a link to a source has the
place of the file that becomes the entry of the only class. -/
def baitedTree : FileSystem :=
  ([("/o/A.class", 1, ""), ("/s/X.java", 1, "X")].foldl
    (fun fs (p, time, text) => fs.addFile (Path.ofString p) time (Utf8.encode text))
    (FileSystem.empty 4)).addLink (Path.ofString "/c/r/A.dep.tmp") (Path.ofString "../../s/X.java")

def baitedSettings : Settings where
  sourceRoots := [Path.ofString "/s"]
  outputRoots := DependencyGraph.classRoots
  cacheRoot := some (Path.ofString "/c/x/../r")

theorem wellFormed_baitedTree : baitedTree.WellFormed := by
  have hfiles : ([("/o/A.class", 1, ""), ("/s/X.java", 1, "X")].foldl
      (fun fs (p, time, text) => fs.addFile (Path.ofString p) time (Utf8.encode text))
      (FileSystem.empty 4)).WellFormed :=
    List.foldlRecOn _ _ (WellFormed.empty 4) fun _ h _ _ => h.addFile _ _ _
  exact hfiles.addLink _ _

def baitedCache : Cache := ⟨Path.ofString "/c/x/../r"⟩

/-- The root of the cache turns back from a directory that is missing. -/
theorem not_at_baitedTree (base : Location) : ¬baitedCache.At baitedTree base := by
  have hway : baitedCache.way =
      [Utf8.encode "c", Utf8.encode "x", [Path.dot, Path.dot], Utf8.encode "r"] := by cbv
  have hfirst : baitedTree.node? (Location.ofNames [Utf8.encode "c"]) = some .directory := by cbv
  have hnone : baitedTree.node? (Location.ofNames [Utf8.encode "c", Utf8.encode "x"]) = none := by
    cbv
  intro hbase
  rw [Cache.At, hway] at hbase
  obtain ⟨-, ⟨target, hnode, -⟩ | ⟨-, -, -, hrest⟩⟩ := hbase.cons_cases (by decide) (by decide)
  · exact absurd (hfirst.symm.trans hnode) (by simp)
  · obtain ⟨-, ⟨target, hnode, -⟩ | ⟨node, hnode, -, -⟩⟩ := hrest.cons_cases (by decide) (by decide)
    · exact absurd (hnone.symm.trans hnode) (by simp)
    · exact absurd (hnone.symm.trans hnode) (by simp)

theorem values_baitedTree :
    (Scan.compiledUnits baitedTree baitedSettings.outputRoots).values =
      [DependencyGraph.classA] := by
  cbv

theorem turns_baitedTree :
    Gathering.turns baitedCache [] baitedTree [DependencyGraph.classA] = [(false, .ok [])] := by
  cbv

def baitedSource : Location := .ofNames [Utf8.encode "s", Utf8.encode "X.java"]

/-- The entry of the only class, which refers to nothing, is written over the source. -/
theorem entry?_baitedSource :
    entry? (plan baitedSettings DependencyGraph.linesReferences none baitedTree).2.fileSystem
      baitedSource = some ⟨.file [], 4, .free⟩ := by
  have hturns : ∀ turn ∈ Gathering.turns baitedCache [] baitedTree [DependencyGraph.classA],
      turn = (false, .ok []) := by
    simp [turns_baitedTree]
  obtain ⟨g, hadd, hleft, -⟩ := Gathering.exists_addUnits_of_turns
    (show DependencyGraph.linesReferences [] = .ok [] from rfl) { fileSystem := baitedTree } hturns
  have hcache : baitedSettings.cacheRoot.map Cache.mk = some baitedCache := rfl
  rw [fileSystem_plan, snd_analyze, values_baitedTree, hcache, hadd, hleft]
  cbv

/-- Where the root of the cache leads only after directories have been created, a plan may write
through a link that is there. -/
theorem not_run_footprint_detour :
    ¬∀ (settings : Settings) (extract : Extractor String) (fs : FileSystem), fs.WellFormed →
      (∀ cache ∈ settings.cacheRoot.map Cache.mk, ∀ base, cache.At fs base →
        fs.NoLinkBelow base) →
      Footprint settings fs [] (plan settings extract none fs).2.fileSystem := by
  intro h
  have hfootprint := h baitedSettings DependencyGraph.linesReferences baitedTree
    wellFormed_baitedTree (by
      rintro _ ⟨⟩ base hbase
      exact absurd hbase (not_at_baitedTree base))
  have hbefore : baitedTree.entry? baitedSource =
      some ⟨.file (Utf8.encode "X"), 1, .free⟩ := by
    cbv
  -- the name of a source has none of the endings of the cache
  have hname : ¬CacheFile baitedSettings baitedTree (plan baitedSettings
      DependencyGraph.linesReferences none baitedTree).2.fileSystem baitedSource := by
    rintro ⟨c, -, unit, -, d, dirs, stem, -, -, -, name, hmem, heq⟩
    obtain ⟨-, rfl⟩ := Location.child_inj.mp
      (heq : (Location.ofNames [Utf8.encode "s"]).child (Utf8.encode "X.java") = d.child name)
    have hlast := Cache.getLast?_of_mem hmem
    revert hlast
    decide
  have hkept := (hfootprint.entry _ _ (by simp) hname).mpr ⟨hbefore, by simp⟩
  rw [entry?_baitedSource] at hkept
  exact absurd hkept (by decide)

end Run
end Freshness
