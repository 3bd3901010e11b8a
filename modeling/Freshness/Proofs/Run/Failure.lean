import Mathlib
import Freshness.Proofs.Run.Footprint
import Freshness.Proofs.Run.SecondRun

/-!
# Runs that fail

A run fails exactly if some unit has no references that count in the cache and none that can be
found in its artifact.  The error then tells of the first such unit, and only entries of units
before it have been written.
-/

namespace Freshness

open FileSystem

variable {ε : Type}

namespace Gathering

/-- Why the references of a unit are not found: none count in the cache, and its artifact cannot be
read or is refused. -/
inductive Thwarts (cache : Option Cache) (extract : Extractor ε) (fs : FileSystem)
    (unit : CompiledUnit) : ExtractionError ε → Prop
  | unreadable {source : OsError} (hmiss : cache.bind (·.get fs unit) = none)
      (hread : ∀ bytes, fs.read unit.absolute ≠ .ok bytes) :
      Thwarts cache extract fs unit (.unreadable unit.absolute source)
  | refused {bytes : Bytes} {source : ε} (hmiss : cache.bind (·.get fs unit) = none)
      (hread : fs.read unit.absolute = .ok bytes) (hextract : extract bytes = .error source) :
      Thwarts cache extract fs unit (.refused unit.absolute source)

/-- Something thwarts a unit. -/
def Thwarted (cache : Option Cache) (extract : Extractor ε) (fs : FileSystem)
    (unit : CompiledUnit) : Prop :=
  ∃ error, Thwarts cache extract fs unit error

variable {cache : Option Cache} {extract : Extractor ε} {fs fs' : FileSystem}
  {unit : CompiledUnit} {dirs : List Name} {stem : Name} {spared : CompiledUnit → Prop}
  {error : ExtractionError ε}

theorem thwarts_iff_of_spares (h : Cache.Spares cache spared fs fs')
    (hplaced : unit.Placed fs dirs stem) (hspared : spared unit) :
    Thwarts cache extract fs' unit error ↔ Thwarts cache extract fs unit error := by
  have hget := h.bind_get hplaced hspared
  have hread : ∀ bytes, fs'.read unit.absolute = .ok bytes ↔ fs.read unit.absolute = .ok bytes :=
    fun bytes => h.read_eq_ok_iff hplaced
  constructor
  · rintro (⟨hmiss, hnone⟩ | ⟨hmiss, hbytes, hextract⟩)
    · exact .unreadable (hget ▸ hmiss) fun bytes => mt (hread bytes).mpr (hnone bytes)
    · exact .refused (hget ▸ hmiss) ((hread _).mp hbytes) hextract
  · rintro (⟨hmiss, hnone⟩ | ⟨hmiss, hbytes, hextract⟩)
    · exact .unreadable (hget.trans hmiss) fun bytes => mt (hread bytes).mp (hnone bytes)
    · exact .refused (hget.trans hmiss) ((hread _).mpr hbytes) hextract

/-- Looking for the references of one unit fails without changing the tree, or writes no entry but
that of the unit. -/
theorem addUnit_cases (extract : Extractor ε) (g : Gathering)
    (hsound : ∀ c ∈ cache, c.Sound g.fileSystem) (hplaced : unit.Placed g.fileSystem dirs stem) :
    (∃ error g', g.addUnit cache extract unit = (.error error, g') ∧
      g'.fileSystem = g.fileSystem ∧ Thwarts cache extract g.fileSystem unit error) ∨
    ∃ g', g.addUnit cache extract unit = (.ok (), g') ∧
      ¬Thwarted cache extract g.fileSystem unit ∧
      Cache.Spares cache (fun other => other.id ≠ unit.id) g.fileSystem g'.fileSystem := by
  cases hget : cache.bind (·.get g.fileSystem unit) with
  | some symbols =>
      right
      refine ⟨_, addUnit_of_get extract hget, ?_, Cache.Spares.refl hsound⟩
      rintro ⟨error, ⟨hmiss, -⟩ | ⟨hmiss, -, -⟩⟩ <;> simp [hget] at hmiss
  | none =>
      cases hread : g.fileSystem.read unit.absolute with
      | error source =>
          left
          refine ⟨.unreadable unit.absolute source, g, ?_, rfl, .unreadable hget (by simp [hread])⟩
          rw [addUnit, hget]
          simp only [hread]
      | ok bytes =>
          cases hextract : extract bytes with
          | error source =>
              left
              refine ⟨.refused unit.absolute source, g.consult unit, ?_, rfl,
                .refused hget hread hextract⟩
              rw [addUnit, hget]
              simp only [hread, hextract]
          | ok symbols =>
              right
              refine ⟨_, addUnit_of_references hget ⟨bytes, hread, hextract⟩, ?_, ?_⟩
              · rintro ⟨error, ⟨-, hnone⟩ | ⟨-, hbytes, hrefused⟩⟩
                · exact hnone bytes hread
                · rw [hread] at hbytes
                  cases hbytes
                  rw [hextract] at hrefused
                  cases hrefused
              · cases cache with
                | none => exact Cache.Spares.refl hsound
                | some c => exact Cache.spares_put (hsound c rfl) hplaced.named symbols

/-- How the search for the references of some units ends: with all of them, or with the first unit
that something thwarts. -/
inductive Ends (cache : Option Cache) (extract : Extractor ε) (fs fs' : FileSystem)
    (units : List CompiledUnit) : Except (ExtractionError ε) Unit → Prop
  | found (hall : ∀ unit ∈ units, ¬Thwarted cache extract fs unit) :
      Ends cache extract fs fs' units (.ok ())
  | failed {done rest : List CompiledUnit} {unit : CompiledUnit} {error : ExtractionError ε}
      (hunits : units = done ++ unit :: rest)
      (hdone : ∀ other ∈ done, ¬Thwarted cache extract fs other)
      (herror : Thwarts cache extract fs unit error)
      (hspares : Cache.Spares cache (fun other => ∀ unit ∈ done, other.id ≠ unit.id) fs fs') :
      Ends cache extract fs fs' units (.error error)

theorem ends_addUnits (extract : Extractor ε) (g : Gathering) {units : List CompiledUnit}
    (hsound : ∀ c ∈ cache, c.Sound g.fileSystem)
    (hdistinct : units.Pairwise (·.id ≠ ·.id))
    (hplaced : ∀ unit ∈ units, ∃ dirs stem, unit.Placed g.fileSystem dirs stem) :
    Ends cache extract g.fileSystem (g.addUnits cache extract units).2.fileSystem units
      (g.addUnits cache extract units).1 := by
  induction units generalizing g with
  | nil => exact .found (by simp)
  | cons unit rest ih =>
      obtain ⟨⟨dirs, stem, hunit⟩, hrest⟩ := List.forall_mem_cons.mp hplaced
      obtain ⟨hne, hdistinctRest⟩ := List.pairwise_cons.mp hdistinct
      rcases addUnit_cases extract g hsound hunit with
        ⟨error, g', hadd, hsame, herror⟩ | ⟨g₁, hadd, hfirst, hspares⟩
      · rw [addUnits, hadd]
        dsimp only
        rw [hsame]
        exact .failed (List.nil_append _).symm (by simp) herror (Cache.Spares.refl hsound)
      · rw [addUnits, hadd]
        dsimp only
        have hiff : ∀ other ∈ rest, ∀ {error}, Thwarts cache extract g₁.fileSystem other error ↔
            Thwarts cache extract g.fileSystem other error := by
          intro other hmem error
          obtain ⟨dirs', stem', hother⟩ := hrest other hmem
          exact thwarts_iff_of_spares hspares hother (hne other hmem).symm
        have hplaced₁ : ∀ other ∈ rest, ∃ dirs stem, other.Placed g₁.fileSystem dirs stem := by
          intro other hmem
          obtain ⟨dirs', stem', hother⟩ := hrest other hmem
          exact ⟨dirs', stem', (hspares.artifact hother).1⟩
        have hends := ih g₁ hspares.sound hdistinctRest hplaced₁
        generalize g₁.addUnits cache extract rest = outcome at hends
        obtain ⟨result, g'⟩ := outcome
        cases hends with
        | found hall =>
            refine .found (List.forall_mem_cons.mpr ⟨hfirst, fun other hmem => ?_⟩)
            rintro ⟨error, herror⟩
            exact hall other hmem ⟨error, (hiff other hmem).mpr herror⟩
        | @failed done later culprit error hunits hdone herror hspares' =>
            subst hunits
            have hmem : ∀ other ∈ done, other ∈ done ++ culprit :: later :=
              fun other => List.mem_append_left _
            have hall : unit :: (done ++ culprit :: later) =
                (unit :: done) ++ culprit :: later := rfl
            refine .failed hall ?_ ((hiff culprit (by simp)).mp herror) ?_
            · refine List.forall_mem_cons.mpr ⟨hfirst, fun other hother => ?_⟩
              rintro ⟨error', herror'⟩
              exact hdone other hother ⟨error', (hiff other (hmem other hother)).mpr herror'⟩
            · refine (hspares.mono ?_).trans (hspares'.mono ?_)
              · exact fun other hother => hother unit List.mem_cons_self
              · exact fun other hother unit' hmem' => hother unit' (List.mem_cons_of_mem unit hmem')

end Gathering

namespace Run

open Gathering

/-- A run fails exactly if some scanned unit is thwarted.  If it fails, it tells of the first such
unit; it has changed no files but those of the cache, no file outside the cache directory, and no
entry from that unit on. -/
structure AllOrNothing {α : Type} (settings : Settings) (extract : Extractor ε) (fs : FileSystem)
    (outcome : Except (ExtractionError ε) α × Gathering) : Prop where
  fails_iff : (∃ error, outcome.1 = .error error) ↔
    ∃ unit ∈ (Scan.compiledUnits fs settings.outputRoots).values,
      Thwarted (settings.cacheRoot.map Cache.mk) extract fs unit
  failed : ∀ error, outcome.1 = .error error →
    ∃ unit ∈ (Scan.compiledUnits fs settings.outputRoots).values,
      Thwarts (settings.cacheRoot.map Cache.mk) extract fs unit error ∧
      (∀ other ∈ (Scan.compiledUnits fs settings.outputRoots).values,
        Thwarted (settings.cacheRoot.map Cache.mk) extract fs other →
          (compare unit.id other.id).isLE = true) ∧
      (∀ l e, e.node ≠ .directory →
        (∀ cache ∈ settings.cacheRoot.map Cache.mk,
          ¬cache.Below outcome.2.fileSystem l) →
        (outcome.2.fileSystem.entry? l = some e ↔ fs.entry? l = some e)) ∧
      ∀ cache ∈ settings.cacheRoot.map Cache.mk,
        ∀ other ∈ (Scan.compiledUnits fs settings.outputRoots).values,
          (compare unit.id other.id).isLE = true →
            KeepsFile fs outcome.2.fileSystem (cache.entryPath other)
  footprint : ∀ error, outcome.1 = .error error →
    Footprint settings fs [] outcome.2.fileSystem

variable {settings : Settings} {extract : Extractor ε} {table : Option (Identity → Option Path)}
  {fs : FileSystem}

theorem analyze_of_addUnits_error {error : ExtractionError ε} {g : Gathering}
    (h : addUnits (settings.cacheRoot.map Cache.mk) extract { fileSystem := fs }
      (Scan.compiledUnits fs settings.outputRoots).values = (.error error, g)) :
    analyze settings extract table fs = (.error error, g) := by
  rw [analyze, DependencyGraph.build, h]

theorem exists_analyze_of_addUnits (settings : Settings)
    (table : Option (Identity → Option Path)) {g : Gathering}
    (h : addUnits (settings.cacheRoot.map Cache.mk) extract { fileSystem := fs }
      (Scan.compiledUnits fs settings.outputRoots).values = (.ok (), g)) :
    ∃ a, analyze settings extract table fs = (.ok a, g) := by
  rw [analyze, DependencyGraph.build, h]
  exact ⟨_, rfl⟩

/-- What is listed and not before a unit does not come before it. -/
theorem isLE_of_pairwise {done rest : List CompiledUnit} {unit other : CompiledUnit}
    (h : (done ++ unit :: rest).Pairwise fun a b => compare a.id b.id = .lt)
    (hother : other ∈ done ++ unit :: rest) (hnot : other ∉ done) :
    (compare unit.id other.id).isLE = true := by
  obtain ⟨-, hrest, -⟩ := List.pairwise_append.mp h
  rcases List.mem_cons.mp ((List.mem_append.mp hother).resolve_left hnot) with rfl | hmem
  · simp
  · simp [(List.pairwise_cons.mp hrest).1 other hmem]

theorem allOrNothing_of_addUnits {α : Type} (htree : fs.WellFormed)
    (hsound : ∀ cache ∈ settings.cacheRoot.map Cache.mk, cache.Sound fs)
    {outcome : Except (ExtractionError ε) α × Gathering}
    (herror : ∀ error g, addUnits (settings.cacheRoot.map Cache.mk) extract { fileSystem := fs }
      (Scan.compiledUnits fs settings.outputRoots).values = (.error error, g) →
        outcome = (.error error, g))
    (hok : ∀ g, addUnits (settings.cacheRoot.map Cache.mk) extract { fileSystem := fs }
      (Scan.compiledUnits fs settings.outputRoots).values = (.ok (), g) →
        ∃ result, outcome.1 = .ok result) :
    AllOrNothing settings extract fs outcome := by
  have hkeyed : UnitMap.Keyed (Scan.compiledUnits fs settings.outputRoots) := keyed_ofUnits _
  have hordered := hkeyed.pairwise_values
  have hplaced : ∀ unit ∈ (Scan.compiledUnits fs settings.outputRoots).values,
      ∃ dirs stem, unit.Placed fs dirs stem := fun _ => Scan.exists_placed_of_mem htree
  have hends := ends_addUnits extract { fileSystem := fs } hsound hkeyed.pairwise_ne hplaced
  have hconfined := confined_addUnits settings extract htree (Cache.guards_clear _ _)
    fun cache hcache => (hsound cache hcache).clear
  rcases hadd : addUnits (settings.cacheRoot.map Cache.mk) extract { fileSystem := fs }
    (Scan.compiledUnits fs settings.outputRoots).values with ⟨error | ⟨⟨⟩⟩, g⟩
  · obtain rfl := herror error g hadd
    rw [hadd] at hends hconfined
    cases hends with
    | @failed done rest unit _ hunits hdone hthwarts hspares =>
        rw [hunits] at hordered
        have hmem : unit ∈ (Scan.compiledUnits fs settings.outputRoots).values := by
          simp [hunits]
        refine ⟨?_, ?_, fun _ _ => footprint_of_confined hconfined⟩
        · exact ⟨fun _ => ⟨unit, hmem, error, hthwarts⟩, fun _ => ⟨error, rfl⟩⟩
        · rintro _ ⟨⟩
          refine ⟨unit, hmem, hthwarts, ?_, hspares.outside, ?_⟩
          · intro other hother hthwarted
            rw [hunits] at hother
            exact isLE_of_pairwise hordered hother fun hdoneMem =>
              hdone other hdoneMem hthwarted
          · intro cache hcache other hother hle
            obtain ⟨dirs, stem, hotherPlaced⟩ := hplaced other hother
            refine hspares.entry cache hcache hotherPlaced.named fun earlier hearlier hid => ?_
            obtain ⟨-, -, hbefore⟩ := List.pairwise_append.mp hordered
            have hlt := hbefore earlier hearlier unit List.mem_cons_self
            rw [hid, Std.OrientedCmp.gt_iff_lt.mpr hlt] at hle
            cases hle
  · obtain ⟨result, hresult⟩ := hok g hadd
    rw [hadd] at hends
    cases hends with
    | found hall =>
        have hnone : ∀ error, outcome.1 ≠ .error error := by simp [hresult]
        refine ⟨?_, fun error h => absurd h (hnone error), fun error h => absurd h (hnone error)⟩
        rw [hresult]
        constructor
        · rintro ⟨error, ⟨⟩⟩
        · rintro ⟨unit, hmem, hthwarted⟩
          exact absurd hthwarted (hall unit hmem)

/-- Every kind of run is all or nothing. -/
theorem run_allOrNothing (settings : Settings) (extract : Extractor ε)
    (table : Option (Identity → Option Path)) {fs : FileSystem} (htree : fs.WellFormed)
    (hsound : ∀ cache ∈ settings.cacheRoot.map Cache.mk, cache.Sound fs) :
    AllOrNothing settings extract fs (analyze settings extract table fs) ∧
      AllOrNothing settings extract fs (plan settings extract table fs) ∧
      AllOrNothing settings extract fs (execute settings extract table fs) := by
  have hrun : ∀ dryRun,
      AllOrNothing settings extract fs (run dryRun settings extract table fs) := by
    intro dryRun
    refine allOrNothing_of_addUnits htree hsound ?_ ?_
    · intro error g hadd
      exact run_of_error (analyze_of_addUnits_error hadd) dryRun
    · intro g hadd
      obtain ⟨a, ha⟩ := exists_analyze_of_addUnits settings table hadd
      rw [run_of_ok ha dryRun rfl]
      exact ⟨_, rfl⟩
  refine ⟨allOrNothing_of_addUnits htree hsound ?_ ?_, hrun true, hrun false⟩
  · intro error g hadd
    exact analyze_of_addUnits_error hadd
  · intro g hadd
    obtain ⟨a, ha⟩ := exists_analyze_of_addUnits settings table hadd
    rw [ha]
    exact ⟨a, rfl⟩

/-- Two artifacts that are no text, of which the first need not be read. -/
def brokenTree : FileSystem :=
  [("/o/A.class", 2, [0xFF]), ("/o/B.class", 2, [0xFF]), ("/c/A.dep", 3, [])].foldl
    (fun fs (p, time, content) => fs.addFile (Path.ofString p) time content)
    (FileSystem.empty 4)

def brokenSettings : Settings where
  sourceRoots := [Path.ofString "/s"]
  outputRoots := DependencyGraph.classRoots
  cacheRoot := some (Path.ofString "/c")

theorem run_allOrNothing_broken :
    brokenTree.WellFormed ∧
    (∀ cache ∈ brokenSettings.cacheRoot.map Cache.mk, cache.Sound brokenTree) ∧
    Thwarts (brokenSettings.cacheRoot.map Cache.mk) DependencyGraph.linesReferences brokenTree
      DependencyGraph.classB (.refused (Path.ofString "/o/B.class") "not text") ∧
    AllOrNothing brokenSettings DependencyGraph.linesReferences brokenTree
      (analyze brokenSettings DependencyGraph.linesReferences none brokenTree) ∧
    AllOrNothing brokenSettings DependencyGraph.linesReferences brokenTree
      (plan brokenSettings DependencyGraph.linesReferences none brokenTree) ∧
    AllOrNothing brokenSettings DependencyGraph.linesReferences brokenTree
      (execute brokenSettings DependencyGraph.linesReferences none brokenTree) := by
  have htree : brokenTree.WellFormed :=
    List.foldlRecOn _ _ (WellFormed.empty 4) fun _ h _ _ => h.addFile _ _ _
  have hnodes : brokenTree.entries.toList.map (fun row => row.2.node) =
      [.directory, .directory, .directory, .file [0xFF], .file [], .file [0xFF]] := by
    cbv
  have hsound : ∀ cache ∈ brokenSettings.cacheRoot.map Cache.mk, cache.Sound brokenTree := by
    rintro _ ⟨⟩
    exact DependencyGraph.sound_usedCache htree (by rw [hnodes]; simp)
  have hmiss : DependencyGraph.usedCache.get brokenTree DependencyGraph.classB = none :=
    Cache.get_of_not_newer (by cbv)
  have hread : brokenTree.read DependencyGraph.classB.absolute = .ok [0xFF] := by cbv
  exact ⟨htree, hsound, .refused hmiss hread (by cbv),
    run_allOrNothing brokenSettings DependencyGraph.linesReferences none htree hsound⟩

def detourSettings : Settings :=
  { brokenSettings with cacheRoot := some DependencyGraph.detourCache.root }

/-- Where the root of the cache turns back from a directory that is not there yet, an entry may come
to count after the run has begun, and save it from an artifact that it could not read. -/
theorem not_run_allOrNothing_detour :
    ¬∀ (settings : Settings) (extract : Extractor String) (fs : FileSystem),
      fs.WellFormed →
      (∀ cache ∈ settings.cacheRoot.map Cache.mk, ∀ base, cache.At fs base →
        fs.NoLinkBelow base) →
      ((∃ error, (analyze settings extract none fs).1 = .error error) ↔
        ∃ unit ∈ (Scan.compiledUnits fs settings.outputRoots).values,
          Thwarted (settings.cacheRoot.map Cache.mk) extract fs unit) := by
  intro h
  have hunits : (Scan.compiledUnits (DependencyGraph.detourTree [0xFF])
      detourSettings.outputRoots).values = [DependencyGraph.classA, DependencyGraph.classB] :=
    DependencyGraph.values_detourTree [0xFF]
  have hadd := DependencyGraph.addUnits_detourTree
    (by cbv : DependencyGraph.linesReferences [] = .ok []) [0xFF]
  rw [← hunits] at hadd
  obtain ⟨a, ha⟩ := exists_analyze_of_addUnits detourSettings none hadd
  have hthwarted : Thwarted (some DependencyGraph.detourCache) DependencyGraph.linesReferences
      (DependencyGraph.detourTree [0xFF]) DependencyGraph.classB :=
    ⟨_, .refused (DependencyGraph.get_detourTree [0xFF]).2
      (DependencyGraph.read_detourTree [0xFF]) (by cbv)⟩
  obtain ⟨error, herror⟩ := (h detourSettings DependencyGraph.linesReferences
    (DependencyGraph.detourTree [0xFF])
    (DependencyGraph.wellFormed_detourTree [0xFF])
    (by
      rintro _ ⟨⟩ base -
      exact DependencyGraph.noLinkBelow_detourTree [0xFF] base)).mpr
    ⟨DependencyGraph.classB, by rw [hunits]; simp, hthwarted⟩
  rw [ha] at herror
  cases herror

end Run
end Freshness
