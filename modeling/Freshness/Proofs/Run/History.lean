import Mathlib
import Freshness.Proofs.Cache.Lasting
import Freshness.Proofs.Run.Failure
import Freshness.Proofs.Run.Footprint

/-!
# Histories

Between runs artifacts are deleted and compiled again.  An entry of the cache belongs to a location
below any of the output roots and counts by its time alone.  An artifact that comes to light when
another one with its identity is deleted may therefore meet an entry that was written for the other
one.  Unless such an entry comes to count, every run finds what is in the artifacts.
-/

namespace Freshness

open FileSystem

variable {ε : Type}

/-- No entry of the cache has a later time. -/
def Cache.NoEntryAfter (cache : Cache) (fs : FileSystem) (time : Timestamp) : Prop :=
  ∀ {unit : CompiledUnit} {dirs : List Name} {stem : Name}, unit.Named dirs stem →
    ∀ e, e.node ≠ .directory → fs.lookup? (cache.entryPath unit) = some e → e.modified ≤ time

/-- There is nothing in the cache directory. -/
def Cache.Empty (cache : Cache) (fs : FileSystem) : Prop :=
  ∀ base, cache.At fs base → ∀ name, fs.node? (base.child name) = none

/-- In every artifact there are symbols to be found, and they fit in lines. -/
def Extractor.Total (extract : Extractor ε) : Prop :=
  ∀ bytes, ∃ symbols, extract bytes = .ok symbols ∧ ∀ symbol ∈ symbols, Lines.Fits symbol

namespace Run

/-- The file at the location has the extension of compiled units. -/
def IsArtifact (l : Location) : Prop :=
  ∃ (d : Location) (stem : Name),
    l = d.child (stem ++ Path.dot :: Utf8.encode Identity.compiledExtension)

/-- The units that a run scans. -/
def scanned (settings : Settings) (fs : FileSystem) : List CompiledUnit :=
  (Scan.compiledUnits fs settings.outputRoots).values

/-- What happens to a tree. -/
inductive Step (settings : Settings) (extract : Extractor ε) (fs : FileSystem) :
    FileSystem → Prop
  | analyze (table : Option (Identity → Option Path)) :
      Step settings extract fs (analyze settings extract table fs).2.fileSystem
  | plan (table : Option (Identity → Option Path)) :
      Step settings extract fs (plan settings extract table fs).2.fileSystem
  | execute (table : Option (Identity → Option Path)) :
      Step settings extract fs (execute settings extract table fs).2.fileSystem
  /-- A file is deleted. -/
  | delete {l : Location} {fs' : FileSystem} (hfile : fs.HasFile l)
      (h : Rewritten (· = l) fs fs') (hgone : fs'.entry? l = none) : Step settings extract fs fs'
  /-- An artifact is compiled, again or for the first time. -/
  | compile {l : Location} {content : Bytes} {time : Timestamp} {access : Access}
      {fs' : FileSystem} (hartifact : IsArtifact l) (hplace : fs.HasPlace l)
      (h : Rewritten (· = l) fs fs') (hentry : fs'.entry? l = some ⟨.file content, time, access⟩)
      (hlate : ∀ cache ∈ settings.cacheRoot.map Cache.mk, cache.NoEntryAfter fs time) :
      Step settings extract fs fs'
  /-- Time passes, and what may be written or deleted changes. -/
  | pass {fs' : FileSystem} (h : Alike fs fs') : Step settings extract fs fs'

/-- A unit comes to be scanned that was not scanned before, with an entry that counts, and never
before was it scanned with this entry and this artifact. -/
def Uncovers (settings : Settings) (past : List FileSystem) (fs fs' : FileSystem) : Prop :=
  ∃ unit ∈ scanned settings fs', unit ∉ scanned settings fs ∧
    ∃ cache ∈ settings.cacheRoot.map Cache.mk,
      fs'.isNewer (cache.entryPath unit) unit.absolute = true ∧
      ∀ old ∈ past, unit ∈ scanned settings old →
        ¬(old.lookup? (cache.entryPath unit) = fs'.lookup? (cache.entryPath unit) ∧
          old.lookup? unit.absolute = fs'.lookup? unit.absolute)

/-- The trees that there have been, the latest first, and the one that there is. -/
inductive History (settings : Settings) (extract : Extractor ε) (start : FileSystem) :
    List FileSystem → FileSystem → Prop
  | start : History settings extract start [] start
  | next {past : List FileSystem} {fs fs' : FileSystem} (h : History settings extract start past fs)
      (hstep : Step settings extract fs fs') (hcovered : ¬Uncovers settings past fs fs') :
      History settings extract start (fs :: past) fs'

/-- What runs come to: the graph says of every scanned unit what the extractor finds in its artifact,
or there is an artifact that cannot be read. -/
inductive Reports (settings : Settings) (extract : Extractor ε)
    (table : Option (Identity → Option Path)) (fs : FileSystem) : Prop
  | found {a : Analysis} {g : Gathering} (hanalyze : analyze settings extract table fs = (.ok a, g))
      (hforward : ∀ unit ∈ scanned settings fs, ∃ symbols,
        a.graph.forward[unit.id]? = some symbols ∧
          Gathering.HasReferences fs extract unit symbols)
      (hrun : ∀ dryRun, ∃ summary, (run dryRun settings extract table fs).1 = .ok summary ∧
        summary.dump =
          if settings.dump then some (.ofGraph a.graph a.libraries) else none) :
      Reports settings extract table fs
  | unreadable {unit : CompiledUnit} {source : OsError} (hunit : unit ∈ scanned settings fs)
      (hread : ∀ bytes, fs.read unit.absolute ≠ .ok bytes)
      (hanalyze : (analyze settings extract table fs).1 =
        .error (.unreadable unit.absolute source))
      (hrun : ∀ dryRun, (run dryRun settings extract table fs).1 =
        .error (.unreadable unit.absolute source)) :
      Reports settings extract table fs

/-- What counts in the cache is right for all units that are scanned. -/
structure Coherent (settings : Settings) (extract : Extractor ε) (cache : Cache)
    (fs : FileSystem) : Prop where
  sound : cache.Sound fs
  trusts : cache.Trustworthy fs extract (scanned settings fs)

variable {settings : Settings} {extract : Extractor ε} {root : Path} {fs fs' : FileSystem}
  {unit : CompiledUnit}

theorem exists_placed_of_mem_scanned (htree : fs.WellFormed) (h : unit ∈ scanned settings fs) :
    ∃ dirs stem, unit.Placed fs dirs stem :=
  Scan.exists_placed_of_mem htree h

theorem eq_of_mem_scanned {other : CompiledUnit} (h : unit ∈ scanned settings fs)
    (hother : other ∈ scanned settings fs) (hid : other.id = unit.id) : other = unit := by
  have hkeyed : UnitMap.Keyed (Scan.compiledUnits fs settings.outputRoots) := keyed_ofUnits _
  obtain ⟨id, hunit⟩ := mem_values_iff.mp h
  obtain ⟨id', hunit'⟩ := mem_values_iff.mp hother
  obtain rfl := hkeyed id unit hunit
  obtain rfl := hkeyed id' other hunit'
  rw [hid, hunit] at hunit'
  exact (Option.some.inj hunit').symm

/-! ## Single steps -/

section Steps

variable (hcache : settings.cacheRoot = some root)
  (hfits : ∀ bytes symbols, extract bytes = .ok symbols → ∀ symbol ∈ symbols, Lines.Fits symbol)

include hcache hfits

theorem reliable_analyze (h : Coherent settings extract ⟨root⟩ fs)
    (table : Option (Identity → Option Path)) :
    Gathering.Reliable ⟨root⟩ extract (scanned settings fs)
      (analyze settings extract table fs).2.fileSystem := by
  rw [snd_analyze, hcache, Option.map_some]
  refine Gathering.reliable_addUnits { fileSystem := fs } hfits
    (fun _ hunit _ hother => eq_of_mem_scanned hunit hother)
    ⟨h.sound, fun unit hunit => ?_, h.trusts⟩ (List.Subset.refl _)
  exact exists_placed_of_mem_scanned h.sound.tree hunit

/-- A run deletes files at most when its analysis is done. -/
theorem exists_rewritten_execute (h : Coherent settings extract ⟨root⟩ fs)
    (table : Option (Identity → Option Path)) :
    ∃ gone, Rewritten gone (analyze settings extract table fs).2.fileSystem
        (execute settings extract table fs).2.fileSystem ∧
      (∀ l, gone l → entry? (execute settings extract table fs).2.fileSystem l = none) ∧
      (execute settings extract table fs).2.fileSystem.WellFormed := by
  have hreliable := reliable_analyze hcache hfits h table
  have hconfined := confined_analyze settings extract table h.sound.tree
    (Cache.guards_clear _ _) (by
      rw [hcache]
      rintro _ ⟨⟩
      exact h.sound.clear)
  rcases hanalyze : analyze settings extract table fs with ⟨e | a, g⟩
  · rw [hanalyze] at hreliable
    rw [execute, run_of_error hanalyze]
    refine ⟨fun _ => False, (Without.refl _).rewritten fun _ => False.elim, fun _ => False.elim,
      hreliable.sound.tree⟩
  · rw [hanalyze] at hreliable hconfined
    obtain ⟨paths, failed, hpaths, hsettles⟩ := exists_settles_execute hanalyze
    refine ⟨_, hsettles.without.rewritten fun l =>
      hasFile_of_standFor h.sound.tree hconfined hpaths hsettles, hsettles.without.absent,
      hsettles.without.wellFormed hreliable.sound.tree⟩

end Steps

/-- An entry of the cache is no artifact. -/
theorem recalls_entry_of_compiled {cache : Cache} {l : Location} (hsound : cache.Sound fs')
    (h : Rewritten (· = l) fs fs') (hartifact : IsArtifact l) {dirs : List Name} {stem : Name}
    (hnamed : unit.Named dirs stem) : Recalls fs fs' (cache.entryPath unit) := by
  intro e he hlookup
  rcases h.lookup?_or_touched he hlookup with hbefore | ⟨_, rfl, hresolve⟩
  · exact hbefore
  · exfalso
    obtain ⟨d, stem', rfl⟩ := hartifact
    rw [Cache.entryPath_eq cache hnamed] at hresolve
    obtain ⟨base, -, hlocation⟩ := Cache.exists_at_of_resolve hsound
      (Cache.isName_entryNames hnamed) hresolve
    have hne : d.descend (CompiledUnit.artifactNames [] stem') ≠
        base.descend (Cache.entryNames dirs stem) :=
      Cache.ne_descend_artifactNames (List.mem_cons_of_mem _ (List.mem_singleton_self _))
    exact hne hlocation

/-- What has just been compiled is newer than any entry. -/
theorem trusts_of_compiled {cache : Cache} {l : Location} {content : Bytes} {time : Timestamp}
    {access : Access} (htrusts : cache.Trusts fs extract unit) (hsound : cache.Sound fs')
    (h : Rewritten (· = l) fs fs') (hartifact : IsArtifact l)
    (hentry : fs'.entry? l = some ⟨.file content, time, access⟩)
    (hlate : cache.NoEntryAfter fs time) (hunit : unit ∈ scanned settings fs') :
    cache.Trusts fs' extract unit := by
  obtain ⟨dirs, stem, hplaced⟩ := exists_placed_of_mem_scanned hsound.tree hunit
  have hrecalls := recalls_entry_of_compiled hsound h hartifact hplaced.named
  by_cases hl : fs'.resolve unit.absolute = .ok l
  · intro held hheld
    exfalso
    obtain ⟨entry, artifact, content, text, hlookup, hlookup', hlt, -, hnode, -⟩ :=
      Cache.get_eq_some_iff.mp hheld
    have hnot : entry.node ≠ .directory := by simp [hnode]
    have hle := hlate hplaced.named entry hnot (hrecalls entry hnot hlookup)
    simp only [lookup?, hl, hentry, Option.some.injEq] at hlookup'
    subst hlookup'
    exact absurd hlt (Int.not_lt.mpr hle)
  · refine htrusts.of_recalls hplaced hsound.tree hrecalls fun artifact hnode hlookup => ?_
    rcases h.lookup?_or_touched hnode hlookup with hbefore | ⟨_, rfl, hresolve⟩
    · exact hbefore
    · exact absurd hresolve hl

section Whole

variable (hcache : settings.cacheRoot = some root)
  (hfits : ∀ bytes symbols, extract bytes = .ok symbols → ∀ symbol ∈ symbols, Lines.Fits symbol)

include hcache hfits

/-- A step leaves the cache sound, and right for every unit that is scanned as before. -/
theorem Step.trusts (hstep : Step settings extract fs fs')
    (h : Coherent settings extract ⟨root⟩ fs) :
    (Cache.mk root).Sound fs' ∧ ∀ unit ∈ scanned settings fs, unit ∈ scanned settings fs' →
      (Cache.mk root).Trusts fs' extract unit := by
  have hgone : ∀ {gone : Location → Prop} {fs₁ fs₂ : FileSystem}, (Cache.mk root).Sound fs₁ →
      Rewritten gone fs₁ fs₂ → (∀ l, gone l → fs₂.entry? l = none) → fs₂.WellFormed →
      (∀ unit ∈ scanned settings fs, (Cache.mk root).Trusts fs₁ extract unit) →
      (Cache.mk root).Sound fs₂ ∧ ∀ unit ∈ scanned settings fs, unit ∈ scanned settings fs₂ →
        (Cache.mk root).Trusts fs₂ extract unit := by
    intro gone fs₁ fs₂ hsound hrewritten hnone htree htrusts
    refine ⟨hsound.of_rewritten hrewritten htree, fun unit hunit hunit' => ?_⟩
    obtain ⟨dirs, stem, hplaced⟩ := exists_placed_of_mem_scanned htree hunit'
    exact (htrusts unit hunit).of_recalls hplaced htree (hrewritten.recalls hnone _)
      (hrewritten.recalls hnone _)
  cases hstep with
  | analyze table =>
      have hreliable := reliable_analyze hcache hfits h table
      exact ⟨hreliable.sound, fun unit hunit _ => hreliable.trusts unit hunit⟩
  | plan table =>
      have hreliable := reliable_analyze hcache hfits h table
      rw [fileSystem_plan]
      exact ⟨hreliable.sound, fun unit hunit _ => hreliable.trusts unit hunit⟩
  | execute table =>
      have hreliable := reliable_analyze hcache hfits h table
      obtain ⟨gone, hrewritten, hnone, htree⟩ := exists_rewritten_execute hcache hfits h table
      exact hgone hreliable.sound hrewritten hnone htree hreliable.trusts
  | @delete l _ hfile hrewritten hnone =>
      have htree : fs'.WellFormed := by
        refine hrewritten.wellFormed h.sound.tree ?_
        rintro _ rfl
        obtain ⟨content, hcontent⟩ := hfile
        refine h.sound.tree.hasPlace (isSome_entry?_of_node? hcontent) ?_
        rintro rfl
        rw [h.sound.tree.root] at hcontent
        cases hcontent
      refine hgone h.sound hrewritten ?_ htree h.trusts
      rintro _ rfl
      exact hnone
  | compile hartifact hplace hrewritten hentry hlate =>
      have htree : fs'.WellFormed := by
        refine hrewritten.wellFormed h.sound.tree ?_
        rintro _ rfl
        exact hplace
      have hsound := h.sound.of_rewritten hrewritten htree
      refine ⟨hsound, fun unit hunit hunit' => ?_⟩
      refine trusts_of_compiled (h.trusts unit hunit) hsound hrewritten hartifact hentry
        (hlate _ ?_) hunit'
      rw [hcache]
      rfl
  | pass halike =>
      exact ⟨h.sound.of_alike halike, fun unit hunit _ =>
        Cache.Trusts.of_alike (h.trusts unit hunit) halike⟩

/-- A step that uncovers nothing leaves everything right. -/
theorem Step.coherent (hstep : Step settings extract fs fs') {past : List FileSystem}
    (hcovered : ¬Uncovers settings past fs fs') (h : Coherent settings extract ⟨root⟩ fs)
    (hpast : ∀ old ∈ past, Coherent settings extract ⟨root⟩ old) :
    Coherent settings extract ⟨root⟩ fs' := by
  obtain ⟨hsound, htrusts⟩ := hstep.trusts hcache hfits h
  refine ⟨hsound, fun unit hunit => ?_⟩
  by_cases hbefore : unit ∈ scanned settings fs
  · exact htrusts unit hbefore hunit
  by_cases hnewer : fs'.isNewer ((Cache.mk root).entryPath unit) unit.absolute = true
  · have hold : ∃ old ∈ past, unit ∈ scanned settings old ∧
        old.lookup? ((Cache.mk root).entryPath unit) =
          fs'.lookup? ((Cache.mk root).entryPath unit) ∧
        old.lookup? unit.absolute = fs'.lookup? unit.absolute := by
      by_contra hnone
      refine hcovered ⟨unit, hunit, hbefore, ⟨root⟩, by rw [hcache]; rfl, hnewer, ?_⟩
      exact fun old hmem hscanned hsame => hnone ⟨old, hmem, hscanned, hsame⟩
    obtain ⟨old, hmem, hscanned, hentry, hartifact⟩ := hold
    obtain ⟨dirs, stem, hplaced⟩ := exists_placed_of_mem_scanned hsound.tree hunit
    refine Cache.Trusts.of_recalls ((hpast old hmem).trusts unit hscanned) hplaced hsound.tree ?_ ?_
    · exact fun e _ he => hentry.trans he
    · exact fun e _ he => hartifact.trans he
  · exact Cache.Trusts.of_not_newer (by simpa using hnewer)

/-- What counts in the cache is right throughout a history that begins with an empty cache. -/
theorem History.coherent {start : FileSystem} (hsound : (Cache.mk root).Sound start)
    (hempty : (Cache.mk root).Empty start)
    {past : List FileSystem} (h : History settings extract start past fs) :
    Coherent settings extract ⟨root⟩ fs ∧
      ∀ old ∈ past, Coherent settings extract ⟨root⟩ old := by
  induction h with
  | start =>
      refine ⟨⟨hsound, fun unit hunit held hheld => ?_⟩, by simp⟩
      exfalso
      obtain ⟨dirs, stem, hplaced⟩ := exists_placed_of_mem_scanned hsound.tree hunit
      obtain ⟨entry, -, content, -, hentry, -, -, -, hnode, -⟩ := Cache.get_eq_some_iff.mp hheld
      rw [Cache.entryPath_eq _ hplaced.named] at hentry
      obtain ⟨base, hbase, -, content', hfile⟩ := Cache.exists_of_lookup? hsound
        (by simp [Cache.entryNames]) (Cache.isName_entryNames hplaced.named) (by simp [hnode])
        hentry
      -- an entry would be below a name in the cache directory, where there is nothing
      obtain ⟨name, rest, hnames⟩ :=
        List.exists_cons_of_ne_nil (l := Cache.entryNames dirs stem) (by simp [Cache.entryNames])
      rw [hnames] at hfile
      have hnone := hempty base hbase name
      obtain ⟨-, hdirectory, -⟩ :=
        hsound.tree.of_descend_cons (isSome_entry?_of_node? hfile)
      by_cases hrest : rest = []
      · subst hrest
        have hchild : start.node? (base.child name) = some (.file content') := hfile
        rw [hnone] at hchild
        cases hchild
      · rw [hdirectory hrest] at hnone
        cases hnone
  | next _ hstep hcovered ih =>
      obtain ⟨hcoherent, hpast⟩ := ih
      refine ⟨hstep.coherent hcache hfits hcovered hcoherent hpast, ?_⟩
      exact List.forall_mem_cons.mpr ⟨hcoherent, hpast⟩

end Whole

/-! ## What the runs come to -/

section Reports

variable (hcache : settings.cacheRoot = some root) (hextract : Extractor.Total extract)

include hcache hextract

/-- Where what counts in the cache is right and all artifacts can be read, the graph is right. -/
theorem Coherent.reports_of_read (h : Coherent settings extract ⟨root⟩ fs)
    (hread : ∀ unit ∈ scanned settings fs, ∃ bytes, fs.read unit.absolute = .ok bytes)
    (table : Option (Identity → Option Path)) : Reports settings extract table fs := by
  have hkeyed : UnitMap.Keyed (Scan.compiledUnits fs settings.outputRoots) := keyed_ofUnits _
  have hfound : ∀ unit ∈ scanned settings fs, ∃ symbols,
      Gathering.HasReferences fs extract unit symbols ∧
        ∀ symbol ∈ symbols, Lines.Fits symbol := by
    intro unit hunit
    obtain ⟨bytes, hbytes⟩ := hread unit hunit
    obtain ⟨symbols, hsymbols, hfits⟩ := hextract bytes
    exact ⟨symbols, ⟨bytes, hbytes, hsymbols⟩, hfits⟩
  obtain ⟨-, graph, g₀, g, hbuild₀, hbuild, -⟩ :=
    DependencyGraph.exists_build_gathers h.sound hfound h.trusts
  obtain ⟨a, hanalyze, hgraph⟩ : ∃ a, analyze settings extract table fs = (.ok a, g) ∧
      a.graph = graph := by
    rw [analyze, hcache, Option.map_some, hbuild]
    exact ⟨_, rfl, rfl⟩
  refine .found hanalyze (fun unit hunit => ?_) fun dryRun => ?_
  · obtain ⟨id, hid⟩ := mem_values_iff.mp hunit
    obtain rfl := hkeyed id unit hid
    refine ⟨_, ?_, DependencyGraph.references_of_build hkeyed hbuild₀ hid⟩
    rw [hgraph, DependencyGraph.eq_ofReferences_of_build hbuild]
    exact DependencyGraph.getElem?_forward _ hid
  · rw [run_of_ok hanalyze dryRun rfl]
    exact ⟨_, rfl, rfl⟩

/-- Where what counts in the cache is right, an artifact that cannot be read is no hit, and the runs
fail. -/
theorem Coherent.reports_of_not_read (h : Coherent settings extract ⟨root⟩ fs)
    (hread : ∃ unit ∈ scanned settings fs, ∀ bytes, fs.read unit.absolute ≠ .ok bytes)
    (table : Option (Identity → Option Path)) : Reports settings extract table fs := by
  have hkeyed : UnitMap.Keyed (Scan.compiledUnits fs settings.outputRoots) := keyed_ofUnits _
  have hsound : ∀ cache ∈ some (Cache.mk root), cache.Sound fs := by
    rintro _ ⟨⟩
    exact h.sound
  have hdistinct : (scanned settings fs).Pairwise (·.id ≠ ·.id) :=
    hkeyed.pairwise_ne
  have hends := Gathering.ends_addUnits extract { fileSystem := fs } hsound hdistinct
    fun unit hunit => exists_placed_of_mem_scanned h.sound.tree hunit
  rcases hadd : Gathering.addUnits (some ⟨root⟩) extract { fileSystem := fs }
    (scanned settings fs) with ⟨error | ⟨⟨⟩⟩, g⟩
  · rw [hadd] at hends
    cases hends with
    | @failed done rest culprit _ hunits hdone hthwarts hspares =>
        have hmem : culprit ∈ scanned settings fs := by simp [hunits]
        have hanalyze : analyze settings extract table fs = (.error error, g) := by
          apply analyze_of_addUnits_error
          rw [hcache, Option.map_some]
          exact hadd
        cases hthwarts with
        | unreadable hmiss hnone =>
            refine .unreadable hmem hnone (by rw [hanalyze]) fun dryRun => ?_
            rw [run_of_error hanalyze dryRun]
        | refused hmiss hbytes hrefused =>
            obtain ⟨symbols, hsymbols, -⟩ := hextract _
            rw [hsymbols] at hrefused
            cases hrefused
  · exfalso
    obtain ⟨unit, hunit, hnone⟩ := hread
    rw [hadd] at hends
    cases hends with
    | found hall =>
        cases hget : (Cache.mk root).get fs unit with
        | some held =>
            obtain ⟨bytes, hbytes, -⟩ := h.trusts unit hunit held hget
            exact hnone bytes hbytes
        | none => exact hall unit hunit ⟨.unreadable unit.absolute .notFound, .unreadable hget hnone⟩

/-- Every run of a history that begins with an empty cache finds what is in the artifacts. -/
theorem reports_of_history {start : FileSystem} (hsound : (Cache.mk root).Sound start)
    (hempty : (Cache.mk root).Empty start)
    {past : List FileSystem} (h : History settings extract start past fs)
    (table : Option (Identity → Option Path)) : Reports settings extract table fs := by
  have hfits : ∀ bytes symbols, extract bytes = .ok symbols →
      ∀ symbol ∈ symbols, Lines.Fits symbol := by
    intro bytes symbols hsymbols
    obtain ⟨found, hfound, hfits⟩ := hextract bytes
    rw [hfound] at hsymbols
    obtain rfl := Except.ok.inj hsymbols
    exact hfits
  have hcoherent := (h.coherent hcache hfits hsound hempty).1
  by_cases hread : ∀ unit ∈ scanned settings fs, ∃ bytes, fs.read unit.absolute = .ok bytes
  · exact hcoherent.reports_of_read hcache hextract hread table
  · refine hcoherent.reports_of_not_read hcache hextract ?_ table
    simpa using hread

end Reports

/-! ## An artifact behind another -/

theorem noEntryAfter_of_forall {cache : Cache} {time : Timestamp}
    (h : ∀ modified ∈ fs.entries.toList.map (fun row => row.2.modified), modified ≤ time) :
    cache.NoEntryAfter fs time := by
  intro unit dirs stem _ e _ hlookup
  unfold lookup? at hlookup
  split at hlookup
  next l _ =>
    have hmem := Std.TreeMap.mem_toList_iff_getElem?_eq_some.mpr hlookup
    exact h _ (List.mem_map.mpr ⟨_, hmem, rfl⟩)
  next => cases hlookup

/-- The analysis of a tree with one unit, for which nothing counts, keeps its references. -/
theorem fileSystem_analyze_of_miss (hcache : settings.cacheRoot = some root)
    {symbols : List Identity} (hscanned : scanned settings fs = [unit])
    (hmiss : (Cache.mk root).get fs unit = none)
    (hfound : Gathering.HasReferences fs extract unit symbols)
    (table : Option (Identity → Option Path)) :
    (analyze settings extract table fs).2.fileSystem = ((Cache.mk root).put fs unit symbols).2 := by
  have hadd : Gathering.addUnit (some ⟨root⟩) extract { fileSystem := fs } unit =
      (.ok (), (({ fileSystem := fs } : Gathering).consult unit).keep (some ⟨root⟩) unit symbols) :=
    Gathering.addUnit_of_references hmiss hfound
  have hunits : (Scan.compiledUnits fs settings.outputRoots).values = [unit] := hscanned
  rw [snd_analyze, hcache, Option.map_some, hunits, Gathering.addUnits, hadd]
  rfl

/-- What has been gathered for a unit is what the graph says of it. -/
theorem forward_of_addUnits {g : Gathering} {held : List Identity}
    (hadd : Gathering.addUnits (settings.cacheRoot.map Cache.mk) extract { fileSystem := fs }
      (scanned settings fs) = (.ok (), g))
    (hunit : unit ∈ scanned settings fs) (hheld : g.forward[unit.id]? = some held)
    (table : Option (Identity → Option Path)) :
    ∃ a, analyze settings extract table fs = (.ok a, g) ∧
      a.graph.forward[unit.id]? = some held := by
  obtain ⟨a, hanalyze⟩ := exists_analyze_of_addUnits settings table hadd
  obtain ⟨id, hid⟩ := mem_values_iff.mp hunit
  obtain rfl := keyed_ofUnits _ id unit hid
  refine ⟨a, hanalyze, ?_⟩
  rw [exists_ofReferences_of_analyze hanalyze, DependencyGraph.getElem?_forward _ hid,
    DependencyGraph.references_ofReferences, Std.TreeMap.contains_eq_isSome_getElem?, hid]
  simp [Std.TreeMap.getD_eq_getD_getElem?, hheld]

/-- A graph that says of a unit what is not in its artifact is no report. -/
theorem not_reports {table : Option (Identity → Option Path)} {a : Analysis} {g : Gathering}
    {held : List Identity} {bytes : Bytes}
    (hanalyze : analyze settings extract table fs = (.ok a, g))
    (hunit : unit ∈ scanned settings fs) (hheld : a.graph.forward[unit.id]? = some held)
    (hread : fs.read unit.absolute = .ok bytes) (hextract : extract bytes ≠ .ok held) :
    ¬Reports settings extract table fs := by
  rintro (⟨hanalyze', hforward, -⟩ | ⟨-, -, herror, -⟩)
  · rw [hanalyze] at hanalyze'
    cases hanalyze'
    obtain ⟨symbols, hsymbols, bytes', hbytes, hfound⟩ := hforward unit hunit
    rw [hheld] at hsymbols
    obtain rfl := Option.some.inj hsymbols
    rw [hread] at hbytes
    obtain rfl := Except.ok.inj hbytes
    exact hextract hfound
  · rw [hanalyze] at herror
    cases herror

/-- An artifact refers to something unless it is empty. -/
def filledReferences : Extractor String
  | [] => .ok []
  | _ :: _ => .ok ["B"]

theorem total_filledReferences : Extractor.Total filledReferences := by
  have hletters : "B".toList = ['B'] := by cbv
  have hfits : Lines.Fits "B" := by
    constructor <;> rw [hletters] <;> decide
  intro bytes
  cases bytes with
  | nil => exact ⟨[], rfl, by simp⟩
  | cons _ _ => exact ⟨["B"], rfl, List.forall_mem_singleton.mpr hfits⟩

/-- Two artifacts with one identity, of which only the second is scanned, and an empty cache. -/
def shadowTree : FileSystem :=
  [("/a/A.class", 1, []), ("/b/A.class", 1, [0xCA])].foldl
    (fun fs (p, time, content) => fs.addFile (Path.ofString p) time content)
    ((FileSystem.empty 4).addDirectory (Path.ofString "/c"))

def shadowSettings : Settings where
  sourceRoots := [Path.ofString "/s"]
  outputRoots := [Path.ofString "/a", Path.ofString "/b"]
  cacheRoot := some (Path.ofString "/c")

def shadowCache : Cache := ⟨Path.ofString "/c"⟩

def hiddenUnit : CompiledUnit := ⟨"A", Path.ofString "/a/A.class", Path.ofString "A"⟩

def hidingUnit : CompiledUnit := ⟨"A", Path.ofString "/b/A.class", Path.ofString "A"⟩

def hiddenLocation : Location := .ofNames [Utf8.encode "a", Utf8.encode "A.class"]

def hidingLocation : Location := .ofNames [Utf8.encode "b", Utf8.encode "A.class"]

theorem way_shadowCache : shadowCache.way = [Utf8.encode "c"] := by cbv

theorem sound_shadowCache : shadowCache.Sound shadowTree := by
  have htree : shadowTree.WellFormed :=
    List.foldlRecOn _ _ ((WellFormed.empty 4).addDirectory _) fun _ h _ _ => h.addFile _ _ _
  have hnodes : shadowTree.entries.toList.map (fun row => row.2.node) =
      [.directory, .directory, .directory, .directory, .file [], .file [0xCA]] := by
    cbv
  exact Cache.sound_of_not_mem htree
    (fun base _ => noLinkBelow_of_forall (by rw [hnodes]; simp) base)
    (by rw [way_shadowCache]; decide)

theorem leads_shadowCache : Leads shadowTree (shadowTree.origin shadowCache.root) shadowCache.way
    (Location.root.child (Utf8.encode "c")) := by
  have hpasses : shadowTree.Passes .root (Utf8.encode "c") :=
    ⟨by cbv, by decide, by decide, by decide⟩
  rw [way_shadowCache]
  exact Leads.step hpasses (by cbv : _ = some Node.directory) (by simp) Leads.stay

theorem locations_shadowTree : shadowTree.entries.toList.map (fun row => row.1.names) =
    [[], [Utf8.encode "a"], [Utf8.encode "b"], [Utf8.encode "c"],
      [Utf8.encode "A.class", Utf8.encode "a"], [Utf8.encode "A.class", Utf8.encode "b"]] := by
  cbv

theorem empty_shadowCache : shadowCache.Empty shadowTree := by
  intro base hbase name
  obtain rfl := hbase.unique leads_shadowCache
  by_contra hsome
  obtain ⟨e, he⟩ := Option.isSome_iff_exists.mp
    (isSome_entry?_iff.mpr (Option.isSome_iff_ne_none.mpr hsome))
  have hmem : name :: [Utf8.encode "c"] ∈ shadowTree.entries.toList.map (fun row => row.1.names) :=
    List.mem_map.mpr ⟨_, Std.TreeMap.mem_toList_iff_getElem?_eq_some.mpr he, rfl⟩
  rw [locations_shadowTree] at hmem
  have hlast : Utf8.encode "c" ≠ Utf8.encode "a" ∧ Utf8.encode "c" ≠ Utf8.encode "b" := by decide
  simp [hlast] at hmem

theorem hasFile_shadowTree : shadowTree.HasFile hidingLocation := ⟨[0xCA], by cbv⟩

/-- The second artifact is gone. -/
def uncoveredTree : FileSystem := shadowTree.take hidingLocation

theorem scanned_uncoveredTree : scanned shadowSettings uncoveredTree = [hiddenUnit] := by cbv

theorem isNewer_uncoveredTree : uncoveredTree.isNewer (shadowCache.entryPath hiddenUnit)
    hiddenUnit.absolute = false := by
  cbv

theorem read_uncoveredTree : uncoveredTree.read hiddenUnit.absolute = .ok [] := by cbv

/-- The first artifact has been read. -/
def keptTree : FileSystem := (shadowCache.put uncoveredTree hiddenUnit []).2

theorem scanned_keptTree : scanned shadowSettings keptTree = [hiddenUnit] := by cbv

theorem isPlain_keptTree : keptTree.IsPlain hiddenLocation := by
  have hnode : keptTree.node? hiddenLocation = some (.file []) := by cbv
  intro node hnode'
  rw [hnode] at hnode'
  exact ⟨[], (Option.some.inj hnode').symm⟩

theorem hasPlace_keptTree : keptTree.HasPlace hiddenLocation :=
  ⟨.ofNames [Utf8.encode "a"], Utf8.encode "A.class", rfl,
    ⟨by decide, by decide, by decide, by decide⟩, by cbv⟩

theorem times_keptTree :
    keptTree.entries.toList.map (fun row => row.2.modified) = [4, 4, 4, 4, 1, 4] := by
  cbv

/-- The first artifact has been compiled again. -/
def recompiledTree : FileSystem := keptTree.put hiddenLocation ⟨.file [0xFE], 4, .free⟩

theorem scanned_recompiledTree : scanned shadowSettings recompiledTree = [hiddenUnit] := by cbv

/-- The artifact that comes to light has no entry that counts. -/
theorem history_uncoveredTree :
    History shadowSettings filledReferences shadowTree [shadowTree] uncoveredTree := by
  refine .next .start (.delete hasFile_shadowTree (.of_take hasFile_shadowTree)
    (by simp [uncoveredTree, entry?_take])) ?_
  rintro ⟨unit, hunit, -, _, ⟨⟩, hcounts, -⟩
  rw [scanned_uncoveredTree] at hunit
  obtain rfl := List.mem_singleton.mp hunit
  have hentry : uncoveredTree.isNewer (shadowCache.entryPath hiddenUnit)
    hiddenUnit.absolute = true := hcounts
  rw [isNewer_uncoveredTree] at hentry
  cases hentry

theorem history_keptTree :
    History shadowSettings filledReferences shadowTree [uncoveredTree, shadowTree] keptTree := by
  have hstep : (analyze shadowSettings filledReferences none uncoveredTree).2.fileSystem =
      keptTree :=
    fileSystem_analyze_of_miss rfl scanned_uncoveredTree
      (Cache.get_of_not_newer isNewer_uncoveredTree) ⟨[], read_uncoveredTree, rfl⟩ none
  refine .next history_uncoveredTree (hstep ▸ .analyze none) ?_
  rintro ⟨unit, hunit, hnot, -⟩
  rw [scanned_keptTree, ← scanned_uncoveredTree] at hunit
  exact hnot hunit

theorem history_recompiledTree : History shadowSettings filledReferences shadowTree
    [keptTree, uncoveredTree, shadowTree] recompiledTree := by
  have hartifact : IsArtifact hiddenLocation :=
    ⟨.ofNames [Utf8.encode "a"], Utf8.encode "A", by decide⟩
  have hentry : recompiledTree.entry? hiddenLocation = some ⟨.file [0xFE], 4, .free⟩ := by
    rw [recompiledTree, entry?_put, if_pos rfl]
  refine .next history_keptTree (.compile hartifact hasPlace_keptTree
    (.of_put isPlain_keptTree [0xFE] 4 .free) hentry ?_) ?_
  · rintro _ ⟨⟩
    exact noEntryAfter_of_forall (by rw [times_keptTree]; decide)
  · rintro ⟨unit, hunit, hnot, -⟩
    rw [scanned_recompiledTree, ← scanned_keptTree] at hunit
    exact hnot hunit

/-- Before a run has read it, an artifact may come to light, and it may be compiled again. -/
theorem reports_of_history_recompiled :
    shadowSettings.cacheRoot = some shadowCache.root ∧ Extractor.Total filledReferences ∧
    shadowCache.Sound shadowTree ∧ shadowCache.Empty shadowTree ∧
    History shadowSettings filledReferences shadowTree
      [keptTree, uncoveredTree, shadowTree] recompiledTree ∧
    Reports shadowSettings filledReferences none recompiledTree :=
  ⟨rfl, total_filledReferences, sound_shadowCache, empty_shadowCache, history_recompiledTree,
    reports_of_history rfl total_filledReferences sound_shadowCache empty_shadowCache
      history_recompiledTree none⟩

theorem way_detourCache : DependencyGraph.detourCache.way =
    [Utf8.encode "c", Utf8.encode "new"] ++ [[Path.dot, Path.dot], Utf8.encode "old"] := by
  cbv

theorem leads_detourTree (artifact : Bytes) :
    Leads (DependencyGraph.detourTree artifact) .root [Utf8.encode "c"]
      (Location.root.child (Utf8.encode "c")) := by
  have hpasses : (DependencyGraph.detourTree artifact).Passes .root (Utf8.encode "c") :=
    ⟨by cbv, by decide, by decide, by decide⟩
  exact Leads.step hpasses (by cbv : _ = some Node.directory) (by simp) Leads.stay

/-- A root that goes through a directory which is missing leads nowhere. -/
theorem empty_detourCache (artifact : Bytes) :
    DependencyGraph.detourCache.Empty (DependencyGraph.detourTree artifact) := by
  intro base hbase
  exfalso
  have hnext : (DependencyGraph.detourTree artifact).Passes
      (Location.root.child (Utf8.encode "c")) (Utf8.encode "new") :=
    ⟨by cbv, by decide, by decide, by decide⟩
  have hnone : entry? (DependencyGraph.detourTree artifact)
      ((Location.root.child (Utf8.encode "c")).child (Utf8.encode "new")) = none := by
    cbv
  rw [Cache.At, way_detourCache] at hbase
  obtain ⟨m, hm, -⟩ := hbase.append
  exact not_leads_of_none (leads_detourTree artifact) hnext hnone rfl hm

theorem scanned_shadowTree : scanned shadowSettings shadowTree = [hidingUnit] := by cbv

theorem isNewer_shadowTree : shadowTree.isNewer (shadowCache.entryPath hidingUnit)
    hidingUnit.absolute = false := by
  cbv

theorem read_shadowTree : shadowTree.read hidingUnit.absolute = .ok [0xCA] := by cbv

/-- The second artifact has been read and is gone. -/
def staleTree : FileSystem := (shadowCache.put shadowTree hidingUnit ["B"]).2.take hidingLocation

theorem scanned_staleTree : scanned shadowSettings staleTree = [hiddenUnit] := by cbv

theorem get_staleTree : shadowCache.get staleTree hiddenUnit = some ["B"] := by cbv

theorem read_staleTree : staleTree.read hiddenUnit.absolute = .ok [] := by cbv

theorem steps_staleTree :
    Relation.ReflTransGen (Step shadowSettings filledReferences) shadowTree staleTree := by
  have hread : (analyze shadowSettings filledReferences none shadowTree).2.fileSystem =
      (shadowCache.put shadowTree hidingUnit ["B"]).2 :=
    fileSystem_analyze_of_miss rfl scanned_shadowTree
      (Cache.get_of_not_newer isNewer_shadowTree) ⟨[0xCA], read_shadowTree, rfl⟩ none
  have hfile : (shadowCache.put shadowTree hidingUnit ["B"]).2.HasFile hidingLocation :=
    ⟨[0xCA], by cbv⟩
  exact (Relation.ReflTransGen.single (hread ▸ .analyze none)).tail
    (.delete hfile (.of_take hfile) (by simp [staleTree, entry?_take]))

/-- The first artifact meets the entry of the second. -/
theorem not_reports_staleTree : ¬Reports shadowSettings filledReferences none staleTree := by
  have hhit : Gathering.addUnit (some shadowCache) filledReferences
      { fileSystem := staleTree } hiddenUnit =
      (.ok (), ({ fileSystem := staleTree } : Gathering).hit hiddenUnit ["B"]) :=
    Gathering.addUnit_of_get filledReferences get_staleTree
  have hadd : Gathering.addUnits (shadowSettings.cacheRoot.map Cache.mk) filledReferences
      { fileSystem := staleTree } (scanned shadowSettings staleTree) =
      (.ok (), ({ fileSystem := staleTree } : Gathering).hit hiddenUnit ["B"]) := by
    have hcache : shadowSettings.cacheRoot.map Cache.mk = some shadowCache := rfl
    rw [hcache, scanned_staleTree, Gathering.addUnits, hhit]
    rfl
  have hheld : (({ fileSystem := staleTree } : Gathering).hit hiddenUnit
      ["B"]).forward[hiddenUnit.id]? = some ["B"] := by
    simp [Gathering.hit]
  have hmem : hiddenUnit ∈ scanned shadowSettings staleTree := by rw [scanned_staleTree]; simp
  obtain ⟨a, hanalyze, hforward⟩ := forward_of_addUnits hadd hmem hheld none
  exact not_reports hanalyze hmem hforward read_staleTree (by simp [filledReferences])

/-- The second class meets an entry that was there before. -/
theorem not_reports_detourTree :
    ¬Reports detourSettings filledReferences none (DependencyGraph.detourTree [0xCA]) := by
  have hscanned : scanned detourSettings (DependencyGraph.detourTree [0xCA]) =
      [DependencyGraph.classA, DependencyGraph.classB] :=
    DependencyGraph.values_detourTree [0xCA]
  obtain ⟨g, hadd, hheld⟩ : ∃ g, Gathering.addUnits (detourSettings.cacheRoot.map Cache.mk)
      filledReferences { fileSystem := DependencyGraph.detourTree [0xCA] }
      (scanned detourSettings (DependencyGraph.detourTree [0xCA])) = (.ok (), g) ∧
      g.forward[DependencyGraph.classB.id]? = some ["wrong"] := by
    rw [hscanned]
    exact ⟨_, DependencyGraph.addUnits_detourTree rfl [0xCA], by simp [Gathering.hit]⟩
  have hmem : DependencyGraph.classB ∈
      scanned detourSettings (DependencyGraph.detourTree [0xCA]) := by
    rw [hscanned]
    simp
  obtain ⟨a, hanalyze, hforward⟩ := forward_of_addUnits hadd hmem hheld none
  exact not_reports hanalyze hmem hforward (DependencyGraph.read_detourTree [0xCA])
    (by simp [filledReferences])

/-- An artifact that comes to light when another one is deleted meets the entry of the other one;
and where the root of the cache turns back from a directory that is not there yet, an entry may come
to count that was there before. -/
theorem not_reports_of_history :
    (¬∀ (settings : Settings) (extract : Extractor String) (root : Path) (start fs : FileSystem),
      settings.cacheRoot = some root → Extractor.Total extract →
      (Cache.mk root).Sound start → (Cache.mk root).Empty start →
      Relation.ReflTransGen (Step settings extract) start fs →
        Reports settings extract none fs) ∧
    ¬∀ (settings : Settings) (extract : Extractor String) (root : Path) (start : FileSystem)
      (past : List FileSystem) (fs : FileSystem),
      settings.cacheRoot = some root → Extractor.Total extract → start.WellFormed →
      (∀ base, (Cache.mk root).At start base → start.NoLinkBelow base) →
      (Cache.mk root).Empty start → History settings extract start past fs →
        Reports settings extract none fs := by
  constructor
  · intro h
    exact not_reports_staleTree (h _ _ _ _ _ rfl total_filledReferences sound_shadowCache
      empty_shadowCache steps_staleTree)
  · intro h
    exact not_reports_detourTree (h _ _ _ _ _ _ rfl total_filledReferences
      (DependencyGraph.wellFormed_detourTree [0xCA])
      (fun base _ => DependencyGraph.noLinkBelow_detourTree [0xCA] base)
      (empty_detourCache [0xCA]) .start)

end Run
end Freshness
