import Mathlib
import Freshness.Proofs.Cache.Sparing
import Freshness.Proofs.Extraction

/-!
# Building a graph with a cache

A cache is trustworthy if whatever counts in it is what the extractor finds.  From a trustworthy
cache the same graph is built as without one, each artifact is shown to the extractor at most once
and only if its references do not count in the cache, and the cache is trustworthy afterwards.
-/

namespace Freshness

open FileSystem

variable {ε : Type} {cache : Cache} {extract : Extractor ε} {fs fs' : FileSystem}
  {unit : CompiledUnit}

namespace Cache

/-- What counts in the cache for the given units is what the extractor finds in their
artifacts. -/
def Trustworthy (cache : Cache) (fs : FileSystem) (extract : Extractor ε)
    (units : List CompiledUnit) : Prop :=
  ∀ unit ∈ units, ∀ held, cache.get fs unit = some held →
    Gathering.HasReferences fs extract unit held

/-- The units whose references do not count in the cache. -/
def missed (cache : Cache) (fs : FileSystem) (units : List CompiledUnit) : List CompiledUnit :=
  units.filter fun unit => (cache.get fs unit).isNone

/-- The references of a unit can be found and kept, and are what counts in the cache if anything
does. -/
structure Serves (cache : Cache) (extract : Extractor ε) (fs : FileSystem) (unit : CompiledUnit)
    (symbols : List Identity) : Prop where
  placed : ∃ dirs stem, unit.Placed fs dirs stem
  found : Gathering.HasReferences fs extract unit symbols
  fits : ∀ symbol ∈ symbols, Lines.Fits symbol
  held : ∀ held, cache.get fs unit = some held → held = symbols

variable {symbols : List Identity} {spared : CompiledUnit → Prop}

theorem Spares.hasReferences {dirs : List Name} {stem : Name} {cache : Option Cache}
    (h : Spares cache spared fs fs') (hplaced : unit.Placed fs dirs stem)
    (hfound : Gathering.HasReferences fs extract unit symbols) :
    Gathering.HasReferences fs' extract unit symbols := by
  obtain ⟨bytes, hread, hextract⟩ := hfound
  exact ⟨bytes, (h.read_eq_ok_iff hplaced).mpr hread, hextract⟩

theorem Serves.of_spares (h : cache.Serves extract fs unit symbols)
    (hspares : Spares (some cache) spared fs fs')
    (hheld : ∀ held, cache.get fs' unit = some held → held = symbols) :
    cache.Serves extract fs' unit symbols := by
  obtain ⟨dirs, stem, hplaced⟩ := h.placed
  exact ⟨⟨dirs, stem, (hspares.artifact hplaced).1⟩, hspares.hasReferences hplaced h.found,
    h.fits, hheld⟩

theorem get_eq_of_spares (h : cache.Serves extract fs unit symbols)
    (hspares : Spares (some cache) spared fs fs') (hunit : spared unit) :
    cache.get fs' unit = cache.get fs unit := by
  obtain ⟨dirs, stem, hplaced⟩ := h.placed
  exact hspares.bind_get hplaced hunit

end Cache

namespace Gathering

open Cache

variable {references : CompiledUnit → List Identity}

/-- What gathering the given references for some units adds, and what it leaves alone. -/
structure Gathers (cache : Cache) (extract : Extractor ε)
    (references : CompiledUnit → List Identity) (units : List CompiledUnit) (g g' : Gathering) :
    Prop where
  spares : Spares (some cache) (fun other => ∀ unit ∈ units, other.id ≠ unit.id) g.fileSystem
    g'.fileSystem
  forward : g'.forward =
    units.foldl (fun forward unit => forward.insert unit.id (references unit)) g.forward
  count : g'.stats.cached + g'.stats.extracted =
    g.stats.cached + g.stats.extracted + units.length
  consulted : g'.consulted =
    ((cache.missed g.fileSystem units).map CompiledUnit.id).reverse ++ g.consulted
  serves : ∀ unit ∈ units, cache.Serves extract g'.fileSystem unit (references unit)

theorem gathers_addUnit (g : Gathering) (hsound : cache.Sound g.fileSystem)
    (h : cache.Serves extract g.fileSystem unit (references unit)) :
    ∃ g', g.addUnit (some cache) extract unit = (.ok (), g') ∧
      Gathers cache extract references [unit] g g' := by
  obtain ⟨dirs, stem, hplaced⟩ := h.placed
  cases hget : cache.get g.fileSystem unit with
  | some held =>
      obtain rfl := h.held held hget
      refine ⟨g.hit unit (references unit), addUnit_of_get extract hget, ?_⟩
      constructor
      · exact Spares.refl (by rintro _ ⟨⟩; exact hsound)
      · rfl
      · simp only [hit, List.length_singleton]
        omega
      · simp [missed, hget, hit]
      · simp only [List.mem_singleton, forall_eq]
        exact h
  | none =>
      have hspares := spares_put hsound hplaced.named (references unit)
      refine ⟨(g.consult unit).keep (some cache) unit (references unit),
        addUnit_of_references hget h.found, ?_⟩
      constructor
      · exact hspares.mono (by simp)
      · rfl
      · simp only [keep, consult, List.length_singleton]
        omega
      · simp [missed, hget, keep, consult]
      · simp only [List.mem_singleton, forall_eq]
        exact h.of_spares hspares fun held => eq_of_get_put hsound hplaced hget h.fits

theorem gathers_addUnits (g : Gathering) {units : List CompiledUnit}
    (hsound : cache.Sound g.fileSystem) (hdistinct : units.Pairwise (·.id ≠ ·.id))
    (h : ∀ unit ∈ units, cache.Serves extract g.fileSystem unit (references unit)) :
    ∃ g', g.addUnits (some cache) extract units = (.ok (), g') ∧
      Gathers cache extract references units g g' := by
  induction units generalizing g with
  | nil =>
      refine ⟨g, rfl, Spares.refl (by rintro _ ⟨⟩; exact hsound), rfl, rfl, rfl, by simp⟩
  | cons unit rest ih =>
      obtain ⟨hunit, hrest⟩ := List.forall_mem_cons.mp h
      obtain ⟨hne, hdistinctRest⟩ := List.pairwise_cons.mp hdistinct
      obtain ⟨g₁, hadd, hfirst⟩ := gathers_addUnit g hsound hunit
      have hother : ∀ other ∈ rest, ∀ unit' ∈ [unit], other.id ≠ unit'.id := by
        intro other hmem
        simpa using (hne other hmem).symm
      have hget : ∀ other ∈ rest,
          cache.get g₁.fileSystem other = cache.get g.fileSystem other := fun other hmem =>
        get_eq_of_spares (hrest other hmem) hfirst.spares (hother other hmem)
      have hserves : ∀ other ∈ rest,
          cache.Serves extract g₁.fileSystem other (references other) := by
        intro other hmem
        refine (hrest other hmem).of_spares hfirst.spares fun held hheld => ?_
        rw [hget other hmem] at hheld
        exact (hrest other hmem).held held hheld
      obtain ⟨g', hadds, hgathers⟩ := ih g₁ (hfirst.spares.sound cache rfl) hdistinctRest hserves
      refine ⟨g', by rw [addUnits, hadd]; exact hadds, ?_⟩
      constructor
      · refine (hfirst.spares.mono ?_).trans (hgathers.spares.mono ?_)
        · intro other hother unit' hmem
          exact hother unit' (List.mem_cons.mpr (Or.inl (List.mem_singleton.mp hmem)))
        · intro other hother unit' hmem
          exact hother unit' (List.mem_cons_of_mem unit hmem)
      · rw [hgathers.forward, hfirst.forward]
        rfl
      · have hcount := hfirst.count
        rw [List.length_singleton] at hcount
        rw [hgathers.count, hcount, List.length_cons]
        omega
      · have hmissed : cache.missed g₁.fileSystem rest = cache.missed g.fileSystem rest :=
          List.filter_congr fun other hmem => by rw [hget other hmem]
        have hall : cache.missed g.fileSystem ([unit] ++ rest) =
            cache.missed g.fileSystem [unit] ++ cache.missed g.fileSystem rest :=
          List.filter_append [unit] rest
        rw [List.singleton_append] at hall
        rw [hgathers.consulted, hfirst.consulted, hmissed, hall]
        simp
      · refine List.forall_mem_cons.mpr ⟨?_, hgathers.serves⟩
        have hserved := hfirst.serves unit (List.mem_singleton_self unit)
        have hspared : ∀ unit' ∈ rest, unit.id ≠ unit'.id := hne
        refine hserved.of_spares hgathers.spares fun held hheld => ?_
        rw [get_eq_of_spares hserved hgathers.spares hspared] at hheld
        exact hserved.held held hheld

/-- Without a cache the references are gathered as well. -/
theorem forward_addUnits (g : Gathering) {units : List CompiledUnit}
    (h : ∀ unit ∈ units, HasReferences g.fileSystem extract unit (references unit)) :
    ∃ g', g.addUnits none extract units = (.ok (), g') ∧ g'.forward =
      units.foldl (fun forward unit => forward.insert unit.id (references unit)) g.forward := by
  induction units generalizing g with
  | nil => exact ⟨g, rfl, rfl⟩
  | cons unit rest ih =>
      obtain ⟨hunit, hrest⟩ := List.forall_mem_cons.mp h
      rw [addUnits, addUnit_of_references rfl hunit]
      exact ih ((g.consult unit).keep none unit (references unit)) hrest

end Gathering

namespace DependencyGraph

open Gathering

/-- From a cache that may be trusted the same graph of scanned units is built as without one. -/
theorem exists_build_gathers {roots : List Path} (hsound : cache.Sound fs)
    (hfound : ∀ unit ∈ (Scan.compiledUnits fs roots).values, ∃ symbols,
      HasReferences fs extract unit symbols ∧ ∀ symbol ∈ symbols, Lines.Fits symbol)
    (htrust : cache.Trustworthy fs extract (Scan.compiledUnits fs roots).values) :
    ∃ references graph g₀ g,
      build fs (Scan.compiledUnits fs roots) none extract = (.ok graph, g₀) ∧
      build fs (Scan.compiledUnits fs roots) (some cache) extract = (.ok graph, g) ∧
      Gathers cache extract references (Scan.compiledUnits fs roots).values
        { fileSystem := fs } g := by
  have hdistinct : (Scan.compiledUnits fs roots).values.Pairwise (·.id ≠ ·.id) :=
    (keyed_ofUnits _).pairwise_ne
  classical
  obtain ⟨references, hreferences⟩ : ∃ references : CompiledUnit → List Identity,
      ∀ unit ∈ (Scan.compiledUnits fs roots).values,
        HasReferences fs extract unit (references unit) ∧
          ∀ symbol ∈ references unit, Lines.Fits symbol := by
    choose! references hreferences using hfound
    exact ⟨references, hreferences⟩
  have hserves : ∀ unit ∈ (Scan.compiledUnits fs roots).values,
      cache.Serves extract fs unit (references unit) := by
    intro unit hmem
    obtain ⟨hrefs, hfits⟩ := hreferences unit hmem
    exact ⟨Scan.exists_placed_of_mem hsound.tree hmem, hrefs, hfits,
      fun held hheld => (htrust unit hmem held hheld).unique hrefs⟩
  obtain ⟨g₀, hadd₀, hforward₀⟩ := forward_addUnits { fileSystem := fs }
    fun unit hmem => (hreferences unit hmem).1
  obtain ⟨g, hadd, hgathers⟩ := gathers_addUnits { fileSystem := fs } hsound hdistinct hserves
  refine ⟨references, ofReferences (Scan.compiledUnits fs roots) g.forward, g₀, g, ?_, ?_,
    hgathers⟩
  · rw [build, hadd₀, hgathers.forward, ← hforward₀]
  · rw [build, hadd]

/-- A cache that may be trusted changes nothing about the graph of scanned units, spares the
extractor the units whose references count in it, and may be trusted afterwards. -/
theorem build_trustworthy {roots : List Path} (hsound : cache.Sound fs)
    (hfound : ∀ unit ∈ (Scan.compiledUnits fs roots).values, ∃ symbols,
      HasReferences fs extract unit symbols ∧ ∀ symbol ∈ symbols, Lines.Fits symbol)
    (htrust : cache.Trustworthy fs extract (Scan.compiledUnits fs roots).values) :
    ∃ graph g₀ g,
      build fs (Scan.compiledUnits fs roots) none extract = (.ok graph, g₀) ∧
      build fs (Scan.compiledUnits fs roots) (some cache) extract = (.ok graph, g) ∧
      g.stats.cached + g.stats.extracted = (Scan.compiledUnits fs roots).size ∧
      g.consulted.reverse =
        (cache.missed fs (Scan.compiledUnits fs roots).values).map CompiledUnit.id ∧
      cache.Trustworthy g.fileSystem extract (Scan.compiledUnits fs roots).values := by
  obtain ⟨references, graph, g₀, g, hbuild₀, hbuild, hgathers⟩ :=
    exists_build_gathers hsound hfound htrust
  refine ⟨graph, g₀, g, hbuild₀, hbuild, ?_, ?_, ?_⟩
  · rw [hgathers.count, length_values]
    exact Nat.zero_add _
  · rw [hgathers.consulted, List.append_nil, List.reverse_reverse]
  · intro unit hmem held hheld
    have hunit := hgathers.serves unit hmem
    rw [hunit.held held hheld]
    exact hunit.found

/-! ## A cache in use -/

/-- The symbols in the lines of an artifact. -/
def linesReferences : Extractor String := fun bytes =>
  match Utf8.decode? bytes with
  | some text => .ok (Lines.nonempty text)
  | none => .error "not text"

def classA : CompiledUnit := ⟨"A", Path.ofString "/o/A.class", Path.ofString "A"⟩

def classB : CompiledUnit := ⟨"B", Path.ofString "/o/B.class", Path.ofString "B"⟩

def classRoots : List Path := [Path.ofString "/o"]

/-- Two classes, of which only the second has an entry in the cache. -/
def usedTree : FileSystem :=
  [("/o/A.class", 2, ""), ("/o/B.class", 2, "A\n"), ("/c/B.dep", 3, "A\n")].foldl
    (fun fs (p, time, text) => fs.addFile (Path.ofString p) time (Utf8.encode text))
    (FileSystem.empty 4)

def usedCache : Cache := ⟨Path.ofString "/c"⟩

theorem sound_usedCache (htree : fs.WellFormed)
    (hlinks : ∀ node ∈ fs.entries.toList.map fun row => row.2.node, ∀ target,
      node ≠ .link target) : usedCache.Sound fs := by
  have hway : usedCache.way = [Utf8.encode "c"] := by cbv
  exact Cache.sound_of_not_mem htree (fun base _ => noLinkBelow_of_forall hlinks base)
    (by rw [hway]; decide)

theorem fits_classA : Lines.Fits classA.id := by
  have hletters : classA.id.toList = ['A'] := by cbv
  constructor <;> rw [hletters] <;> decide

theorem sound_usedTree : usedCache.Sound usedTree := by
  have hnodes : usedTree.entries.toList.map (fun row => row.2.node) =
      [.directory, .directory, .directory, .file [], .file (Utf8.encode "A\n"),
        .file (Utf8.encode "A\n")] := by
    cbv
  exact sound_usedCache
    (List.foldlRecOn _ _ (WellFormed.empty 4) fun _ h _ _ => h.addFile _ _ _)
    (by rw [hnodes]; simp)

theorem values_usedTree : (Scan.compiledUnits usedTree classRoots).values = [classA, classB] := by
  cbv

theorem references_usedTree : HasReferences usedTree linesReferences classA [] ∧
    HasReferences usedTree linesReferences classB ["A"] :=
  ⟨⟨[], by cbv, by cbv⟩, ⟨Utf8.encode "A\n", by cbv, by cbv⟩⟩

theorem get_usedTree : usedCache.get usedTree classA = none ∧
    usedCache.get usedTree classB = some ["A"] :=
  ⟨Cache.get_of_not_newer (by cbv), by cbv⟩

theorem build_trustworthy_used :
    usedCache.Sound usedTree ∧
    (∀ unit ∈ (Scan.compiledUnits usedTree classRoots).values, ∃ symbols,
      HasReferences usedTree linesReferences unit symbols ∧
        ∀ symbol ∈ symbols, Lines.Fits symbol) ∧
    usedCache.Trustworthy usedTree linesReferences
      (Scan.compiledUnits usedTree classRoots).values ∧
    ∃ graph g₀ g,
      build usedTree (Scan.compiledUnits usedTree classRoots) none linesReferences =
        (.ok graph, g₀) ∧
      build usedTree (Scan.compiledUnits usedTree classRoots) (some usedCache)
        linesReferences = (.ok graph, g) ∧
      g.stats.cached + g.stats.extracted = (Scan.compiledUnits usedTree classRoots).size ∧
      g.consulted.reverse =
        (usedCache.missed usedTree
          (Scan.compiledUnits usedTree classRoots).values).map CompiledUnit.id ∧
      usedCache.Trustworthy g.fileSystem linesReferences
        (Scan.compiledUnits usedTree classRoots).values := by
  obtain ⟨hA, hB⟩ := references_usedTree
  obtain ⟨hmiss, hhit⟩ := get_usedTree
  have hfound : ∀ unit ∈ (Scan.compiledUnits usedTree classRoots).values, ∃ symbols,
      HasReferences usedTree linesReferences unit symbols ∧
        ∀ symbol ∈ symbols, Lines.Fits symbol := by
    rw [values_usedTree]
    exact List.forall_mem_cons.mpr ⟨⟨[], hA, by simp⟩, List.forall_mem_singleton.mpr
      ⟨["A"], hB, List.forall_mem_singleton.mpr fits_classA⟩⟩
  have htrust : usedCache.Trustworthy usedTree linesReferences
      (Scan.compiledUnits usedTree classRoots).values := by
    rw [values_usedTree]
    refine List.forall_mem_cons.mpr ⟨by simp [hmiss], List.forall_mem_singleton.mpr ?_⟩
    intro held hheld
    rw [hhit] at hheld
    obtain rfl := Option.some.inj hheld
    exact hB
  exact ⟨sound_usedTree, hfound, htrust, build_trustworthy sound_usedTree hfound htrust⟩

/-! ## A root that turns back -/

/-- Two classes and a forgotten entry for the second, to which the root of the cache leads as soon
as the first entry is written. -/
def detourTree (artifact : Bytes) : FileSystem :=
  [("/c/old/B.dep", 3, Utf8.encode "wrong\n"), ("/o/A.class", 1, []),
    ("/o/B.class", 1, artifact)].foldl
    (fun fs (p, time, content) => fs.addFile (Path.ofString p) time content)
    (FileSystem.empty 4)

def detourCache : Cache := ⟨Path.ofString "/c/new/../old"⟩

theorem wellFormed_detourTree (artifact : Bytes) : (detourTree artifact).WellFormed :=
  List.foldlRecOn _ _ (WellFormed.empty 4) fun _ h _ _ => h.addFile _ _ _

theorem noLinkBelow_detourTree (artifact : Bytes) (base : Location) :
    (detourTree artifact).NoLinkBelow base := by
  have hnodes : (detourTree artifact).entries.toList.map (fun row => row.2.node) =
      [.directory, .directory, .directory, .file [], .file artifact, .directory,
        .file (Utf8.encode "wrong\n")] := by
    cbv
  exact noLinkBelow_of_forall (by rw [hnodes]; simp) base

theorem values_detourTree (artifact : Bytes) :
    (Scan.compiledUnits (detourTree artifact) classRoots).values = [classA, classB] := by
  cbv

theorem get_detourTree (artifact : Bytes) :
    detourCache.get (detourTree artifact) classA = none ∧
      detourCache.get (detourTree artifact) classB = none :=
  ⟨Cache.get_of_not_newer (by cbv), Cache.get_of_not_newer (by cbv)⟩

theorem references_detourTree (hextract : extract [] = .ok []) (artifact : Bytes) :
    HasReferences (detourTree artifact) extract classA [] :=
  ⟨[], by cbv, hextract⟩

theorem read_detourTree (artifact : Bytes) :
    (detourTree artifact).read classB.absolute = .ok artifact := by
  cbv

/-- The tree once the first class has its entry. -/
def detourLeft (artifact : Bytes) : FileSystem :=
  (detourCache.put (detourTree artifact) classA []).2

theorem get_detourLeft (artifact : Bytes) :
    detourCache.get (detourLeft artifact) classB = some ["wrong"] := by
  cbv

/-- The second class is never read. -/
theorem addUnits_detourTree (hextract : extract [] = .ok []) (artifact : Bytes) :
    Gathering.addUnits (some detourCache) extract { fileSystem := detourTree artifact }
        [classA, classB] =
      (.ok (), ((({ fileSystem := detourTree artifact } : Gathering).consult classA).keep
        (some detourCache) classA []).hit classB ["wrong"]) := by
  have hfirst : Gathering.addUnit (some detourCache) extract
      { fileSystem := detourTree artifact } classA =
      (.ok (), (({ fileSystem := detourTree artifact } : Gathering).consult classA).keep
        (some detourCache) classA []) :=
    Gathering.addUnit_of_references (get_detourTree artifact).1 (references_detourTree hextract artifact)
  have hsecond : Gathering.addUnit (some detourCache) extract
      ((({ fileSystem := detourTree artifact } : Gathering).consult classA).keep
        (some detourCache) classA []) classB =
      (.ok (), ((({ fileSystem := detourTree artifact } : Gathering).consult classA).keep
        (some detourCache) classA []).hit classB ["wrong"]) :=
    Gathering.addUnit_of_get extract (get_detourLeft artifact)
  rw [Gathering.addUnits, hfirst]
  dsimp only
  rw [Gathering.addUnits, hsecond]
  rfl

/-- Where the root of a cache turns back from a directory that is not there yet, the cache may be
trusted only until the first entry is written. -/
theorem not_build_trustworthy_detour :
    ¬∀ (cache : Cache) (extract : Extractor String) (fs : FileSystem) (roots : List Path),
      fs.WellFormed → (∀ base, cache.At fs base → fs.NoLinkBelow base) →
      (∀ unit ∈ (Scan.compiledUnits fs roots).values, ∃ symbols,
        HasReferences fs extract unit symbols ∧ ∀ symbol ∈ symbols, Lines.Fits symbol) →
      cache.Trustworthy fs extract (Scan.compiledUnits fs roots).values →
      ∃ graph g₀ g,
        build fs (Scan.compiledUnits fs roots) none extract = (.ok graph, g₀) ∧
        build fs (Scan.compiledUnits fs roots) (some cache) extract = (.ok graph, g) := by
  intro h
  have hB : HasReferences (detourTree (Utf8.encode "A\n")) linesReferences classB ["A"] :=
    ⟨_, read_detourTree _, by cbv⟩
  obtain ⟨graph, g₀, g, hbuild₀, hbuild⟩ := h detourCache linesReferences
    (detourTree (Utf8.encode "A\n")) classRoots (wellFormed_detourTree _)
    (fun base _ => noLinkBelow_detourTree _ base)
    (by
      rw [values_detourTree]
      exact List.forall_mem_cons.mpr ⟨⟨[], references_detourTree (by cbv) _, by simp⟩,
        List.forall_mem_singleton.mpr ⟨["A"], hB, List.forall_mem_singleton.mpr fits_classA⟩⟩)
    (by
      rw [values_detourTree]
      obtain ⟨hmissA, hmissB⟩ := get_detourTree (Utf8.encode "A\n")
      exact List.forall_mem_cons.mpr ⟨by simp [hmissA],
        List.forall_mem_singleton.mpr (by simp [hmissB])⟩)
  have hkeyed : UnitMap.Keyed
      (Scan.compiledUnits (detourTree (Utf8.encode "A\n")) classRoots) := keyed_ofUnits _
  have hunit : (Scan.compiledUnits (detourTree (Utf8.encode "A\n")) classRoots)["B"]? =
      some classB := by
    obtain ⟨id, hid⟩ := mem_values_iff.mp (by rw [values_detourTree]; simp :
      classB ∈ (Scan.compiledUnits (detourTree (Utf8.encode "A\n")) classRoots).values)
    obtain rfl : "B" = id := hkeyed id classB hid
    exact hid
  have huncached : graph.references "B" = ["A"] :=
    (references_of_build hkeyed hbuild₀ hunit).unique hB
  have hcached : graph.references "B" = ["wrong"] := by
    have hg := snd_build (detourTree (Utf8.encode "A\n"))
      (Scan.compiledUnits (detourTree (Utf8.encode "A\n")) classRoots) (some detourCache)
      linesReferences
    rw [hbuild, values_detourTree, addUnits_detourTree (by cbv)] at hg
    dsimp only at hg
    rw [eq_ofReferences_of_build hbuild, references_ofReferences,
      Std.TreeMap.contains_eq_isSome_getElem?, hunit, hg]
    simp [Gathering.hit, classB]
  rw [huncached] at hcached
  simp at hcached

end DependencyGraph
end Freshness
