import Freshness.Proofs.Classpath
import Freshness.Proofs.Extraction
import Freshness.Proofs.OutOfDate.Reasons
import Freshness.Run

/-!
# What an analysis finds

Without a cache, an analysis leaves the tree alone, and what it finds is determined by
the units and sources that are scanned, by the references in the artifacts and by the
answers about libraries.
-/

namespace Freshness
namespace Run

variable {ε : Type}

/-- A graph that has been found is made from the references of the scanned units. -/
theorem exists_ofReferences_of_analyze
    {settings : Settings} {extract : Extractor ε}
    {table : Option (Identity → Option Path)} {fs : FileSystem}
    {a : Analysis} {g : Gathering}
    (h : analyze settings extract table fs = (.ok a, g)) :
    a.graph = DependencyGraph.ofReferences
      (Scan.compiledUnits fs settings.outputRoots) g.forward := by
  rw [analyze] at h
  split at h
  · cases h
  next graph g' hbuild =>
    cases h
    exact DependencyGraph.eq_ofReferences_of_build hbuild

theorem snd_analyze (settings : Settings) (extract : Extractor ε)
    (table : Option (Identity → Option Path)) (fs : FileSystem) :
    (analyze settings extract table fs).2 =
      (Gathering.addUnits (settings.cacheRoot.map Cache.mk) extract
        { fileSystem := fs }
        (Scan.compiledUnits fs settings.outputRoots).values).2 := by
  rw [← DependencyGraph.snd_build, analyze]
  split
  next heq => rw [heq]
  next heq => rw [heq]

theorem run_of_error
    {settings : Settings} {extract : Extractor ε}
    {table : Option (Identity → Option Path)} {fs : FileSystem}
    {e : ExtractionError ε} {g : Gathering}
    (h : analyze settings extract table fs = (.error e, g)) (dryRun : Bool) :
    run dryRun settings extract table fs = (.error e, g) := by
  rw [run, h]

theorem run_of_ok
    {settings : Settings} {extract : Extractor ε}
    {table : Option (Identity → Option Path)} {fs : FileSystem}
    {a : Analysis} {g : Gathering}
    (h : analyze settings extract table fs = (.ok a, g)) (dryRun : Bool)
    {sweep : Sweep}
    (hsweep : Invalidation.invalidate settings.closure dryRun a.graph a.outOfDate
      g.fileSystem = sweep) :
    run dryRun settings extract table fs =
      (.ok { outOfDate := a.outOfDate, removed := sweep.removed,
             failures := sweep.failures,
             dump := if settings.dump then some (.ofGraph a.graph a.libraries)
               else none,
             stats := a.stats, dryRun },
        { g with fileSystem := sweep.fileSystem }) := by
  rw [run, h, ← hsweep]

/-- A run asks for libraries. -/
def AsksForLibraries (settings : Settings) (table : Option (Identity → Option Path)) :
    Prop :=
  table.isSome = true ∨ settings.classpath.isEmpty = false

/-- The library that a run is answered for a symbol. -/
def supplier (settings : Settings) (table : Option (Identity → Option Path))
    (fs : FileSystem) : Identity → Option Path :=
  table.getD (Classpath.answer fs (Classpath.ofPaths fs settings.classpath))

theorem libraries?_eq_some_iff
    {settings : Settings} {table : Option (Identity → Option Path)} {classpath : Classpath}
    {fs : FileSystem} {g : DependencyGraph} {map : LibraryMap} :
    libraries? settings table classpath fs g = some map ↔
      AsksForLibraries settings table ∧
        map = Library.table (table.getD (Classpath.answer fs classpath)) g settings.platform := by
  unfold libraries? AsksForLibraries
  cases table with
  | some lookup =>
      have hgives : Library.Gives (σ := Unit) (fun symbol => pure (lookup symbol)) lookup
          fun _ => True := fun _ _ _ => ⟨rfl, trivial⟩
      have htable := Library.resolve_eq_table hgives g settings.platform
        (s := ()) trivial
      dsimp only
      rw [htable]
      simp only [Option.some.injEq, Option.isSome_some, true_or, true_and,
        Option.getD_some]
      exact eq_comm
  | none =>
      have hgives := Classpath.gives_resolve fs classpath
      have htable := Library.resolve_eq_table hgives g settings.platform (s := classpath) rfl
      dsimp only
      rw [htable]
      cases hempty : settings.classpath.isEmpty with
      | true => simp
      | false =>
          simp only [Bool.false_eq_true, if_false, Option.some.injEq,
            Option.isSome_none, false_or, true_and, Option.getD_none]
          exact eq_comm

/-- What an analysis finds to be out of date is so for a reason, by the references and libraries
that it has found and the times that it leaves. -/
theorem explains_of_analyze
    {settings : Settings} {extract : Extractor ε}
    {table : Option (Identity → Option Path)} {fs : FileSystem} {a : Analysis} {g : Gathering}
    (h : analyze settings extract table fs = (.ok a, g)) :
    OutOfDate.Explains g.fileSystem (Scan.sourceUnits g.fileSystem settings.sourceRoots) a.graph
      a.libraries a.outOfDate := by
  rw [analyze] at h
  split at h
  · cases h
  next graph g' hbuild =>
    cases h
    apply OutOfDate.explains_find
    intro map hmap
    obtain ⟨-, rfl⟩ := libraries?_eq_some_iff.mp hmap
    exact Library.keyed_table _ _ _

/-- The libraries of a unit. -/
def librariesOf (settings : Settings) (table : Option (Identity → Option Path))
    (fs : FileSystem) (g : DependencyGraph) (id : Identity) : PathSet :=
  Library.suppliers (supplier settings table fs)
    ((g.references id).filter (Library.isExternal g settings.platform))

/-- What an analysis without a cache has found in a tree. -/
structure Found (settings : Settings) (extract : Extractor ε)
    (table : Option (Identity → Option Path)) (fs : FileSystem) (a : Analysis) : Prop where
  wellFormed : a.graph.WellFormed
  units : a.graph.units = Scan.compiledUnits fs settings.outputRoots
  references : ∀ (id : Identity) unit, a.graph.unit? id = some unit →
    Gathering.HasReferences fs extract unit (a.graph.references id)
  outOfDate : ∀ id : Identity, id ∈ a.outOfDate ↔
    (∃ source ∈ Scan.sourceUnits fs settings.sourceRoots, id = source.id ∧
      (OutOfDate.sourceReason? fs a.graph source).isSome = true) ∨
    AsksForLibraries settings table ∧ ∃ unit, a.graph.unit? id = some unit ∧
      ∃ p ∈ (librariesOf settings table fs a.graph id).toList,
        fs.isNewer p unit.absolute = true

theorem found_of_analyze
    {settings : Settings} (hcache : settings.cacheRoot = none) {extract : Extractor ε}
    {table : Option (Identity → Option Path)} {fs : FileSystem}
    {a : Analysis} {g : Gathering}
    (h : analyze settings extract table fs = (.ok a, g)) :
    Found settings extract table fs a ∧ g.fileSystem = fs := by
  have hkeyed : UnitMap.Keyed (Scan.compiledUnits fs settings.outputRoots) :=
    keyed_ofUnits _
  rw [analyze, hcache, Option.map_none] at h
  split at h
  · cases h
  next graph g' hbuild =>
    cases h
    have hfs : g.fileSystem = fs := by
      have hsnd := DependencyGraph.snd_build fs
        (Scan.compiledUnits fs settings.outputRoots) none extract
      rw [hbuild] at hsnd
      change g = _ at hsnd
      rw [hsnd]
      exact Gathering.fileSystem_addUnits extract _ _
    have hgraph := DependencyGraph.eq_ofReferences_of_build hbuild
    have hunits : graph.units = Scan.compiledUnits fs settings.outputRoots := by
      rw [hgraph]
      rfl
    refine ⟨⟨?_, hunits, ?_, ?_⟩, hfs⟩
    · rw [hgraph]
      exact DependencyGraph.wellFormed_ofReferences hkeyed _
    · intro id unit hunit
      rw [DependencyGraph.unit?, hunits] at hunit
      exact DependencyGraph.references_of_build hkeyed hbuild hunit
    · intro id
      dsimp only
      rw [hfs, OutOfDate.mem_find]
      apply or_congr Iff.rfl
      constructor
      · rintro ⟨map, hmap, supplied, hsupplied, hreason⟩
        obtain ⟨hasks, rfl⟩ := libraries?_eq_some_iff.mp hmap
        rw [Library.getElem?_table] at hsupplied
        split at hsupplied
        · cases hsupplied
        · cases hsupplied
          exact ⟨hasks, OutOfDate.isSome_libraryReason?.mp hreason⟩
      · rintro ⟨hasks, hreason⟩
        refine ⟨_, libraries?_eq_some_iff.mpr ⟨hasks, rfl⟩,
          librariesOf settings table fs graph id, ?_,
          OutOfDate.isSome_libraryReason?.mpr hreason⟩
        obtain ⟨unit, -, p, hp, -⟩ := hreason
        rw [Library.getElem?_table, if_neg, librariesOf, supplier]
        intro hempty
        exact List.ne_nil_of_mem hp (PathSet.isEmpty_iff.mp hempty)

/-- Without a cache, an analysis finds something if the references of the scanned
units can be found. -/
theorem exists_analyze
    {settings : Settings} (hcache : settings.cacheRoot = none) {extract : Extractor ε}
    (table : Option (Identity → Option Path)) {fs : FileSystem}
    (h : ∀ (id : Identity) unit,
      (Scan.compiledUnits fs settings.outputRoots)[id]? = some unit →
        ∃ symbols, Gathering.HasReferences fs extract unit symbols) :
    ∃ a g, analyze settings extract table fs = (.ok a, g) := by
  obtain ⟨graph, g, hbuild⟩ := DependencyGraph.exists_build h
  rw [analyze, hcache, Option.map_none, hbuild]
  exact ⟨_, g, rfl⟩

end Run
end Freshness
