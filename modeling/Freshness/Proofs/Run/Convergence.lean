import Freshness.Proofs.FileSystem.Preservation
import Freshness.Proofs.Invalidation.Closure
import Freshness.Proofs.Run.Remainder
import Mathlib

/-!
# One run is enough

With closure and without a cache, a second run finds nothing more to delete.  What is
out of date in the second run was affected in the first: a unit that is missing now was
deleted then, and a unit that refers to it was affected with it, so the units that were
not affected see the same libraries as before.
-/

namespace Freshness
namespace Run

open DependencyGraph FileSystem Relation

variable {ε : Type}

/-- An identity that is out of date, or refers to one that is, through any number of
steps. -/
def Tainted (a : Analysis) (id : Identity) : Prop :=
  id ∈ a.outOfDate ∨ ∃ root ∈ a.outOfDate, TransGen a.graph.Affects root id

theorem Tainted.affects {a : Analysis} {symbol id : Identity} (h : Tainted a symbol)
    (haffects : a.graph.Affects symbol id) : Tainted a id := by
  rcases h with hstale | ⟨root, hroot, hreach⟩
  · exact Or.inr ⟨symbol, hstale, TransGen.single haffects⟩
  · exact Or.inr ⟨root, hroot, hreach.tail haffects⟩

/-- A run asks for the library that supplies a symbol. -/
def Asked (settings : Settings) (g : DependencyGraph) (symbol : Identity) : Prop :=
  ∃ id, symbol ∈ g.references id ∧
    Library.isExternal g settings.platform symbol = true

/-- A run has left `fs'` of a tree: only files of affected units are gone, the answers
about libraries are the same, and directories among them have the same times. -/
structure Leaves (settings : Settings) (extract : Extractor ε)
    (table : Option (Identity → Option Path)) (fs : FileSystem) (a : Analysis)
    (gone : Location → Prop) (fs' : FileSystem) : Prop
    extends Remainder settings extract table fs a
      (Invalidation.AffectedThrough a.graph a.outOfDate) gone fs' where
  steady : ∀ symbol, Asked settings a.graph symbol →
    supplier settings table fs' symbol = supplier settings table fs symbol
  times : ∀ symbol p, Asked settings a.graph symbol →
    supplier settings table fs symbol = some p → fs.isDirectory p = true →
      fs'.modified? p = fs.modified? p

namespace Leaves

variable {settings : Settings} {extract : Extractor ε}
  {table : Option (Identity → Option Path)} {fs fs' : FileSystem} {a a' : Analysis}
  {gone : Location → Prop}

/-- A unit that is missing afterwards was affected. -/
theorem tainted_of_missing (h : Leaves settings extract table fs a gone fs')
    {id : Identity} {unit : CompiledUnit} (hunit : a.graph.unit? id = some unit)
    (hmissing : (Scan.compiledUnits fs' settings.outputRoots)[id]? = none) :
    Tainted a id := by
  rw [← h.found.wellFormed.unit?_id hunit]
  exact (h.gone_of_missing hunit hmissing).1.2

variable (h : Leaves settings extract table fs a gone fs')
  (h' : Found settings extract table fs' a')
include h h'

/-- A symbol to which an unaffected unit refers is local as before. -/
theorem contains_eq {symbol id : Identity} (hid : ¬Tainted a id)
    (haffects : a.graph.Affects symbol id) :
    a'.graph.contains symbol = a.graph.contains symbol := by
  rw [Bool.eq_iff_iff]
  refine ⟨h.contains_of_contains h', fun hcontains => ?_⟩
  by_contra hmissing
  rw [contains, Std.TreeMap.contains_eq_isSome_getElem?] at hcontains hmissing
  obtain ⟨unit, hunit⟩ := Option.isSome_iff_exists.mp hcontains
  apply hid
  refine (h.tainted_of_missing hunit ?_).affects haffects
  rw [← h'.units]
  simpa using hmissing

theorem librariesOf_eq {id : Identity} {unit : CompiledUnit}
    (hunit : a'.graph.unit? id = some unit) (hid : ¬Tainted a id) :
    librariesOf settings table fs' a'.graph id =
      librariesOf settings table fs a.graph id := by
  have hexternal : (a.graph.references id).filter
        (Library.isExternal a'.graph settings.platform) =
      (a.graph.references id).filter
        (Library.isExternal a.graph settings.platform) := by
    apply List.filter_congr
    intro symbol hsymbol
    rw [Library.isExternal, Library.isExternal, h.contains_eq h' hid hsymbol]
  rw [librariesOf, librariesOf, h.references_eq h' hunit, hexternal]
  apply Library.suppliers_congr
  intro symbol hsymbol
  obtain ⟨hsymbol, hexternal⟩ := List.mem_filter.mp hsymbol
  exact h.steady symbol ⟨id, hsymbol, hexternal⟩

/-- What is out of date by a source was affected. -/
theorem tainted_of_source {source : SourceUnit}
    (hsource : source ∈ Scan.sourceUnits fs' settings.sourceRoots)
    (hreason : (OutOfDate.sourceReason? fs' a'.graph source).isSome = true) :
    Tainted a source.id := by
  rcases h.stale_or_missing_of_source h' hsource hreason with
    hstale | ⟨unit, hunit, hmissing⟩
  · exact Or.inl hstale
  · exact h.tainted_of_missing hunit hmissing

/-- What is out of date by a library was affected. -/
theorem tainted_of_library (hasks : AsksForLibraries settings table) {id : Identity}
    {unit : CompiledUnit} (hunit : a'.graph.unit? id = some unit) {p : Path}
    (hp : p ∈ (librariesOf settings table fs' a'.graph id).toList)
    (hnewer : fs'.isNewer p unit.absolute = true) : Tainted a id := by
  by_contra hid
  have hkept := Remainder.unit?_of_found h' hunit
  rw [h.librariesOf_eq h' hunit hid] at hp
  obtain ⟨symbol, hsymbol, hsupplied⟩ := Library.mem_suppliers hp
  obtain ⟨hsymbol, hexternal⟩ := List.mem_filter.mp hsymbol
  have hlibrary : fs'.modified? p = fs.modified? p := by
    by_cases hdirectory : fs.isDirectory p = true
    · exact h.times symbol p ⟨id, hsymbol, hexternal⟩ hsupplied hdirectory
    · cases hresolve : fs'.resolve p with
      | error e => simp [isNewer, modified?, lookup?, hresolve] at hnewer
      | ok l =>
          have hnode : fs.node? l ≠ some .directory := fun hnode =>
            hdirectory (isDirectory_iff.mpr
              ⟨l, h.without.resolve_of_resolve hresolve, hnode⟩)
          rw [modified?, modified?, h.without.lookup?_eq hresolve hnode]
  refine hid (Or.inl ((h.found.outOfDate _).mpr (Or.inr ⟨hasks, unit, ?_, p, hp, ?_⟩)))
  · exact (h.unit_kept hkept).1
  · rw [isNewer, ← hlibrary, ← (h.modified?_unit hkept).1]
    exact hnewer

/-- What is out of date afterwards was affected. -/
theorem tainted_of_stale {id : Identity} (hid : id ∈ a'.outOfDate) : Tainted a id := by
  rcases (h'.outOfDate id).mp hid with
    ⟨source, hsource, rfl, hreason⟩ | ⟨hasks, unit, hunit, p, hp, hnewer⟩
  · exact h.tainted_of_source h' hsource hreason
  · exact h.tainted_of_library h' hasks hunit hp hnewer

theorem tainted_of_tainted {id : Identity} (hid : Tainted a' id) : Tainted a id := by
  rcases hid with hstale | ⟨root, hroot, hreach⟩
  · exact h.tainted_of_stale h' hstale
  · induction hreach with
    | single haffects =>
        exact (h.tainted_of_stale h' hroot).affects (h.affects_of_affects h' haffects)
    | tail _ haffects ih => exact ih.affects (h.affects_of_affects h' haffects)

/-- Nothing is affected afterwards that was not affected before. -/
theorem affected_of_affected {unit : CompiledUnit}
    (hunit : Invalidation.AffectedThrough a'.graph a'.outOfDate unit) :
    Invalidation.AffectedThrough a.graph a.outOfDate unit :=
  ⟨(h.unit_kept (Remainder.unit?_of_found h' hunit.1)).1, h.tainted_of_tainted h' hunit.2⟩

end Leaves

/-! ## The second run -/

/-- The answers that a run on `fs` is given are the same on `fs'`. -/
def SameAnswers (settings : Settings) (extract : Extractor ε)
    (table : Option (Identity → Option Path)) (fs fs' : FileSystem) : Prop :=
  ∀ a, (analyze settings extract table fs).1 = .ok a →
    ∀ symbol, Asked settings a.graph symbol →
      supplier settings table fs' symbol = supplier settings table fs symbol

/-- Directories that a table answers to a run on `fs` have the same times on `fs'`.
What a classpath answers is never a directory. -/
def SameTimes (settings : Settings) (extract : Extractor ε)
    (table : Option (Identity → Option Path)) (fs fs' : FileSystem) : Prop :=
  ∀ a, (analyze settings extract table fs).1 = .ok a →
    ∀ lookup, table = some lookup → ∀ symbol p, Asked settings a.graph symbol →
      lookup symbol = some p → fs.isDirectory p = true →
        fs'.modified? p = fs.modified? p

/-- A run that deletes all that it should leaves a tree in which no artifact of an
affected unit can be deleted. -/
theorem exists_leaves
    {settings : Settings} (hclosure : settings.closure = true)
    (hcache : settings.cacheRoot = none) {extract : Extractor ε}
    {table : Option (Identity → Option Path)} {fs fs' : FileSystem}
    (htree : fs.WellFormed) (hunique : Scan.OneToOne fs settings.outputRoots)
    {summary : RunSummary} {g : Gathering}
    (hrun : execute settings extract table fs = (.ok summary, g))
    (hfs : g.fileSystem = fs') (hfailures : summary.failures = [])
    (hsame : SameAnswers settings extract table fs fs')
    (htimes : SameTimes settings extract table fs fs') :
    ∃ a gone, Leaves settings extract table fs a gone fs' ∧
      ∀ unit, Invalidation.AffectedThrough a.graph a.outOfDate unit →
        fs'.isFile unit.absolute = true →
        fs'.delete unit.absolute = .error .notFound := by
  subst hfs
  obtain ⟨a, hanalyze, hremainder, -, -, hsettled⟩ := exists_remainder
    hcache htree hunique
    (fun g stale unit (h : Invalidation.AffectedThrough g stale unit) => h.1)
    (fun g hg stale => by
      rw [hclosure]
      exact Invalidation.exists_order_closure hg stale) hrun
  refine ⟨a, _, ⟨hremainder, hsame a hanalyze, ?_⟩, ?_⟩
  · intro symbol p hasked hsupplied hdirectory
    cases table with
    | none =>
        rw [Classpath.isDirectory_of_answer hsupplied] at hdirectory
        cases hdirectory
    | some lookup =>
        exact htimes a hanalyze lookup rfl symbol p hasked hsupplied hdirectory
  · intro unit haffected hfile
    rcases hsettled unit haffected hfile with hdelete | hfailed
    · exact hdelete
    · rw [hfailures] at hfailed
      cases hfailed

/-- With closure and without a cache, a run that deletes all that it should leaves
nothing for a second run to delete. -/
theorem execute_execute
    {settings : Settings} (hclosure : settings.closure = true)
    (hcache : settings.cacheRoot = none) (extract : Extractor ε)
    (table : Option (Identity → Option Path)) {fs : FileSystem}
    (htree : fs.WellFormed) (hunique : Scan.OneToOne fs settings.outputRoots)
    {summary : RunSummary} {g : Gathering}
    (hrun : execute settings extract table fs = (.ok summary, g))
    (hfailures : summary.failures = [])
    (hsame : SameAnswers settings extract table fs g.fileSystem)
    (htimes : SameTimes settings extract table fs g.fileSystem) :
    ∃ again g', execute settings extract table g.fileSystem = (.ok again, g') ∧
      again.removed = [] ∧ again.failures = [] ∧ g'.fileSystem = g.fileSystem := by
  obtain ⟨a, gone, h, hsettled⟩ := exists_leaves hclosure hcache htree hunique hrun rfl
    hfailures hsame htimes
  obtain ⟨a', g', hanalyze, h', hg⟩ := h.exists_analyze hcache
  obtain ⟨order, horder, hsweep⟩ :=
    Invalidation.exists_order_closure h'.wellFormed a'.outOfDate
  obtain ⟨seen, hseen⟩ :=
    Sweep.foldl_remove_eq { fileSystem := g.fileSystem, dryRun := false } order
  have hidle : (PathSet.firsts {} (order.map CompiledUnit.absolute)).foldl Sweep.attempt
      { fileSystem := g.fileSystem, dryRun := false } =
        { fileSystem := g.fileSystem, dryRun := false } := by
    apply Sweep.foldl_attempt_idle rfl
    intro p hp
    obtain ⟨unit, hunit, rfl⟩ := (Sweep.attempts_firsts order).sound p hp
    exact hsettled unit (h.affected_of_affected h' ((horder unit).mp hunit))
  rw [hidle] at hseen
  rw [execute, run_of_ok hanalyze false rfl, hclosure, hg, hsweep, hseen]
  exact ⟨_, _, rfl, rfl, rfl, rfl⟩

/-- A library, a class that uses it, one that refers to that class, and one that refers
to nothing. -/
def chainTree : FileSystem :=
  [("/l.jar", 2, []), ("/o/A.class", 1, [0]), ("/o/B.class", 1, [0, 0]),
    ("/o/C.class", 1, [])].foldl
    (fun fs (p, time, content) => fs.addFile (Path.ofString p) time content)
    (FileSystem.empty 3)

def chainSettings : Settings where
  sourceRoots := []
  outputRoots := [Path.ofString "/o"]
  closure := true

def chainReferences : Extractor String
  | [] => .ok []
  | [_] => .ok ["L"]
  | _ => .ok ["A"]

def chainTable : Option (Identity → Option Path) :=
  some fun _ => some (Path.ofString "/l.jar")

theorem wellFormed_chainTree : chainTree.WellFormed :=
  List.foldlRecOn _ _ (WellFormed.empty 3) fun _ h _ _ => h.addFile _ _ _

theorem oneToOne_chainTree : Scan.OneToOne chainTree chainSettings.outputRoots := by
  have hcarried : Scan.carried chainTree chainSettings.outputRoots =
      ["A", "B", "C"].map fun id =>
        (Location.ofNames [Utf8.encode "o", Utf8.encode (id ++ ".class")], id) := by
    cbv
  rw [Scan.oneToOne_iff, hcarried]
  decide

theorem execute_execute_chain :
    chainSettings.closure = true ∧ chainSettings.cacheRoot = none ∧
    chainTree.WellFormed ∧ Scan.OneToOne chainTree chainSettings.outputRoots ∧
    ∃ summary g,
      execute chainSettings chainReferences chainTable chainTree = (.ok summary, g) ∧
      summary.failures = [] ∧
      summary.removed = [Path.ofString "/o/B.class", Path.ofString "/o/A.class"] ∧
      SameAnswers chainSettings chainReferences chainTable chainTree g.fileSystem ∧
      SameTimes chainSettings chainReferences chainTable chainTree g.fileSystem ∧
      ∃ again g', execute chainSettings chainReferences chainTable g.fileSystem =
          (.ok again, g') ∧
        again.removed = [] ∧ again.failures = [] ∧ g'.fileSystem = g.fileSystem := by
  have hfirst : (execute chainSettings chainReferences chainTable chainTree).1.toOption.map
      (fun summary => (summary.removed, summary.failures)) =
        some ([Path.ofString "/o/B.class", Path.ofString "/o/A.class"], []) := by
    cbv
  rcases hrun : execute chainSettings chainReferences chainTable chainTree with
    ⟨e | summary, g⟩
  · rw [hrun] at hfirst
    cases hfirst
  · rw [hrun] at hfirst
    obtain ⟨hremoved, hfailures⟩ := Prod.mk.inj (Option.some.inj hfirst)
    have hsame : SameAnswers chainSettings chainReferences chainTable chainTree
        g.fileSystem := fun _ _ _ _ => rfl
    have htimes : SameTimes chainSettings chainReferences chainTable chainTree
        g.fileSystem := by
      rintro a - lookup ⟨⟩ symbol p - ⟨⟩ hdirectory
      have hfile : chainTree.isDirectory (Path.ofString "/l.jar") = false := by cbv
      rw [hfile] at hdirectory
      cases hdirectory
    exact ⟨rfl, rfl, wellFormed_chainTree, oneToOne_chainTree, summary, g, rfl, hfailures,
      hremoved, hsame, htimes,
      execute_execute rfl rfl chainReferences chainTable wellFormed_chainTree
        oneToOne_chainTree hrun hfailures hsame htimes⟩

/-! ## A directory as a library -/

/-- Two classes in a directory that was changed before they were, and a source that is
newer than its class. -/
def crowdedTree : FileSystem :=
  ([("/o/A.class", 2), ("/o/B.class", 2), ("/s/B.java", 3)].foldl
    (fun fs (p, time) => fs.addFile (Path.ofString p) time [])
    (FileSystem.empty 4)).touch (Path.ofString "/o") 1

/-- The tree without the class that has a newer source. -/
def lessCrowdedTree : FileSystem :=
  (crowdedTree.take (.ofNames [Utf8.encode "o", Utf8.encode "B.class"])).stamp
    (.ofNames [Utf8.encode "o"])

def crowdedSettings : Settings where
  sourceRoots := [Path.ofString "/s"]
  outputRoots := [Path.ofString "/o"]
  closure := true

/-- Every class refers to one that the directory of the classes supplies. -/
def referToLibrary : Extractor String := fun _ => .ok ["L"]

def crowdedTable : Option (Identity → Option Path) :=
  some fun _ => some (Path.ofString "/o")

theorem wellFormed_crowdedTree : crowdedTree.WellFormed :=
  (List.foldlRecOn _ _ (WellFormed.empty 4) fun _ h _ _ => h.addFile _ _ _).touch _ _

theorem oneToOne_crowdedTree :
    Scan.OneToOne crowdedTree crowdedSettings.outputRoots := by
  have hcarried : Scan.carried crowdedTree crowdedSettings.outputRoots =
      ["A", "B"].map fun id =>
        (Location.ofNames [Utf8.encode "o", Utf8.encode (id ++ ".class")], id) := by
    cbv
  rw [Scan.oneToOne_iff, hcarried]
  decide

/-- The first deletion changes the time of the directory, which the second run takes for
a library that has been changed. -/
theorem not_execute_execute_directory :
    ¬∀ (settings : Settings) (extract : Extractor String)
      (table : Option (Identity → Option Path)) (fs : FileSystem) summary g,
      settings.closure = true → settings.cacheRoot = none → fs.WellFormed →
      Scan.OneToOne fs settings.outputRoots →
      execute settings extract table fs = (.ok summary, g) → summary.failures = [] →
      SameAnswers settings extract table fs g.fileSystem →
      ∃ again g', execute settings extract table g.fileSystem = (.ok again, g') ∧
        again.removed = [] ∧ again.failures = [] := by
  intro h
  have hfailures : (execute crowdedSettings referToLibrary crowdedTable
      crowdedTree).1.toOption.map RunSummary.failures = some [] := by cbv
  have hfs : (execute crowdedSettings referToLibrary crowdedTable
      crowdedTree).2.fileSystem = lessCrowdedTree := by cbv
  have hsecond : (execute crowdedSettings referToLibrary crowdedTable
      lessCrowdedTree).1.toOption.map RunSummary.removed =
        some [Path.ofString "/o/A.class"] := by cbv
  rcases hrun : execute crowdedSettings referToLibrary crowdedTable crowdedTree with
    ⟨e | summary, g⟩
  · rw [hrun] at hfailures
    cases hfailures
  · rw [hrun] at hfailures hfs
    obtain ⟨again, g', hagain, hremoved, -⟩ := h _ _ _ _ summary g rfl rfl
      wellFormed_crowdedTree oneToOne_crowdedTree hrun (Option.some.inj hfailures)
      fun _ _ _ _ => rfl
    rw [← hfs] at hsecond
    rw [hagain] at hsecond
    have hnone : again.removed = [Path.ofString "/o/A.class"] :=
      Option.some.inj hsecond
    rw [hremoved] at hnone
    cases hnone

end Run
end Freshness
