import Mathlib
import Freshness.FileSystem.Arrangement
import Freshness.Proofs.Library
import Freshness.Proofs.OutOfDate

/-!
# Why something is out of date

An identity is out of date as never compiled, by a source that has changed, or by the least of the
libraries that have changed, and each of these is a condition on the sources, the graph and the
times alone: in which order the sources are given does not matter, and libraries only add to what
the sources say.
-/

namespace Freshness

namespace FileSystem

/-- What is at `candidate` has a time, and a later one than what is at `reference`. -/
def ChangedAfter (fs : FileSystem) (candidate reference : Path) : Prop :=
  ∃ c r, fs.modified? candidate = some c ∧ fs.modified? reference = some r ∧ r < c

theorem isNewer_iff_changedAfter {fs : FileSystem} {candidate reference : Path} :
    fs.isNewer candidate reference = true ↔ fs.ChangedAfter candidate reference := by
  unfold isNewer ChangedAfter
  cases fs.modified? candidate <;> cases fs.modified? reference <;> simp

end FileSystem

namespace OutOfDate

variable {fs : FileSystem} {g : DependencyGraph} {sources : List SourceUnit}
  {libraries : Option LibraryMap} {id : Identity}

/-! ## The three reasons -/

/-- The identity has a source and no unit. -/
def NeverCompiled (g : DependencyGraph) (sources : List SourceUnit) (id : Identity) : Prop :=
  g.unit? id = none ∧ ∃ source ∈ sources, source.id = id

/-- The identity has a source and a unit, and the unit's artifact has no time or an earlier one than
a source. -/
def SourceChanged (fs : FileSystem) (g : DependencyGraph) (sources : List SourceUnit)
    (id : Identity) : Prop :=
  ∃ unit, g.unit? id = some unit ∧ (∃ source ∈ sources, source.id = id) ∧
    (fs.modified? unit.absolute = none ∨
      ∃ source ∈ sources, source.id = id ∧ fs.ChangedAfter source.path unit.absolute)

/-- Of the libraries of the identity's unit, `p` is the least one that has changed after the unit's
artifact. -/
def LibraryChanged (fs : FileSystem) (g : DependencyGraph) (libraries : Option LibraryMap)
    (id : Identity) (p : Path) : Prop :=
  ∃ unit map supplied, g.unit? id = some unit ∧ libraries = some map ∧
    map[id]? = some supplied ∧ p ∈ supplied.toList ∧ fs.ChangedAfter p unit.absolute ∧
      ∀ q ∈ supplied.toList, fs.ChangedAfter q unit.absolute →
        (compare p.key q.key).isLE = true

/-- The identities that are out of date are those that have a reason to be: they were never
compiled, or a source has changed, or else a library. -/
structure Explains (fs : FileSystem) (sources : List SourceUnit) (g : DependencyGraph)
    (libraries : Option LibraryMap) (stale : OutOfDate) : Prop where
  neverCompiled : ∀ id : Identity, stale[id]? = some .neverCompiled ↔ NeverCompiled g sources id
  sourceNewer : ∀ id : Identity, stale[id]? = some .sourceNewer ↔ SourceChanged fs g sources id
  libraryNewer : ∀ (id : Identity) p, stale[id]? = some (.libraryNewer p) ↔
    ¬NeverCompiled g sources id ∧ ¬SourceChanged fs g sources id ∧
      LibraryChanged fs g libraries id p

theorem newerThanArtifact_iff {source artifact : Path} :
    newerThanArtifact fs source artifact = true ↔
      fs.modified? artifact = none ∨ fs.ChangedAfter source artifact := by
  unfold newerThanArtifact FileSystem.ChangedAfter
  cases fs.modified? source <;> cases fs.modified? artifact <;> simp

theorem sourceReason?_eq_neverCompiled_iff {source : SourceUnit} :
    sourceReason? fs g source = some .neverCompiled ↔ g.unit? source.id = none := by
  unfold sourceReason?
  cases g.unit? source.id <;> simp

theorem sourceReason?_eq_sourceNewer_iff {source : SourceUnit} :
    sourceReason? fs g source = some .sourceNewer ↔
      ∃ unit, g.unit? source.id = some unit ∧
        (fs.modified? unit.absolute = none ∨ fs.ChangedAfter source.path unit.absolute) := by
  unfold sourceReason?
  cases g.unit? source.id with
  | none => simp
  | some unit =>
      simp only [Option.ite_none_right_eq_some, newerThanArtifact_iff, Option.some.injEq,
        exists_eq_left', and_true]

theorem sourceReason?_ne_libraryNewer (source : SourceUnit) (p : Path) :
    sourceReason? fs g source ≠ some (.libraryNewer p) := by
  unfold sourceReason?
  cases g.unit? source.id <;> simp

theorem bySources_neverCompiled_iff :
    (bySources fs g sources)[id]? = some .neverCompiled ↔ NeverCompiled g sources id := by
  rw [getElem?_bySources, NeverCompiled]
  constructor
  · rintro ⟨source, hsource, rfl, hreason⟩
    exact ⟨sourceReason?_eq_neverCompiled_iff.mp hreason, source, hsource, rfl⟩
  · rintro ⟨hunit, source, hsource, rfl⟩
    exact ⟨source, hsource, rfl, sourceReason?_eq_neverCompiled_iff.mpr hunit⟩

theorem bySources_sourceNewer_iff :
    (bySources fs g sources)[id]? = some .sourceNewer ↔ SourceChanged fs g sources id := by
  rw [getElem?_bySources, SourceChanged]
  constructor
  · rintro ⟨source, hsource, rfl, hreason⟩
    obtain ⟨unit, hunit, htime⟩ := sourceReason?_eq_sourceNewer_iff.mp hreason
    exact ⟨unit, hunit, ⟨source, hsource, rfl⟩,
      htime.imp_right fun hchanged => ⟨source, hsource, rfl, hchanged⟩⟩
  · rintro ⟨unit, hunit, ⟨source, hsource, rfl⟩, htime⟩
    rcases htime with hnone | ⟨changed, hmem, hid, hchanged⟩
    · exact ⟨source, hsource, rfl,
        sourceReason?_eq_sourceNewer_iff.mpr ⟨unit, hunit, Or.inl hnone⟩⟩
    · exact ⟨changed, hmem, hid,
        sourceReason?_eq_sourceNewer_iff.mpr ⟨unit, hid ▸ hunit, Or.inr hchanged⟩⟩

theorem bySources_ne_libraryNewer (p : Path) :
    (bySources fs g sources)[id]? ≠ some (.libraryNewer p) := by
  intro hreason
  obtain ⟨source, -, -, hsource⟩ := getElem?_bySources.mp hreason
  exact sourceReason?_ne_libraryNewer source p hsource

theorem bySources_eq_none_iff :
    (bySources fs g sources)[id]? = none ↔
      ¬NeverCompiled g sources id ∧ ¬SourceChanged fs g sources id := by
  have hnever : (bySources fs g sources)[id]? = some .neverCompiled ↔ NeverCompiled g sources id :=
    bySources_neverCompiled_iff
  rw [← hnever, ← bySources_sourceNewer_iff]
  cases hreason : (bySources fs g sources)[id]? with
  | none => simp
  | some reason =>
      cases reason with
      | neverCompiled => simp
      | sourceNewer => simp
      | libraryNewer p => exact absurd hreason (bySources_ne_libraryNewer p)

theorem libraryReason?_eq_some_iff {supplied : PathSet} (hkeyed : supplied.Keyed)
    {reason : StaleReason} :
    libraryReason? fs g id supplied = some reason ↔
      ∃ unit p, g.unit? id = some unit ∧ reason = .libraryNewer p ∧ p ∈ supplied.toList ∧
        fs.ChangedAfter p unit.absolute ∧
          ∀ q ∈ supplied.toList, fs.ChangedAfter q unit.absolute →
            (compare p.key q.key).isLE = true := by
  unfold libraryReason?
  cases g.unit? id with
  | none => simp
  | some unit =>
      simp only [Option.map_eq_some_iff, hkeyed.find?_eq_some_iff,
        FileSystem.isNewer_iff_changedAfter, Option.some.injEq]
      constructor
      · rintro ⟨p, ⟨hp, hchanged, hleast⟩, rfl⟩
        exact ⟨unit, p, rfl, rfl, hp, hchanged, hleast⟩
      · rintro ⟨_, p, rfl, rfl, hp, hchanged, hleast⟩
        exact ⟨p, ⟨hp, hchanged, hleast⟩, rfl⟩

/-- The sources may be given in any order and more than once. -/
theorem bySources_congr {sources' : List SourceUnit}
    (h : ∀ source, source ∈ sources' ↔ source ∈ sources) :
    (bySources fs g sources')[id]? = (bySources fs g sources)[id]? := by
  ext reason
  simp only [getElem?_bySources, h]

theorem explains_find (hkeyed : ∀ map ∈ libraries, LibraryMap.Keyed map) :
    Explains fs sources g libraries (find fs sources g libraries) := by
  have hlibraries : ∀ (id : Identity) reason,
      (libraries.bind (·[id]?)).bind (libraryReason? fs g id) = some reason ↔
        ∃ p, reason = .libraryNewer p ∧ LibraryChanged fs g libraries id p := by
    intro id reason
    simp only [Option.bind_eq_some_iff]
    constructor
    · rintro ⟨supplied, ⟨map, hmap, hsupplied⟩, hreason⟩
      obtain ⟨unit, p, hunit, rfl, hleast⟩ :=
        (libraryReason?_eq_some_iff (hkeyed map hmap id supplied hsupplied)).mp hreason
      exact ⟨p, rfl, unit, map, supplied, hunit, hmap, hsupplied, hleast⟩
    · rintro ⟨p, rfl, unit, map, supplied, hunit, hmap, hsupplied, hleast⟩
      exact ⟨supplied, ⟨map, hmap, hsupplied⟩,
        (libraryReason?_eq_some_iff (hkeyed map hmap id supplied hsupplied)).mpr
          ⟨unit, p, hunit, rfl, hleast⟩⟩
  constructor
  · intro id
    rw [getElem?_find, Option.or_eq_some_iff, bySources_neverCompiled_iff, hlibraries]
    simp
  · intro id
    rw [getElem?_find, Option.or_eq_some_iff, bySources_sourceNewer_iff, hlibraries]
    simp
  · intro id p
    rw [getElem?_find, Option.or_eq_some_iff, bySources_eq_none_iff, hlibraries, and_assoc]
    simp [bySources_ne_libraryNewer p]

/-- An identity is out of date as never compiled or by a source just if its sources say so, and by
the least of its newer libraries if they do not.  The order of the sources does not matter, and
libraries change no reason that sources give. -/
theorem find_reasons (hkeyed : ∀ map ∈ libraries, LibraryMap.Keyed map) :
    (∀ id : Identity, (find fs sources g libraries)[id]? = some .neverCompiled ↔
      NeverCompiled g sources id) ∧
    (∀ id : Identity, (find fs sources g libraries)[id]? = some .sourceNewer ↔
      SourceChanged fs g sources id) ∧
    (∀ (id : Identity) p, (find fs sources g libraries)[id]? = some (.libraryNewer p) ↔
      ¬NeverCompiled g sources id ∧ ¬SourceChanged fs g sources id ∧
        LibraryChanged fs g libraries id p) ∧
    (∀ sources', (∀ source, source ∈ sources' ↔ source ∈ sources) →
      (find fs sources' g libraries).toList = (find fs sources g libraries).toList) ∧
    ∀ (id : Identity) reason, (find fs sources g none)[id]? = some reason →
      (find fs sources g libraries)[id]? = some reason := by
  have hexplains : Explains fs sources g libraries (find fs sources g libraries) :=
    explains_find hkeyed
  refine ⟨hexplains.neverCompiled, hexplains.sourceNewer, hexplains.libraryNewer,
    fun sources' hsame => ?_, ?_⟩
  · refine (Std.TreeMap.Equiv.of_forall_constGet?_eq fun id => ?_).toList_eq
    change (find fs sources' g libraries)[id]? = (find fs sources g libraries)[id]?
    rw [getElem?_find, getElem?_find, bySources_congr hsame]
  · intro id reason hreason
    rw [getElem?_find, Option.bind_none, Option.bind_none, Option.or_none] at hreason
    rw [getElem?_find, hreason, Option.some_or]

/-! ## A class that is older than its libraries -/

/-- A class that is newer than its source and older than both of its libraries. -/
def lateTree : FileSystem :=
  [("/s/A.java", 1), ("/o/A.class", 2), ("/l/x.jar", 3), ("/l/y.jar", 3)].foldl
    (fun fs (p, time) => fs.addFile (Path.ofString p) time []) (FileSystem.empty 4)

def lateUnit : CompiledUnit := ⟨"A", Path.ofString "/o/A.class", Path.ofString "A"⟩

def lateGraph : DependencyGraph := DependencyGraph.ofReferences (Scan.ofUnits [lateUnit]) {}

/-- The source of the class, and one that has no class. -/
def lateSources : List SourceUnit :=
  [⟨"A", Path.ofString "/s/A.java"⟩, ⟨"B", Path.ofString "/s/B.java"⟩]

def lateSupplied : PathSet :=
  (PathSet.insert {} (Path.ofString "/l/y.jar")).insert (Path.ofString "/l/x.jar")

def lateLibraries : LibraryMap := ({} : LibraryMap).insert "A" lateSupplied

theorem keyed_lateLibraries : LibraryMap.Keyed lateLibraries := by
  intro id supplied h
  rw [lateLibraries, Std.TreeMap.getElem?_insert] at h
  split at h
  · obtain rfl := Option.some.inj h
    exact (PathSet.keyed_empty.insert _).insert _
  · simp at h

theorem unit?_lateGraph : lateGraph.unit? "A" = some lateUnit := by cbv

theorem modified?_lateTree :
    lateTree.modified? (Path.ofString "/s/A.java") = some 1 ∧
    lateTree.modified? (Path.ofString "/o/A.class") = some 2 ∧
    lateTree.modified? (Path.ofString "/l/x.jar") = some 3 := by
  refine ⟨?_, ?_, ?_⟩ <;> cbv

theorem toList_lateSupplied :
    lateSupplied.toList = [Path.ofString "/l/x.jar", Path.ofString "/l/y.jar"] := by
  cbv

theorem find_reasons_late :
    (∀ map ∈ some lateLibraries, LibraryMap.Keyed map) ∧
    (find lateTree lateSources lateGraph (some lateLibraries))["A"]? =
      some (.libraryNewer (Path.ofString "/l/x.jar")) := by
  have hkeyed : ∀ map ∈ some lateLibraries, LibraryMap.Keyed map := by
    rintro _ ⟨⟩
    exact keyed_lateLibraries
  obtain ⟨hsource, hartifact, hlibrary⟩ := modified?_lateTree
  refine ⟨hkeyed, ((find_reasons hkeyed).2.2.1 "A" _).mpr ⟨?_, ?_, ?_⟩⟩
  · rintro ⟨hnone, -⟩
    rw [unit?_lateGraph] at hnone
    cases hnone
  · rintro ⟨unit, hunit, -, htime⟩
    obtain rfl := Option.some.inj (unit?_lateGraph.symm.trans hunit)
    rcases htime with hnone | ⟨source, hmem, hid, c, r, hc, hr, hlt⟩
    · cases hartifact.symm.trans hnone
    · obtain rfl : source = ⟨"A", Path.ofString "/s/A.java"⟩ := by
        rcases List.mem_pair.mp hmem with rfl | rfl
        · rfl
        · simp at hid
      cases hsource.symm.trans hc
      cases hartifact.symm.trans hr
      revert hlt
      decide
  · refine ⟨lateUnit, lateLibraries, lateSupplied, unit?_lateGraph, rfl,
      Std.TreeMap.getElem?_insert_self, ?_, ⟨3, 2, hlibrary, hartifact, by decide⟩, ?_⟩
    · rw [toList_lateSupplied]
      exact List.mem_cons_self
    · intro q hq _
      rw [toList_lateSupplied] at hq
      rcases List.mem_pair.mp hq with rfl | rfl <;> decide

end OutOfDate
end Freshness
