import Freshness.FileSystem.Arrangement
import Freshness.Invalidation
import Freshness.Proofs.Path.Set

/-!
# What a sweep removes

A sweep through a list of units looks at the first occurrence of every artifact's
path.  Which paths these are does not depend on what the tree holds or on what can be
deleted, so a sweep that only records and one that deletes look at the same paths.
The one that only records lists those at which there is a file.
-/

namespace Freshness
namespace Sweep

/-- Deletes what is at `p`, if it is a file. -/
def attempt (s : Sweep) (p : Path) : Sweep :=
  if s.fileSystem.isFile p then s.delete p else s

theorem remove_of_attempted
    {s : Sweep} {unit : CompiledUnit}
    (h : s.attempted.contains unit.absolute = true) :
    s.remove unit = s := by
  rw [remove, if_pos h]

theorem remove_of_fresh
    {s : Sweep} {unit : CompiledUnit}
    (h : ¬s.attempted.contains unit.absolute = true) :
    s.remove unit =
      { s with attempted := s.attempted.insert unit.absolute }.attempt
        unit.absolute := by
  rw [remove, if_neg h]
  rfl

@[simp] theorem attempted_attempt (s : Sweep) (p : Path) :
    (s.attempt p).attempted = s.attempted := by
  unfold attempt delete
  split
  · split
    · rfl
    · split <;> rfl
  · rfl

theorem attempt_with_attempted
    (s : Sweep) (seen : PathSet) (p : Path) :
    { s with attempted := seen }.attempt p =
      { s.attempt p with attempted := seen } := by
  unfold attempt delete
  dsimp only
  split
  · split
    · rfl
    · split <;> rfl
  · rfl

theorem foldl_attempt_with_attempted
    (s : Sweep) (seen : PathSet) (paths : List Path) :
    paths.foldl attempt { s with attempted := seen } =
      { paths.foldl attempt s with attempted := seen } := by
  induction paths generalizing s with
  | nil => rfl
  | cons p rest ih =>
      rw [List.foldl_cons, attempt_with_attempted, ih, List.foldl_cons]

/-- A sweep attempts the first occurrences of the paths of its units, in order. -/
theorem foldl_remove_eq (s : Sweep) (units : List CompiledUnit) :
    ∃ seen : PathSet, units.foldl remove s =
      { (s.attempted.firsts (units.map CompiledUnit.absolute)).foldl attempt s
        with attempted := seen } := by
  induction units generalizing s with
  | nil => exact ⟨s.attempted, rfl⟩
  | cons unit rest ih =>
      rw [List.foldl_cons, List.map_cons, PathSet.firsts]
      by_cases h : s.attempted.contains unit.absolute = true
      · rw [remove_of_attempted h, if_pos h]
        exact ih s
      · rw [remove_of_fresh h, if_neg h]
        obtain ⟨seen, hseen⟩ := ih
          ({ s with attempted := s.attempted.insert unit.absolute }.attempt
            unit.absolute)
        refine ⟨seen, ?_⟩
        rw [hseen, attempted_attempt, attempt_with_attempted,
          foldl_attempt_with_attempted, List.foldl_cons]

theorem foldl_attempt_dryRun
    {s : Sweep} (h : s.dryRun = true) (paths : List Path) :
    paths.foldl attempt s =
      { s with removed :=
          s.removed ++ paths.filter fun p => s.fileSystem.isFile p } := by
  induction paths generalizing s with
  | nil => simp
  | cons p rest ih =>
      rw [List.foldl_cons]
      by_cases hp : s.fileSystem.isFile p = true
      · have hstep : s.attempt p = { s with removed := s.removed ++ [p] } := by
          simp [attempt, delete, hp, h]
        rw [hstep, ih (s := { s with removed := s.removed ++ [p] }) h]
        simp [hp]
      · have hstep : s.attempt p = s := by simp [attempt, hp]
        rw [hstep, ih h]
        simp [hp]

/-- A sweep that only records leaves the tree alone and lists the paths at which
there is a file. -/
theorem foldl_remove_dryRun
    {s : Sweep} (h : s.dryRun = true) (units : List CompiledUnit) :
    (units.foldl remove s).fileSystem = s.fileSystem ∧
      (units.foldl remove s).failures = s.failures ∧
      (units.foldl remove s).removed = s.removed ++
        (s.attempted.firsts (units.map CompiledUnit.absolute)).filter
          fun p => s.fileSystem.isFile p := by
  obtain ⟨seen, hseen⟩ := foldl_remove_eq s units
  rw [hseen, foldl_attempt_dryRun h]
  exact ⟨rfl, rfl, rfl⟩

/-- The paths that a sweep through units attempts. -/
structure Attempts (units : List CompiledUnit) (paths : List Path) : Prop where
  sound : ∀ p ∈ paths, ∃ unit ∈ units, unit.absolute = p
  complete : ∀ unit ∈ units, ∃ p ∈ paths, p.components = unit.absolute.components
  distinct : paths.Pairwise fun p q => p.components ≠ q.components

theorem attempts_firsts (units : List CompiledUnit) :
    Attempts units (PathSet.firsts {} (units.map CompiledUnit.absolute)) where
  sound _ hp := List.mem_map.mp (PathSet.mem_of_mem_firsts hp).1
  complete unit hunit := by
    rcases PathSet.exists_mem_firsts {}
      (List.mem_map_of_mem (f := CompiledUnit.absolute) hunit) with hseen | ⟨p, hp, hkey⟩
    · simp at hseen
    · exact ⟨p, hp, Path.key_eq_key_iff.mp hkey⟩
  distinct := (PathSet.firsts_pairwise _ _).imp fun hkey hcomponents =>
    hkey (Path.key_eq_key_iff.mpr hcomponents)

end Sweep

/-- `removed` lists the artifacts of the units in question that are files, and none
of them twice.  Paths count as the same when their components are; an artifact may
be left out only for another one whose path has the same components and is written
so that no file is found at it. -/
structure ListsArtifacts (fs : FileSystem) (affected : CompiledUnit → Prop)
    (removed : List Path) : Prop where
  distinct : removed.Pairwise fun p q => p.components ≠ q.components
  sound : ∀ p ∈ removed,
    fs.isFile p = true ∧ ∃ unit, affected unit ∧ unit.absolute = p
  complete : ∀ unit, affected unit → fs.isFile unit.absolute = true →
    (∃ p ∈ removed, p.components = unit.absolute.components) ∨
      ∃ other, affected other ∧
        other.absolute.components = unit.absolute.components ∧
        fs.isFile other.absolute = false

/-- A sweep that only records lists the artifacts of its units. -/
theorem listsArtifacts_of_order
    {affected : CompiledUnit → Prop} {units : List CompiledUnit}
    (hunits : ∀ unit, unit ∈ units ↔ affected unit) (fs : FileSystem) :
    ListsArtifacts fs affected
      (units.foldl Sweep.remove { fileSystem := fs, dryRun := true }).removed := by
  have hremoved := (Sweep.foldl_remove_dryRun
    (s := { fileSystem := fs, dryRun := true }) rfl units).2.2
  rw [hremoved, List.nil_append]
  have hattempts := Sweep.attempts_firsts units
  constructor
  · exact hattempts.distinct.filter _
  · intro p hp
    obtain ⟨hfirst, hfile⟩ := List.mem_filter.mp hp
    obtain ⟨unit, hunit, rfl⟩ := hattempts.sound p hfirst
    exact ⟨hfile, unit, (hunits unit).mp hunit, rfl⟩
  · intro unit haffected _
    obtain ⟨p, hp, hcomponents⟩ :=
      hattempts.complete unit ((hunits unit).mpr haffected)
    by_cases hfile : fs.isFile p = true
    · exact Or.inl ⟨p, List.mem_filter.mpr ⟨hp, hfile⟩, hcomponents⟩
    · obtain ⟨other, hother, rfl⟩ := hattempts.sound p hp
      exact Or.inr ⟨other, (hunits other).mp hother, hcomponents,
        by simpa using hfile⟩

/-! ## A path that is written in two ways -/

/-- A tree with one artifact. -/
def oneArtifact : FileSystem :=
  (FileSystem.empty 0).addFile (Path.ofString "/out/A.class") 0 []

/-- Two units whose artifacts have the same components, the first of them written as
that of a directory. -/
def spelledTwice : UnitMap :=
  Scan.ofUnits
    [⟨"A", Path.ofString "/out/A.class/", Path.ofString "A"⟩,
      ⟨"B", Path.ofString "/out/A.class", Path.ofString "A"⟩]

/-- Both of them are out of date. -/
def bothStale : OutOfDate :=
  .ofList [("A", StaleReason.sourceNewer), ("B", StaleReason.sourceNewer)]

end Freshness
