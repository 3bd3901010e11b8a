import Freshness.FileSystem.Change
import Freshness.OutOfDate

/-!
# Invalidation

The artifacts of the units that are out of date are deleted, and so are those of the units
that refer to them: only of those that do so directly, with the units that enclose them, or
of all that do so through any number of steps.  A deletion that fails is recorded and
does not stop the others.
-/

namespace Freshness

/-- A deletion that failed. -/
structure RemovalFailure where
  path : Path
  error : OsError
deriving DecidableEq, Repr

/-- What has been deleted so far. -/
structure Sweep where
  fileSystem : FileSystem
  /-- Nothing is deleted, only recorded. -/
  dryRun : Bool
  /-- The artifacts that have been dealt with. -/
  attempted : PathSet := {}
  removed : List Path := []
  failures : List RemovalFailure := []

namespace Sweep

/-- Deletes an artifact, which is there. -/
def delete (s : Sweep) (p : Path) : Sweep :=
  if s.dryRun then { s with removed := s.removed ++ [p] }
  else
    match s.fileSystem.delete p with
    | .ok fs => { s with fileSystem := fs, removed := s.removed ++ [p] }
    | .error .notFound => s
    | .error e => { s with failures := s.failures ++ [⟨p, e⟩] }

/-- Deletes the artifact of a unit, unless it has been dealt with or is not there. -/
def remove (s : Sweep) (unit : CompiledUnit) : Sweep :=
  if s.attempted.contains unit.absolute then s
  else
    let s := { s with attempted := s.attempted.insert unit.absolute }
    if s.fileSystem.isFile unit.absolute then s.delete unit.absolute else s

/-- Deletes the artifact of a unit and that of the unit that encloses it. -/
def removeWithEnclosing (g : DependencyGraph) (s : Sweep) (unit : CompiledUnit) : Sweep :=
  let s := s.remove unit
  match (Identity.enclosing? unit.id).bind g.unit? with
  | none => s
  | some outer => s.remove outer

end Sweep

namespace Invalidation

/-- The references to symbols that have not been followed yet. -/
abbrev Unfollowed := Std.TreeMap Identity (Std.TreeSet Identity)

/-- Deletes what refers to the identities on the stack, through any number of steps.  The
references to each symbol are followed once. -/
def follow (g : DependencyGraph) (unfollowed : Unfollowed) (s : Sweep) :
    (stack : List Identity) → Unfollowed × Sweep
  | [] => (unfollowed, s)
  | id :: stack =>
      match _h : unfollowed[id]? with
      | none => follow g unfollowed s stack
      | some ids =>
          let units := g.unitsOf ids
          follow g (unfollowed.erase id) (units.foldl Sweep.remove s)
            ((units.map CompiledUnit.id).reverse ++ stack)
termination_by stack => (unfollowed.size, stack.length)
decreasing_by
  · exact Prod.Lex.right _ (by simp)
  · apply Prod.Lex.left
    have hmem : id ∈ unfollowed := by
      rw [Std.TreeMap.mem_iff_isSome_getElem?, _h]; rfl
    have hpos : unfollowed.size ≠ 0 := by
      intro h
      have := Std.TreeMap.isEmpty_eq_size_eq_zero (t := unfollowed)
      simp [h] at this
      exact absurd hmem (Std.TreeMap.not_mem_of_isEmpty this)
    rw [Std.TreeMap.size_erase, if_pos (Std.TreeMap.contains_iff_mem.2 hmem)]
    omega

/-- Deletes what depends on the identities, through any number of steps. -/
def sweepDependents (g : DependencyGraph) (ids : List Identity) (s : Sweep) : Sweep :=
  (ids.foldl (fun (unfollowed, s) id => follow g unfollowed s [id]) (g.affectedBy, s)).2

/-- Deletes what refers directly to the identities, and what encloses it. -/
def sweepDirect (g : DependencyGraph) (ids : List Identity) (s : Sweep) : Sweep :=
  ids.foldl (fun s id => (g.dependents id).foldl (Sweep.removeWithEnclosing g) s) s

/-- Deletes the units with the identities themselves. -/
def sweepRoots (g : DependencyGraph) (closure : Bool) (ids : List Identity) (s : Sweep) :
    Sweep :=
  (ids.filterMap g.unit?).foldl
    (fun s unit => if closure then s.remove unit else s.removeWithEnclosing g unit) s

/-- Deletes all that is out of date, directly or by what it refers to. -/
def invalidate (closure dryRun : Bool) (g : DependencyGraph) (stale : OutOfDate)
    (fs : FileSystem) : Sweep :=
  let s : Sweep := { fileSystem := fs, dryRun }
  let s := if closure then sweepDependents g stale.keys s else sweepDirect g stale.keys s
  sweepRoots g closure stale.keys s

end Invalidation
end Freshness
