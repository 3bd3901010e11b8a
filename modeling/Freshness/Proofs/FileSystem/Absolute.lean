import Freshness.Proofs.Path.Route

/-!
# Absolute paths

What is at a path is read off the entries, and off the working directory if the path is relative.
So an absolute path leads to the same place in every working directory.  Which file it is does not
depend on how the path is written.
-/

namespace Freshness
namespace FileSystem

variable {fs fs' : FileSystem}

/-! ## Where the program runs -/

section

variable (h : fs'.entries = fs.entries)
include h

theorem entry?_of_entries (l : Location) : fs'.entry? l = fs.entry? l := by
  unfold entry?
  rw [h]

theorem node?_of_entries (l : Location) : fs'.node? l = fs.node? l := by
  rw [node?, node?, entry?_of_entries h]

theorem enter_of_entries (l : Location) : fs'.enter l = fs.enter l := by
  rw [enter, enter, entry?_of_entries h]

theorem placeAt_of_entries (l : Location) : fs'.placeAt l = fs.placeAt l := by
  rw [placeAt, placeAt, entry?_of_entries h]

theorem walk_of_entries (purpose : Purpose) (links : Nat) (slash : Bool) (here : Location)
    (names : List Name) :
    fs'.walk purpose links slash here names = fs.walk purpose links slash here names := by
  -- Both walks see the same entries, so they go the same way in each case.
  fun_induction walk fs purpose links slash here names <;>
    rw [walk] <;>
    simp only [enter_of_entries h, node?_of_entries h, placeAt_of_entries h] <;>
    grind

theorem locate_of_entries {p : Path} (hp : p.isAbsolute = true) (purpose : Purpose) :
    fs'.locate purpose p = fs.locate purpose p := by
  have horigin : fs'.origin p = fs.origin p := by
    rw [origin, origin, if_pos hp, if_pos hp]
  rw [locate_eq, locate_eq, walk_of_entries h, horigin]

theorem resolve_of_entries {p : Path} (hp : p.isAbsolute = true) :
    fs'.resolve p = fs.resolve p := by
  rw [resolve, resolve, locate_of_entries h hp]

theorem lookup?_of_entries {p : Path} (hp : p.isAbsolute = true) :
    fs'.lookup? p = fs.lookup? p := by
  rw [lookup?, lookup?, resolve_of_entries h hp]
  simp only [entry?_of_entries h]

theorem pathExists_of_entries {p : Path} (hp : p.isAbsolute = true) :
    fs'.pathExists p = fs.pathExists p := by
  rw [pathExists, pathExists, lookup?_of_entries h hp]

theorem isFile_of_entries {p : Path} (hp : p.isAbsolute = true) : fs'.isFile p = fs.isFile p := by
  rw [isFile, isFile, lookup?_of_entries h hp]

theorem isDirectory_of_entries {p : Path} (hp : p.isAbsolute = true) :
    fs'.isDirectory p = fs.isDirectory p := by
  rw [isDirectory, isDirectory, lookup?_of_entries h hp]

theorem read_of_entries {p : Path} (hp : p.isAbsolute = true) : fs'.read p = fs.read p := by
  rw [read, read, resolve_of_entries h hp]
  simp only [entry?_of_entries h]

end

/-! ## How the path is written -/

theorem exists_resolve_of_isFile {p : Path} (h : fs.isFile p = true) :
    ∃ l, fs.resolve p = .ok l := by
  rw [isFile, lookup?] at h
  cases hresolve : fs.resolve p with
  | ok l => exact ⟨l, rfl⟩
  | error e => simp [hresolve] at h

/-- Two ways of writing the path of a file are the same to whoever reads it. -/
theorem read_eq_of_components {p q : Path} (hp : fs.isFile p = true) (hq : fs.isFile q = true)
    (h : p.components = q.components) : fs.read p = fs.read q := by
  obtain ⟨l, hl⟩ := exists_resolve_of_isFile hp
  obtain ⟨m, hm⟩ := exists_resolve_of_isFile hq
  obtain rfl := resolve_unique hl hm h
  rw [read, read, hl, hm]

end FileSystem
end Freshness
