import Freshness.Classpath
import Freshness.Proofs.Library

/-!
# Answers of a classpath

Reading the names of an archive changes the state of a classpath, but not what it
answers.  What it answers is never a directory.
-/

namespace Freshness

namespace ClasspathEntry

/-- A place with its names, read or not. -/
def opened (fs : FileSystem) : ClasspathEntry → ClasspathEntry
  | directory p => directory p
  | archive p names => archive p (some (names.getD (archiveNames fs p)))

theorem fst_lookup_opened (fs : FileSystem) (name : String) (entry : ClasspathEntry) :
    ((entry.opened fs).lookup fs name).1 = (entry.lookup fs name).1 := by
  cases entry <;> rfl

theorem opened_snd_lookup (fs : FileSystem) (name : String) (entry : ClasspathEntry) :
    (entry.lookup fs name).2.opened fs = entry.opened fs := by
  cases entry <;> rfl

theorem isDirectory_eq_false_of_isFile {fs : FileSystem} {p : Path} (h : fs.isFile p = true) :
    fs.isDirectory p = false := by
  unfold FileSystem.isFile at h
  unfold FileSystem.isDirectory
  split at h
  next hlookup => rw [hlookup]
  next => cases h

/-- What a place supplies is no directory if the place was one of the paths. -/
theorem isDirectory_of_lookup {fs : FileSystem} {p library : Path} {name : String}
    {entry : ClasspathEntry} (hentry : ofPath? fs p = some entry)
    (h : (entry.lookup fs name).1 = some library) : fs.isDirectory library = false := by
  unfold ofPath? at hentry
  split at hentry
  next =>
    cases hentry
    simp only [lookup] at h
    split at h
    next hfile =>
      cases h
      exact isDirectory_eq_false_of_isFile hfile
    next => cases h
  next hdirectory =>
    split at hentry
    next =>
      cases hentry
      simp only [lookup] at h
      split at h
      next =>
        cases h
        simpa using hdirectory
      next => cases h
    next => cases hentry

end ClasspathEntry

namespace Classpath

theorem fst_lookupFirst (fs : FileSystem) (name : String) (entries : List ClasspathEntry) :
    (lookupFirst fs name entries).1 =
      entries.findSome? fun entry => (entry.lookup fs name).1 := by
  induction entries with
  | nil => rfl
  | cons entry rest ih =>
      rw [lookupFirst, List.findSome?_cons]
      split
      next heq => rw [heq]
      next heq => rw [heq, ih]

theorem opened_snd_lookupFirst (fs : FileSystem) (name : String)
    (entries : List ClasspathEntry) :
    (lookupFirst fs name entries).2.map (·.opened fs) = entries.map (·.opened fs) := by
  induction entries with
  | nil => rfl
  | cons entry rest ih =>
      have hopened := ClasspathEntry.opened_snd_lookup fs name entry
      rw [lookupFirst]
      split
      next heq =>
        rw [heq] at hopened
        rw [List.map_cons, List.map_cons, hopened]
      next heq =>
        rw [heq] at hopened
        rw [List.map_cons, List.map_cons, hopened, ih]

theorem fst_lookupFirst_congr (fs : FileSystem) (name : String)
    {entries entries' : List ClasspathEntry}
    (h : entries.map (·.opened fs) = entries'.map (·.opened fs)) :
    (lookupFirst fs name entries).1 = (lookupFirst fs name entries').1 := by
  have hopened : ∀ entries : List ClasspathEntry, (lookupFirst fs name entries).1 =
      (entries.map (·.opened fs)).findSome? fun entry => (entry.lookup fs name).1 := by
    intro entries
    rw [fst_lookupFirst, List.findSome?_map]
    simp only [Function.comp_def, ClasspathEntry.fst_lookup_opened]
  rw [hopened, hopened, h]

/-- The library that a classpath answers for a symbol. -/
def answer (fs : FileSystem) (classpath : Classpath) (symbol : Identity) : Option Path :=
  (resolve fs symbol classpath).1

/-- A classpath answers the same whatever names it has read. -/
theorem gives_resolve (fs : FileSystem) (classpath : Classpath) :
    Library.Gives (resolve fs) (answer fs classpath) fun state =>
      state.entries.map (·.opened fs) = classpath.entries.map (·.opened fs) := by
  intro symbol state hstate
  constructor
  · exact fst_lookupFirst_congr fs (entryName symbol) hstate
  · exact (opened_snd_lookupFirst fs (entryName symbol) state.entries).trans hstate

/-- One of the places supplies what a classpath answers. -/
theorem exists_mem_of_answer {fs : FileSystem} {classpath : Classpath} {symbol : Identity}
    {library : Path} (h : answer fs classpath symbol = some library) :
    ∃ entry ∈ classpath.entries, (entry.lookup fs (entryName symbol)).1 = some library := by
  have hfound : classpath.entries.findSome?
      (fun entry => (entry.lookup fs (entryName symbol)).1) = some library := by
    rw [← fst_lookupFirst]
    exact h
  exact List.exists_of_findSome?_eq_some hfound

theorem isDirectory_of_answer {fs : FileSystem} {paths : List Path} {symbol : Identity}
    {library : Path} (h : answer fs (ofPaths fs paths) symbol = some library) :
    fs.isDirectory library = false := by
  obtain ⟨entry, hmem, hlookup⟩ := exists_mem_of_answer h
  obtain ⟨p, -, hentry⟩ := List.mem_filterMap.mp hmem
  exact ClasspathEntry.isDirectory_of_lookup hentry hlookup

end Classpath
end Freshness
