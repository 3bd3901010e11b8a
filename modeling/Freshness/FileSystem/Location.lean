import Freshness.Path.Ancestors

/-!
# Locations

A location is where an entry is in a tree: the names that lead to it from the root
directory.  They are kept with the last one first, so that the entries of one directory
share all but a name, and with their number, so that locations of different depth are told
apart at once.  The order of locations is a linear one, which tables of entries rely on.
-/

namespace Freshness

/-- Where an entry is in a tree. -/
structure Location where
  /-- The names that lead to the entry from the root directory, the last one first. -/
  names : List Name
  /-- How many names there are. -/
  depth : Nat
  depth_eq : depth = names.length
deriving DecidableEq, Repr

namespace Location

/-- The root directory. -/
def root : Location := ⟨[], 0, rfl⟩

/-- The entry with the given name in the directory `l`. -/
def child (l : Location) (name : Name) : Location :=
  ⟨name :: l.names, l.depth + 1, by simp [l.depth_eq]⟩

/-- Where the given names, the last one last, lead from the root directory. -/
def ofNames (names : List Name) : Location := names.foldl child root

/-- The directory that holds a location; the root directory holds itself. -/
def holder (l : Location) : Location :=
  match l with
  | ⟨[], _, _⟩ => root
  | ⟨_ :: names, depth, h⟩ => ⟨names, depth - 1, by simp [h]⟩

/-- The names that lead from `base` to `l`, the last one last. -/
def below? (base l : Location) : Option (List Name) :=
  let count := l.depth - base.depth
  if l.names.drop count = base.names then some (l.names.take count).reverse else none

/-- Locations are compared by depth, then by their last names, and so on to the first. -/
instance : Ord Location := ⟨compareLex (compareOn depth) (compareOn names)⟩

theorem eq_of_names_eq {l m : Location} (h : l.names = m.names) : l = m := by
  obtain ⟨_, _, hl⟩ := l
  obtain ⟨_, _, hm⟩ := m
  subst h hl hm
  rfl

instance : Std.TransOrd Location :=
  inferInstanceAs (Std.TransCmp (compareLex (compareOn depth) (compareOn names)))

instance : Std.LawfulEqOrd Location where
  eq_of_compare {l m} h := by
    have h : compareLex (compareOn depth) (compareOn names) l m = .eq := h
    simp [compareLex, compareOn] at h
    exact eq_of_names_eq h.2

end Location
end Freshness
