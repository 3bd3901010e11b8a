import Std.Data.TreeMap
import Freshness.Path.Basic

/-!
# Sets of paths

Paths with the same components count as one.  The set keeps the path that was inserted
first, and lists its paths in the order of their components.
-/

namespace Freshness

/-- A set of paths. -/
structure PathSet where
  byKey : Std.TreeMap (List Name) Path := {}

namespace PathSet

/-- The set with `p` in it. -/
def insert (s : PathSet) (p : Path) : PathSet := ⟨s.byKey.insertIfNew p.key p⟩

/-- A path with the components of `p` is in the set. -/
def contains (s : PathSet) (p : Path) : Bool := s.byKey.contains p.key

/-- There is no path in the set. -/
def isEmpty (s : PathSet) : Bool := s.byKey.isEmpty

/-- The paths in the set, in order. -/
def toList (s : PathSet) : List Path := s.byKey.values

end PathSet
end Freshness
