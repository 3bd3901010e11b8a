import Freshness.Identity

/-!
# Compiled units
-/

namespace Freshness

/-- A class file below an output root. -/
structure CompiledUnit where
  /-- The identity of the class. -/
  id : Identity
  /-- The path of the file. -/
  absolute : Path
  /-- The path of the file below its root, without the extension. -/
  relative : Path
deriving DecidableEq, Inhabited, Repr

namespace CompiledUnit

/-- The unit of the file at `path` below `root`, if it is one by its name. -/
def ofArtifact? (root path : Path) : Option CompiledUnit := do
  let below ← path.relativeTo? root
  let (relative, id) ← Identity.ofRelative? below Identity.compiledExtension
  return ⟨id, path, relative⟩

end CompiledUnit
end Freshness
