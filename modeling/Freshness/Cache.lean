import Freshness.CompiledUnit
import Freshness.FileSystem.Change
import Freshness.Text.Lines

/-!
# The cache of references

The references of a unit are kept in a file of their own, one to a line.  The file counts
only while it is newer than the unit's artifact, so a unit that is compiled again is read
again.
-/

namespace Freshness

/-- Why references could not be kept. -/
structure CacheError where
  path : Path
  source : OsError
deriving DecidableEq, Repr

namespace CacheError

/-- The wording of an error. -/
def message (e : CacheError) : String :=
  s!"cache I/O error at {e.path.display}: {e.source.message}"

end CacheError

/-- A directory in which references are kept. -/
structure Cache where
  root : Path
deriving DecidableEq, Repr

namespace Cache

/-- The file that holds the references of a unit. -/
def entryPath (cache : Cache) (unit : CompiledUnit) : Path :=
  (cache.root.join unit.relative).append ".dep"

/-- The file in which an entry is written before it takes its place. -/
def temporaryPath (cache : Cache) (unit : CompiledUnit) : Path :=
  (cache.entryPath unit).append ".tmp"

/-- The references kept for a unit, if they count. -/
def get (cache : Cache) (fs : FileSystem) (unit : CompiledUnit) : Option (List String) :=
  let entry := cache.entryPath unit
  if fs.isNewer entry unit.absolute then
    match fs.read entry with
    | .error _ => none
    | .ok content => (Utf8.decode? content).map Lines.nonempty
  else none

/-- Keeps the references of a unit in place of those kept before. -/
def put (cache : Cache) (fs : FileSystem) (unit : CompiledUnit) (symbols : List String) :
    Except CacheError Unit × FileSystem :=
  let entry := cache.entryPath unit
  let temporary := cache.temporaryPath unit
  let parent := entry.parent?.getD ⟨[]⟩
  match fs.createDirectories parent with
  | (.error e, fs) => (.error ⟨parent, e⟩, fs)
  | (.ok (), fs) =>
      match fs.write temporary (Utf8.encode (Lines.ofList symbols)) with
      | .error e => (.error ⟨temporary, e⟩, fs)
      | .ok fs =>
          match fs.move temporary entry with
          | .error e => (.error ⟨entry, e⟩, (fs.delete temporary).toOption.getD fs)
          | .ok fs => (.ok (), fs)

end Cache
end Freshness
