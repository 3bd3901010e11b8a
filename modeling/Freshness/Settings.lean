import Freshness.Configuration

/-!
# Settings

The settings of a run come from a configuration and from values that override it.
Configured paths are relative to the directory of the configuration; overriding paths are
taken as they are.
-/

namespace Freshness

/-- Values that come before the configured ones. -/
structure Overrides where
  sourceRoots : List Path := []
  outputRoots : List Path := []
  cacheRoot : Option Path := none
  closure : Option Bool := none
  dump : Option Bool := none
  classpath : List Path := []
deriving DecidableEq, Inhabited, Repr

/-- What a run works on and how. -/
structure Settings where
  sourceRoots : List Path
  outputRoots : List Path := sourceRoots
  cacheRoot : Option Path := none
  closure : Bool := false
  dump : Bool := false
  classpath : List Path := []
  platform : List String := Identity.platformBeginnings
deriving DecidableEq, Inhabited, Repr

namespace Settings

/-- The first list, or the second if the first is empty. -/
def orElse (overriding configured : List Path) : List Path :=
  if overriding.isEmpty then configured else overriding

/-- The cache root, if any, may be missing but must not be anything but a directory. -/
def checkCacheRoot (fs : FileSystem) : Option Path → Except ConfigError Unit
  | none => .ok ()
  | some root =>
      if fs.pathExists root && !fs.isDirectory root then .error (.cacheRootNotDirectory root)
      else .ok ()

/-- The source roots must be directories, and there must be one. -/
def checkSourceRoots (fs : FileSystem) (roots : List Path) : Except ConfigError Unit :=
  if roots.isEmpty then .error (.missingField "source_roots")
  else
    match roots.find? (!fs.isDirectory ·) with
    | some root => .error (.sourceRootMissing root)
    | none => .ok ()

/-- The settings that a configuration found in the directory `base` and the overriding
values describe together. -/
def merge (c : Configuration) (o : Overrides) (base : Path) : Settings :=
  let sourceRoots := orElse o.sourceRoots (c.sourceRoots.map base.join)
  { sourceRoots
    outputRoots := orElse (orElse o.outputRoots (c.outputRoots.map base.join)) sourceRoots
    cacheRoot := o.cacheRoot.or (c.cacheRoot.map base.join)
    closure := o.closure.getD c.closure
    dump := o.dump.getD c.dump
    classpath := orElse o.classpath (c.classpath.map base.join)
    platform := c.platform.getD Identity.platformBeginnings }

/-- An error if a run cannot work with the settings. -/
def check (fs : FileSystem) (settings : Settings) : Except ConfigError Unit := do
  checkSourceRoots fs settings.sourceRoots
  checkCacheRoot fs settings.cacheRoot

/-- The settings that `merge` gives, if a run can work with them. -/
def resolve (fs : FileSystem) (c : Configuration) (o : Overrides) (base : Path) :
    Except ConfigError Settings := do
  (merge c o base).check fs
  return merge c o base

end Settings
end Freshness
