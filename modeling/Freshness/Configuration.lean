import Freshness.FileSystem.Lookup
import Freshness.Identity
import Freshness.Toml

/-!
# Configuration files
-/

namespace Freshness

/-- What a configuration file says. -/
structure Configuration where
  sourceRoots : List Path := []
  outputRoots : List Path := []
  cacheRoot : Option Path := none
  closure : Bool := false
  dump : Bool := false
  classpath : List Path := []
  /-- The beginnings of names that belong to the platform. -/
  platform : Option (List String) := none
deriving DecidableEq, Inhabited, Repr

/-- Why there is no configuration or why it is of no use. -/
inductive ConfigError
  | unreadable (source : OsError)
  | notText
  | malformed
  | missingField (name : String)
  | sourceRootMissing (root : Path)
  | cacheRootNotDirectory (root : Path)
deriving DecidableEq, Repr

namespace ConfigError

/-- The wording of an error; what exactly is malformed is not said. -/
def message : ConfigError → String
  | unreadable source => s!"failed to read configuration: {source.message}"
  | notText => "failed to read configuration: stream did not contain valid UTF-8"
  | malformed => "failed to parse configuration: "
  | missingField name => s!"missing required field: {name}"
  | sourceRootMissing root =>
      s!"source root {root.display} does not exist or is not a directory"
  | cacheRootNotDirectory root => s!"cache root {root.display} exists but is not a directory"

end ConfigError

namespace Configuration

/-- The configuration with the value of one key set, if there is such a key and it takes
values of that type. -/
def set? (c : Configuration) : String × Toml.Value → Option Configuration
  | ("source_roots", .texts roots) => some { c with sourceRoots := roots.map Path.ofString }
  | ("output_roots", .texts roots) => some { c with outputRoots := roots.map Path.ofString }
  | ("cache_root", .text root) => some { c with cacheRoot := some (Path.ofString root) }
  | ("closure", .flag value) => some { c with closure := value }
  | ("dump", .flag value) => some { c with dump := value }
  | ("classpath", .texts paths) => some { c with classpath := paths.map Path.ofString }
  | ("platform_prefixes", .texts beginnings) => some { c with platform := some beginnings }
  | _ => none

/-- The configuration that a text spells. -/
def parse? (text : String) : Option Configuration := do
  (← Toml.read? text).foldlM set? {}

/-- The configuration that a text spells. -/
def parse (text : String) : Except ConfigError Configuration :=
  match parse? text with
  | some c => .ok c
  | none => .error .malformed

/-- The configuration in the file at `p`. -/
def load (fs : FileSystem) (p : Path) : Except ConfigError Configuration :=
  match fs.read p with
  | .error e => .error (.unreadable e)
  | .ok content =>
      match Utf8.decode? content with
      | none => .error .notText
      | some text => parse text

/-- The name of configuration files. -/
def fileName : Name := Utf8.encode "classprune.toml"

/-- The places for a configuration file in `start` and in the directories above it. -/
def candidates (start : Path) : List Path := start.ancestors.map (·.child fileName)

/-- The configuration file nearest to `start`, in it or in a directory above it. -/
def find? (fs : FileSystem) (start : Path) : Option Path :=
  let p := start.child fileName
  if fs.isFile p then some p
  else
    match _h : start.parent? with
    | none => none
    | some q => find? fs q
termination_by start.bytes.length
decreasing_by exact Path.length_parent?_lt _h

theorem find?_eq_find?_candidates (fs : FileSystem) (start : Path) :
    find? fs start = (candidates start).find? fs.isFile := by
  fun_induction find? fs start with
  | case1 start p h =>
      unfold candidates Path.ancestors
      split <;> simp [p] at h ⊢ <;> simp [h]
  | case2 start p h hparent =>
      unfold candidates Path.ancestors
      split <;> simp_all [p]
  | case3 start p h q hparent ih =>
      rw [ih]
      conv => rhs; unfold candidates Path.ancestors
      split <;> simp_all [p, candidates]

end Configuration
end Freshness
