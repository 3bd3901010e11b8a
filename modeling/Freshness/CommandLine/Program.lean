import Freshness.ClassFile.References
import Freshness.CommandLine.Arguments

/-!
# The program

What the program writes and how it ends, from its arguments and the file system.
-/

namespace Freshness
namespace CommandLine

/-- What the program writes, and the code with which it ends. -/
structure Output where
  code : Nat
  standard : String := ""
  diagnostic : String := ""
deriving DecidableEq, Repr

/-- The working directory as a path. -/
def currentPath (fs : FileSystem) : Path :=
  if fs.workingDirectory.names = [] then ⟨[Path.separator]⟩
  else ⟨fs.workingDirectory.names.reverse.flatMap (Path.separator :: ·)⟩

/-- The configuration to use, and the directory its paths are relative to. -/
def configuration (fs : FileSystem) (cwd : Path) (explicit : Option Path) :
    Except ConfigError (Configuration × Path) :=
  match (explicit.map cwd.join).or (Configuration.find? fs cwd) with
  | none => .ok ({}, cwd)
  | some p => do return (← Configuration.load fs p, p.parent?.getD cwd)

/-- The places where the configuration to use may be. -/
def configurationPaths (cwd : Path) (g : Given) : List Path :=
  match g.config with
  | some p => [cwd.join p]
  | none => Configuration.candidates cwd

/-- The values that the arguments give in place of the configured ones. -/
def overrides (cwd : Path) (g : Given) : Overrides where
  sourceRoots := g.srcdir.map cwd.join
  outputRoots := g.destdir.map cwd.join
  cacheRoot := g.cache.map cwd.join
  closure := if .closure ∈ g.flags then some true else none
  dump := if .dump ∈ g.flags then some true else none
  classpath := g.classpath.map cwd.join

/-- The settings that the arguments and the configuration ask for, before they are
checked. -/
def requested (fs : FileSystem) (cwd : Path) (g : Given) : Except ConfigError Settings := do
  let (c, base) ← configuration fs cwd g.config
  return Settings.merge c (overrides cwd g) base

/-- The settings that the arguments and the configuration ask for in the directory `cwd`. -/
def settings (fs : FileSystem) (cwd : Path) (g : Given) : Except ConfigError Settings := do
  let (c, base) ← configuration fs cwd g.config
  Settings.resolve fs c (overrides cwd g) base

/-- The output of a program that fails. -/
def failed (message : String) : Output where
  code := 1
  diagnostic := s!"error: {message}\n"

/-- The warnings for the deletions that failed. -/
def warnings (failures : List RemovalFailure) : String :=
  String.join (failures.map fun failure =>
    s!"warning: could not delete {failure.path.display}: {failure.error.message}\n")

/-- The output after artifacts were deleted. -/
def pruned (g : Given) (summary : RunSummary) (milliseconds : Nat) : Output where
  code := if .strict ∈ g.flags ∧ summary.failures ≠ [] then 1 else 0
  standard := (summary.dump.map fun d => Report.dump (g.format.getD .text) d ++ "\n").getD ""
  diagnostic := warnings summary.failures
    ++ if .quiet ∈ g.flags then "" else Report.deletedLine summary milliseconds ++ "\n"

/-- The output of a report. -/
def reported (g : Given) (summary : RunSummary) (milliseconds : Nat) : Output where
  code := 0
  standard := Report.status (g.format.getD .text) summary milliseconds

/-- Runs with the settings that the arguments ask for, and writes about it. -/
def runWith (dryRun : Bool) (write : Given → RunSummary → Nat → Output) (g : Given)
    (fs : FileSystem) : (Nat → Output) × FileSystem :=
  match settings fs (currentPath fs) g with
  | .error e => (fun _ => failed e.message, fs)
  | .ok settings =>
      match Run.run dryRun settings ClassFile.references none fs with
      | (.error e, done) =>
          (fun _ => failed (e.message ClassFile.ReadError.message), done.fileSystem)
      | (.ok summary, done) => (write g summary, done.fileSystem)

/-- The version of the program. -/
def versionText : String := "classprune 0.1.0\n"

/-- How the program is used. -/
def usageText : String :=
  "Usage: classprune [-q | -v] [--config PATH] <prune | status> [--srcdir DIR]..."
    ++ " [--destdir DIR]... [--cache DIR] [--closure] [--dump] [--classpath PATH]..."
    ++ " [-f <text | json>] [--strict]\n"

/-- Runs the program.  What it writes depends on the milliseconds that it took. -/
def program (arguments : List String) (fs : FileSystem) : (Nat → Output) × FileSystem :=
  match request? arguments with
  | none => (fun _ => { code := 2, diagnostic := usageText }, fs)
  | some .version => (fun _ => { code := 0, standard := versionText }, fs)
  | some .help => (fun _ => { code := 0, standard := usageText }, fs)
  | some (.prune g) => runWith false pruned g fs
  | some (.status g) => runWith true reported g fs

end CommandLine
end Freshness
