import Freshness.Report

/-!
# Arguments

A command line names one of two commands.  Flags and options may stand in any order, short
ones may be joined, and a value may be attached to its option.  Each may be given once,
except for the options that list directories.
-/

namespace Freshness
namespace CommandLine

/-- Where an argument stands: before the command, or after it. -/
inductive Level
  | top
  | prune
  | status
deriving DecidableEq, Repr

/-- An argument that takes no value. -/
inductive Flag
  | quiet
  | verbose
  | closure
  | dump
  | strict
  | version
  | help
deriving DecidableEq, Repr

/-- An argument that takes a value. -/
inductive Setting
  | config
  | srcdir
  | destdir
  | cache
  | classpath
  | format
deriving DecidableEq, Repr

/-- What the arguments of one level ask for. -/
structure Given where
  flags : List Flag := []
  config : Option Path := none
  srcdir : List Path := []
  destdir : List Path := []
  cache : Option Path := none
  classpath : List Path := []
  format : Option ReportFormat := none
deriving Inhabited, Repr

/-- What a command line asks for. -/
inductive Request
  | version
  | help
  | prune (given : Given)
  | status (given : Given)

/-- Why reading the arguments stops before their end. -/
inductive Stop
  | version
  | help
  | usage
deriving DecidableEq, Repr

/-- A flag or an option. -/
inductive Argument
  | flag (flag : Flag)
  | setting (setting : Setting)

/-- The arguments that a level knows, by their long and short names. -/
def known : Level → List (String × Option Char × Argument)
  | .top => shared ++ [("version", some 'V', .flag .version)]
  | .prune => shared ++ common ++ [("strict", none, .flag .strict)]
  | .status => shared ++ common
where
  shared : List (String × Option Char × Argument) :=
    [("quiet", some 'q', .flag .quiet), ("verbose", some 'v', .flag .verbose),
      ("config", none, .setting .config), ("help", some 'h', .flag .help)]
  common : List (String × Option Char × Argument) :=
    [("srcdir", none, .setting .srcdir), ("destdir", none, .setting .destdir),
      ("cache", none, .setting .cache), ("closure", none, .flag .closure),
      ("dump", none, .flag .dump), ("classpath", none, .setting .classpath),
      ("format", some 'f', .setting .format)]

/-- The argument with a long name. -/
def byLongName? (level : Level) (name : String) : Option Argument :=
  ((known level).find? (·.1 = name)).map (·.2.2)

/-- The argument with a short name. -/
def byShortName? (level : Level) (name : Char) : Option Argument :=
  ((known level).find? (·.2.1 = some name)).map (·.2.2)

/-- Takes a flag into account. -/
def Given.addFlag (g : Given) (flag : Flag) : Except Stop Given :=
  match flag with
  | .version => .error .version
  | .help => .error .help
  | flag =>
      if flag ∈ g.flags then .error .usage else .ok { g with flags := g.flags ++ [flag] }

/-- Sets a value that must not be set twice. -/
def setOnce {α : Type} (value : α) : Option α → Except Stop (Option α)
  | none => .ok (some value)
  | some _ => .error .usage

/-- The format with a name. -/
def format? : String → Option ReportFormat
  | "text" => some .text
  | "json" => some .json
  | _ => none

/-- Takes the value of an option into account. -/
def Given.addSetting (g : Given) (setting : Setting) (value : String) : Except Stop Given :=
  if value = "" then .error .usage
  else
    let path := Path.ofString value
    match setting with
    | .config => do return { g with config := ← setOnce path g.config }
    | .cache => do return { g with cache := ← setOnce path g.cache }
    | .srcdir => .ok { g with srcdir := g.srcdir ++ [path] }
    | .destdir => .ok { g with destdir := g.destdir ++ [path] }
    | .classpath => .ok { g with classpath := g.classpath ++ [path] }
    | .format =>
        match format? value with
        | none => .error .usage
        | some format => do return { g with format := ← setOnce format g.format }

/-- Takes an argument with a long name into account.  The second result is the option
whose value is the next argument, if there is one. -/
def Given.addLong (level : Level) (g : Given) (name : String) (value : Option String) :
    Except Stop (Given × Option Setting) :=
  match byLongName? level name, value with
  | some (.flag flag), none => do return (← g.addFlag flag, none)
  | some (.setting setting), none => .ok (g, some setting)
  | some (.setting setting), some value => do return (← g.addSetting setting value, none)
  | _, _ => .error .usage

/-- Takes joined arguments with short names into account. -/
def Given.addShort (level : Level) (g : Given) : List Char →
    Except Stop (Given × Option Setting)
  | [] => .ok (g, none)
  | name :: rest =>
      match byShortName? level name with
      | none => .error .usage
      | some (.flag flag) => do (← g.addFlag flag).addShort level rest
      | some (.setting setting) =>
          match rest with
          | [] => .ok (g, some setting)
          | '=' :: value => do return (← g.addSetting setting (String.ofList value), none)
          | value => do return (← g.addSetting setting (String.ofList value), none)

/-- The name and the attached value of an argument with a long name. -/
def splitLong (letters : List Char) : String × Option String :=
  let name := letters.takeWhile (· ≠ '=')
  (String.ofList name,
    if name = letters then none else some (String.ofList (letters.drop (name.length + 1))))

/-- What an argument looks like. -/
inductive Shape
  | long (name : String) (value : Option String)
  | short (names : List Char)
  /-- Two hyphens: nothing after them is a flag or an option. -/
  | escape
  | plain

/-- What an argument looks like. -/
def shape (argument : String) : Shape :=
  match argument.toList with
  | ['-', '-'] => .escape
  | '-' :: '-' :: letters => let (name, value) := splitLong letters; .long name value
  | ['-'] => .plain
  | '-' :: names => .short names
  | _ => .plain

/-- Reads the arguments of a level.  `pending` is the option whose value comes next.  At
the top a command ends the reading, and the arguments after it are left. -/
def readLevel (level : Level) (g : Given) (pending : Option Setting) :
    List String → Except Stop (Given × List String)
  | [] => if pending.isNone then .ok (g, []) else .error .usage
  | argument :: rest =>
      match shape argument, pending with
      | .long name value, none => do
          let (g, pending) ← g.addLong level name value
          readLevel level g pending rest
      | .short names, none => do
          let (g, pending) ← g.addShort level names
          readLevel level g pending rest
      | .plain, some setting => do
          readLevel level (← g.addSetting setting argument) none rest
      | .plain, none => if level = .top then .ok (g, argument :: rest) else .error .usage
      | .escape, none => if rest = [] then .ok (g, []) else .error .usage
      | _, some _ => .error .usage

/-- Flags that exclude each other. -/
def Given.check (g : Given) : Except Stop Unit :=
  if .quiet ∈ g.flags ∧ .verbose ∈ g.flags then .error .usage else .ok ()

/-- What two levels ask for together; the inner one comes first. -/
def Given.within (inner outer : Given) : Given :=
  { inner with flags := inner.flags ++ outer.flags, config := inner.config.or outer.config }

/-- The command with a name. -/
def command? : String → Option Level
  | "prune" => some .prune
  | "status" => some .status
  | _ => none

/-- Reads the arguments of a command. -/
def readCommand (outer : Given) (level : Level) (arguments : List String) :
    Except Stop Given := do
  let (inner, _) ← readLevel level {} none arguments
  inner.check
  outer.check
  return inner.within outer

/-- What `help` with the given arguments asks for. -/
def helpFor : List String → Stop
  | [] => .help
  | [name] => if (command? name).isSome ∨ name = "help" then .help else .usage
  | _ => .usage

/-- Reads a command line. -/
def read (arguments : List String) : Except Stop Request := do
  let (outer, rest) ← readLevel .top {} none arguments
  match rest with
  | [] => throw .usage
  | name :: rest =>
      match command? name with
      | some .prune => return .prune (← readCommand outer .prune rest)
      | some level => return .status (← readCommand outer level rest)
      | none => throw (if name = "help" then helpFor rest else .usage)

/-- What a command line asks for, if it can be understood. -/
def request? (arguments : List String) : Option Request :=
  match read arguments with
  | .ok request => some request
  | .error .version => some .version
  | .error .help => some .help
  | .error .usage => none

end CommandLine
end Freshness
