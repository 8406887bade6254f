import EventSeal.Mode

/-!
# Command lines

A command line is read in two levels. The outer one ends at the name of a
subcommand, the inner one takes the rest. Both accept the settings, which
hold for the whole command; an inner setting wins over an outer one, and
either over the environment.

A level is described by its `Shape`. Reading keeps options, flags and
words apart and refuses whatever the shape does not admit: unknown names,
repetitions, missing values, a word too many. After `--` everything is a
word.

Requests for help are not among the command lines that are read here. The
program answers `--help`, `-h` and `help` with a text of its own at either
level; here the first two are names that no level knows and the third is no
command, and `role -h` asks for the rank `-h`.
-/

namespace EventSeal.CommandLine

/-! ## Levels -/

structure Shape where
  flags : List String
  /-- names that take a value -/
  options : List String
  /-- how many words at most -/
  words : Nat
  /-- whether a word may begin with a hyphen, if it is not a known name -/
  hyphened : Bool

/-- What a level holds, in reading order. -/
structure Given where
  flags : List String
  options : List (String × String)
  words : List String
deriving DecidableEq

namespace Given

def none : Given := ⟨[], [], []⟩

def option? (g : Given) (name : String) : Option String :=
  g.options.lookup name

def has (g : Given) (flag : String) : Bool :=
  g.flags.contains flag

/-- The first word. -/
def word? (g : Given) : Option String :=
  g.words.head?

end Given

/-- How an argument looks. -/
inductive Look
  /-- `--` -/
  | escape
  /-- `--name` or `--name=value` -/
  | long (name : String) (value : Option String)
  /-- another word that begins with a hyphen; there are no short names -/
  | hyphened
  | word
deriving DecidableEq

def Look.of (arg : String) : Look :=
  match arg.toList with
  | ['-', '-'] => .escape
  | '-' :: '-' :: cs =>
      let name := String.ofList (cs.takeWhile (· != '='))
      match cs.dropWhile (· != '=') with
      | [] => .long name none
      | _ :: value => .long name (some (String.ofList value))
  | '-' :: _ :: _ => .hyphened
  | _ => .word

/-- Where the reading of a level stands. -/
structure Progress where
  given : Given
  /-- the option whose value comes next -/
  awaiting : Option String
  /-- after `--` -/
  literal : Bool

namespace Progress

def start : Progress := ⟨.none, none, false⟩

def addWord? (shape : Shape) (p : Progress) (arg : String) : Option Progress :=
  if p.awaiting = none ∧ p.given.words.length < shape.words then
    some { p with given := { p.given with words := p.given.words ++ [arg] } }
  else none

def addFlag? (p : Progress) (name : String) : Option Progress :=
  if p.given.has name then none
  else some { p with given := { p.given with flags := p.given.flags ++ [name] } }

def addOption? (p : Progress) (name value : String) : Option Progress :=
  if (p.given.option? name).isSome then none
  else some {
    given := { p.given with options := p.given.options ++ [(name, value)] }
    awaiting := none
    literal := p.literal }

/-- An argument that is no name: the value that is awaited, or a word. -/
def addPlain? (shape : Shape) (p : Progress) (arg : String) : Option Progress :=
  match p.awaiting with
  | some name => p.addOption? name arg
  | none => p.addWord? shape arg

/-- An argument that begins with a hyphen and is no name of the level. -/
def addHyphened? (shape : Shape) (p : Progress) (arg : String) : Option Progress :=
  if shape.hyphened ∧ p.given.words.length < shape.words then p.addPlain? shape arg else none

/-- An argument of the form of a name. Nothing can be awaited before a name. -/
def addLong? (shape : Shape) (p : Progress) (arg name : String) (value : Option String) :
    Option Progress :=
  if name ∈ shape.flags then
    if p.awaiting = none ∧ value = none then p.addFlag? name else none
  else if name ∈ shape.options then
    if p.awaiting = none then
      match value with
      | some v => p.addOption? name v
      | none =>
          if (p.given.option? name).isSome then none else some { p with awaiting := some name }
    else none
  else p.addHyphened? shape arg

def add? (shape : Shape) (p : Progress) (arg : String) : Option Progress :=
  if p.literal then p.addWord? shape arg
  else match Look.of arg with
    | .escape => if p.awaiting = none then some { p with literal := true } else none
    | .long name value => p.addLong? shape arg name value
    | .hyphened => p.addHyphened? shape arg
    | .word => p.addPlain? shape arg

def finish? (p : Progress) : Option Given :=
  if p.awaiting = none then some p.given else none

end Progress

/-- Reads a level that takes all arguments. -/
def readLevel (shape : Shape) (p : Progress) : List String → Option Given
  | [] => p.finish?
  | a :: rest => do
      let q ← p.add? shape a
      readLevel shape q rest

/-- Reads a level up to its first word, and gives that and the rest. -/
def readOuter (shape : Shape) (p : Progress) : List String → Option (Given × String × List String)
  | [] => none
  | a :: rest =>
      if p.literal = false ∧ p.awaiting = none ∧ Look.of a = .word then some (p.given, a, rest)
      else do
        let q ← p.add? shape a
        readOuter shape q rest

/-! ## Settings -/

/-- How log lines are written. -/
inductive LogFormat
  | pretty
  | json
deriving DecidableEq

def LogFormat.ofText? (s : String) : Option LogFormat :=
  if s = "pretty" then some pretty
  else if s = "json" then some json
  else none

structure Settings where
  mode : Mode
  logLevel : String
  logFormat : LogFormat
deriving DecidableEq

/-- Looks up an environment variable. -/
abbrev Environment := String → Option String

def settingNames : List String :=
  ["mode", "log-level", "log-format"]

/-- The environment variable that a setting falls back to. -/
def variableName : String → String
  | "mode" => "EVENTKIT_MODE"
  | "log-level" => "EVENTKIT_LOG"
  | _ => "EVENTKIT_LOG_FORMAT"

/-- A setting as one level sees it. -/
def settingAt (env : Environment) (g : Given) (name : String) : Option String :=
  (g.option? name).or (env (variableName name))

def setting (env : Environment) (outer inner : Given) (name : String) : Option String :=
  ((inner.option? name).or (outer.option? name)).or (env (variableName name))

/-- Each level checks the log format it sees, whether or not it counts. -/
def hasGoodFormat (env : Environment) (g : Given) : Bool :=
  match settingAt env g "log-format" with
  | some s => (LogFormat.ofText? s).isSome
  | none => true

def settings? (env : Environment) (outer inner : Given) : Option Settings :=
  if hasGoodFormat env outer ∧ hasGoodFormat env inner then
    some {
      mode := Mode.ofText ((setting env outer inner "mode").getD "dev")
      logLevel := (setting env outer inner "log-level").getD "warn"
      logFormat := ((setting env outer inner "log-format").bind LogFormat.ofText?).getD .pretty }
  else none

/-! ## Commands -/

inductive Command
  | sign (input : Option String) (stamp pretty : Bool)
  | verify (input : Option String) (strict json : Bool)
  | labels (input : Option String) (json : Bool)
  | canonicalize (input : Option String)
  | inspect (input : Option String)
  | role (rank : String) (json : Bool)
  | mode (value : Option String)
deriving DecidableEq

/-- Where a command that reads events reads them: a file, or standard
input where no file is named. -/
def Command.input? : Command → Option (Option String)
  | .sign input _ _ | .verify input _ _ | .labels input _ | .canonicalize input | .inspect input =>
      some input
  | .role _ _ | .mode _ => none

structure Invocation where
  settings : Settings
  command : Command
deriving DecidableEq

def outerShape : Shape :=
  ⟨[], settingNames, 0, false⟩

def shape? : String → Option Shape
  | "sign" => some ⟨["stamp", "pretty"], settingNames, 1, false⟩
  | "verify" => some ⟨["strict", "json"], settingNames, 1, false⟩
  | "labels" => some ⟨["json"], settingNames, 1, false⟩
  | "canonicalize" => some ⟨[], settingNames, 1, false⟩
  | "inspect" => some ⟨[], settingNames, 1, false⟩
  | "role" => some ⟨["json"], settingNames, 1, true⟩
  | "mode" => some ⟨[], settingNames, 1, false⟩
  | _ => none

def command? (name : String) (g : Given) : Option Command :=
  match name with
  | "sign" => some (.sign g.word? (g.has "stamp") (g.has "pretty"))
  | "verify" => some (.verify g.word? (g.has "strict") (g.has "json"))
  | "labels" => some (.labels g.word? (g.has "json"))
  | "canonicalize" => some (.canonicalize g.word?)
  | "inspect" => some (.inspect g.word?)
  | "role" => g.word?.map fun rank => .role rank (g.has "json")
  | "mode" => some (.mode g.word?)
  | _ => none

/-- What a command line asks for, if it is one. -/
def Invocation.ofArguments? (env : Environment) (args : List String) : Option Invocation := do
  let (outer, name, rest) ← readOuter outerShape .start args
  let shape ← shape? name
  let inner ← readLevel shape .start rest
  let command ← command? name inner
  let settings ← settings? env outer inner
  return ⟨settings, command⟩

/-- What is said of a command line that is none. -/
def usage : String :=
  "usage: eventkit [--mode M] [--log-level L] [--log-format pretty|json] <command>\n"
    ++ "  sign [input] [--stamp] [--pretty]\n"
    ++ "  verify [input] [--strict] [--json]\n"
    ++ "  labels [input] [--json]\n"
    ++ "  canonicalize [input]\n"
    ++ "  inspect [input]\n"
    ++ "  role <rank> [--json]\n"
    ++ "  mode [value]"

end EventSeal.CommandLine
