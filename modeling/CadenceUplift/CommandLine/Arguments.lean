import CadenceUplift.Number.Whole
import CadenceUplift.Scan.Report

namespace CadenceUplift

/-- The report formats that a scan writes. -/
inductive FormatChoice where
  | one (format : ReportFormat)
  | all
deriving DecidableEq, Repr, Inhabited

/-- What a scan is asked for. -/
structure ScanArguments where
  root : String
  production : Bool := false
  outputDir : Option String := none
  format : FormatChoice := .all
  groupByFile : Bool := false
  noContext : Bool := false
  workers : Option Int := none
deriving DecidableEq, Repr, Inhabited

/-- What a migration of a corpus is asked for. -/
structure MigrateArguments where
  templates : String
  output : Option String := none
  report : Option String := none
  workers : Option Int := none
  noBackup : Bool := false
deriving DecidableEq, Repr, Inhabited

/-- A command and its arguments. -/
inductive Command where
  | scan (args : ScanArguments)
  | migrate (args : MigrateArguments)
  | validate (file : String) (strict : Bool)
  | transform (file : String) (inPlace : Bool)
deriving DecidableEq, Repr, Inhabited

/-- A command with the options of the program. -/
structure Invocation where
  config : Option String := none
  logLevel : Option String := none
  logFile : Option String := none
  command : Command
deriving DecidableEq, Repr, Inhabited

/-- Arguments that ask for no command. -/
inductive UsageStop where
  | help
  | badUsage
deriving DecidableEq, Repr, Inhabited

/-- The exit code of arguments that ask for no command. -/
def UsageStop.exitCode : UsageStop → Nat
  | .help => 0
  | .badUsage => 2

/-- An option: its spelling, and whether a value goes with it. -/
structure OptionSpec where
  spelling : String
  takesValue : Bool := false
deriving DecidableEq, Repr, Inhabited

/-- The short option that asks for help. -/
def helpLetter : String := "-h"

/-- The options that ask for help. -/
def helpOptions : List OptionSpec := [⟨helpLetter, false⟩, ⟨"--help", false⟩]

/-- How an argument reads. -/
inductive Argument where
  /-- A value, or what a command works on. -/
  | plain (text : String)
  | option (spec : OptionSpec) (attached : Option String)
  /-- The letter for help with more letters after it, at once or after an equals sign. -/
  | helpLetters (more : List Char)
  | unknownOption
  /-- Two dashes: everything after them is plain. -/
  | dashes
deriving DecidableEq, Repr, Inhabited

/-- Texts such as `-5` and `-.5`, which are values and not options; a newline may follow them. -/
def isNegativeNumber (s : List Char) : Bool :=
  match s with
  | '-' :: r =>
    let r := if r.getLast? == some '\n' then r.dropLast else r
    let whole := r.takeWhile Text.isDecimal
    match r.dropWhile Text.isDecimal with
    | [] => !whole.isEmpty
    | '.' :: places => !places.isEmpty && places.all Text.isDecimal
    | _ => false
  | _ => false

/-- A text cut at its first equals sign. -/
def cutAtEquals (s : String) : String × Option String :=
  let cs := s.toList
  match cs.dropWhile (· != '=') with
  | _ :: r => (String.ofList (cs.takeWhile (· != '=')), some (String.ofList r))
  | [] => (s, none)

/-- What a text may be short for: long names may be cut, and more letters may follow the letter for
help. -/
def abbreviated (options : List OptionSpec) (s : String) : List Argument :=
  if s.startsWith "--" then
    let (name, attached) := cutAtEquals s
    (options.filter fun o => o.spelling.startsWith name).map fun o => .option o attached
  else
    match s.toList with
    | '-' :: 'h' :: more => [.helpLetters more]
    | _ => []

/-- Reads one argument; none when it is short for several options. -/
def readArgument (options : List OptionSpec) (s : String) : Option Argument :=
  if !s.startsWith "-" || s == "-" then some (.plain s)
  else
    match options.find? (·.spelling == s) with
    | some o => some (.option o none)
    | none =>
      let (name, attached) := cutAtEquals s
      match options.find? fun o => attached.isSome && o.spelling == name with
      | some o =>
        some (if o.spelling == helpLetter then .helpLetters (attached.getD "").toList else .option o attached)
      | none =>
        match abbreviated options s with
        | _ :: _ :: _ => none
        | [a] => some a
        | [] =>
          if isNegativeNumber s.toList || s.toList.contains ' ' then some (.plain s)
          else some .unknownOption

/-- Reads all arguments, those after two dashes as they are. -/
def readArguments (options : List OptionSpec) : List String → Option (List Argument)
  | [] => some []
  | s :: rest =>
    if s == "--" then some (.dashes :: rest.map .plain)
    else do
      let a ← readArgument options s
      return a :: (← readArguments options rest)

def numberArgument? (s : String) : Option Int := (wholeNumber s.toList).toOption

/-- What came of reading arguments: options in order, what the command works on, and whether something
was not understood. -/
structure Collected where
  options : List (String × String) := []
  subject : Option String := none
  extra : Bool := false
deriving Repr, Inhabited

/-- The last value given to an option. -/
def Collected.value? (c : Collected) (name : String) : Option String :=
  c.options.reverse.lookup name

def Collected.has (c : Collected) (name : String) : Bool := c.options.any (·.1 == name)

/-- What the letters after the one for help amount to: each of them must ask for help again. -/
def helpStop (more : List Char) : UsageStop :=
  if !more.isEmpty && more.all (· == 'h') then .help else .badUsage

/-- Takes one option with its value. -/
def takeOption (accepts : String → String → Bool) (spec : OptionSpec) (value : String) (c : Collected) :
    Except UsageStop Collected :=
  if accepts spec.spelling value then .ok { c with options := c.options ++ [(spec.spelling, value)] }
  else .error .badUsage

/-- Collects the arguments of a command that works on one thing; `accepts` says which values an option
may have, and `adjacent` that the thing was just read. -/
def collect (accepts : String → String → Bool) (adjacent : Bool) (c : Collected) :
    List Argument → Except UsageStop Collected
  | [] => .ok c
  | .plain s :: rest =>
    if c.subject.isNone then collect accepts true { c with subject := some s } rest
    else collect accepts false { c with extra := true } rest
  | .dashes :: rest =>
    collect accepts false { c with extra := c.extra || !(adjacent || c.subject.isNone) } rest
  | .unknownOption :: rest => collect accepts false { c with extra := true } rest
  | .option spec (some attached) :: rest =>
    if spec.takesValue then do
      collect accepts false (← takeOption accepts spec attached c) rest
    else .error .badUsage
  | .helpLetters more :: _ => .error (helpStop more)
  | .option spec none :: rest =>
    if helpOptions.contains spec then .error .help
    else if spec.takesValue then
      match rest with
      | .plain value :: rest' => do collect accepts false (← takeOption accepts spec value c) rest'
      | _ => .error .badUsage
    else do collect accepts false (← takeOption accepts spec "" c) rest

/-- Reads the arguments of a command that works on one thing, which must be there. -/
def readCommand (options : List OptionSpec) (accepts : String → String → Bool) (args : List String) :
    Except UsageStop (Collected × String) := do
  let some arguments := readArguments (helpOptions ++ options) args | .error .badUsage
  let c ← collect accepts false {} arguments
  match c.subject with
  | some s => return (c, s)
  | none => .error .badUsage

/-- The number of workers may be any whole number. -/
def acceptsNumber (option value : String) : Bool :=
  option != "--workers" || (numberArgument? value).isSome

/-- The names that choose formats. -/
def FormatChoice.ofName? (name : String) : Option FormatChoice :=
  if name == "all" then some .all else (ReportFormat.ofName? name).map .one

def scanOptions : List OptionSpec := [
  ⟨"--production", false⟩, ⟨"--output-dir", true⟩, ⟨"--format", true⟩,
  ⟨"--group-by-file", false⟩, ⟨"--no-context", false⟩, ⟨"--workers", true⟩]

def migrateOptions : List OptionSpec := [
  ⟨"--output", true⟩, ⟨"--report", true⟩, ⟨"--workers", true⟩, ⟨"--no-backup", false⟩]

/-- A command, and whether something among its arguments was not understood. -/
def commandOf (name : String) (args : List String) : Except UsageStop (Command × Bool) :=
  match name with
  | "scan" => do
    let accepts (option value : String) : Bool :=
      acceptsNumber option value && (option != "--format" || (FormatChoice.ofName? value).isSome)
    let (c, root) ← readCommand scanOptions accepts args
    return (.scan {
      root := root
      production := c.has "--production"
      outputDir := c.value? "--output-dir"
      format := ((c.value? "--format").bind FormatChoice.ofName?).getD .all
      groupByFile := c.has "--group-by-file"
      noContext := c.has "--no-context"
      workers := (c.value? "--workers").bind numberArgument? }, c.extra)
  | "migrate" => do
    let (c, templates) ← readCommand migrateOptions acceptsNumber args
    return (.migrate {
      templates := templates
      output := c.value? "--output"
      report := c.value? "--report"
      workers := (c.value? "--workers").bind numberArgument?
      noBackup := c.has "--no-backup" }, c.extra)
  | "validate" => do
    let (c, file) ← readCommand [⟨"--strict", false⟩] (fun _ _ => true) args
    return (.validate file (c.has "--strict"), c.extra)
  | "transform" => do
    let (c, file) ← readCommand [⟨"--in-place", false⟩] (fun _ _ => true) args
    return (.transform file (c.has "--in-place"), c.extra)
  | _ => .error .badUsage

def programOptions : List OptionSpec := [⟨"--config", true⟩, ⟨"--log-level", true⟩, ⟨"--log-file", true⟩]

def logLevels : List String := ["DEBUG", "INFO", "WARNING", "ERROR"]

/-- The values that the program's own options may have. -/
def acceptsLevel (option value : String) : Bool := option != "--log-level" || logLevels.contains value

/-- Reads the program's own options up to the command; the texts of the arguments go along, because
those from the command on are read anew. -/
def readProgram (c : Collected) : List (String × Argument) → Except UsageStop Invocation
  | [] => .error .badUsage
  | (_, .plain name) :: rest => do
    let (command, extra) ← commandOf name (rest.map (·.1))
    if extra || c.extra then .error .badUsage
    else
      return {
        config := c.value? "--config"
        logLevel := c.value? "--log-level"
        logFile := c.value? "--log-file"
        command := command }
  | (_, .dashes) :: _ => .error .badUsage
  | (_, .unknownOption) :: rest => readProgram { c with extra := true } rest
  | (_, .option spec (some attached)) :: rest =>
    if spec.takesValue then do readProgram (← takeOption acceptsLevel spec attached c) rest
    else .error .badUsage
  | (_, .helpLetters more) :: _ => .error (helpStop more)
  | (_, .option spec none) :: rest =>
    if helpOptions.contains spec then .error .help
    else
      match rest with
      | (_, .plain value) :: rest' => do readProgram (← takeOption acceptsLevel spec value c) rest'
      | _ => .error .badUsage

def Invocation.ofArguments (args : List String) : Except UsageStop Invocation :=
  match readArguments (helpOptions ++ programOptions) args with
  | some arguments => readProgram {} (args.zip arguments)
  | none => .error .badUsage

end CadenceUplift
