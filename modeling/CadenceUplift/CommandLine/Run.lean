import CadenceUplift.CommandLine.Arguments
import CadenceUplift.Migration.Corpus
import CadenceUplift.Migration.Report
import CadenceUplift.Scan.Save
import CadenceUplift.Scan.Session
import CadenceUplift.Settings.Load

namespace CadenceUplift

/-- Why a command could not do its work. -/
inductive CommandError where
  | settings (e : SettingsError)
  | ruleSet (e : RuleSetError)
  | scan (e : ScanError)
  | corpus (e : CorpusError)
  | source (path : String) (e : ReadError)
  | file (e : WriteError)
  | corpusFile (e : CorpusWriteError)
  | uplift (e : UpliftError)
  | validation (e : ValidationError)
  /-- The path of a backup has no name to build on. -/
  | noName (e : NoName)
deriving Repr, Inhabited

namespace CommandError

def message : CommandError → String
  | .settings e => e.message
  | .ruleSet e => e.message
  | .scan e => e.message
  | .corpus e => e.message
  | .source _ (.file .notPath) => FileError.notPath.message
  | .source path e => "Cannot read '" ++ path ++ "': " ++ e.message
  | .file e => e.message
  | .corpusFile e => e.message
  | .uplift e => e.message
  | .validation e => e.message
  | .noName e => e.message

/-- The command itself reports the failure and ends; other failures break it off. -/
def isReported : CommandError → Bool
  | .settings (.configuration _ _) => true
  | .settings _ => false
  | .corpus e => e.isFormal
  | .ruleSet (.rule _) | .scan (.file _) | .source _ (.file .notPath) => false
  | .ruleSet _ | .scan _ | .source _ _ => true
  | .file _ | .corpusFile _ | .uplift _ | .validation _ | .noName _ => false

end CommandError

/-- What a command printed, its exit code, and the files after it. -/
structure CommandResult where
  exitCode : Nat
  stdout : String := ""
  stderr : String := ""
  tree : FileTree
deriving Inhabited

/-- Lines as they are printed. -/
def printed (lines : List String) : String := String.join (lines.map (· ++ "\n"))

/-- An option's text, unless it is empty. -/
def given (o : Option String) : Option String := o.filter (· != "")

/-- How many workers a command uses: those asked for, or those of the settings when none or zero are
asked for; a number below zero leaves the choice to the program. -/
def commandWorkers (asked : Option Int) (s : Settings) : Nat :=
  match asked with
  | some n => if n = 0 then workerCount s.workers else if n < 0 then maxWorkers else workerCount n.toNat
  | none => workerCount s.workers

/-- Scans a tree and writes reports on it. -/
def scanCommand [CharacterNames] (a : ScanArguments) (s : Settings) (t : FileTree) (now : String) :
    Except CommandError CommandResult := do
  let _ ← s.ruleSet.mapError .ruleSet
  let make := if a.production then ScanPlan.production else ScanPlan.general
  let plan := make (defaultExtensions ++ s.scan.extensions) (defaultExcludeDirs ++ s.scan.excludeDirs) []
    (commandWorkers a.workers s)
  let scanned ← (plan.scan t a.root).mapError .scan
  let result := scanned.result
  let formats := match a.format with
    | .all => ReportFormat.all
    | .one f => [f]
  let options : ReportOptions := { includeContext := !a.noContext, groupByFile := a.groupByFile }
  let (tree, paths) ← match given a.outputDir with
    | some dir => (result.saveAll (Path.ofString dir) options now formats t).mapError .file
    | none => pure (t, [])
  return {
    exitCode := if 0 < result.severityCount .critical then 1 else 0
    stdout := printed (paths.map ("Report written: " ++ ·) ++ [result.summary])
    tree := tree }

/-- Writes the migrated corpus and, beside it, the old forms of uplifted templates. -/
def saveMigrated (r : RunResult) (output : String) (t : FileTree) :
    Except CommandError (FileTree × List String) := do
  let t ← (Corpus.save t output r.migrated).mapError .corpusFile
  let line := "Migrated templates written: " ++ output
  if r.backups.isEmpty then return (t, [line])
  else
    let path ← (backupPath output).mapError .noName
    let t ← (Corpus.save t path r.backups).mapError .corpusFile
    return (t, [line, "Original templates written: " ++ path])

def saveRunReport (r : RunResult) (path : String) (t : FileTree) (now : String) :
    Except CommandError (FileTree × List String) := do
  let t ← (t.makeParent path).mapError (.file ∘ .file)
  let t ← (t.writeText path (r.markdown now)).mapError .file
  return (t, ["Migration report written: " ++ path])

/-- Migrates a corpus and writes what is asked for. -/
def migrateCommand [CharacterNames] (a : MigrateArguments) (s : Settings) (t : FileTree) (now : String) :
    Except CommandError CommandResult := do
  let s := if a.noBackup then { s with options := { s.options with keepBackups := .bool false } } else s
  let rules ← s.ruleSet.mapError .ruleSet
  let corpus ← (Corpus.load t a.templates).mapError .corpus
  let (r, _) ← (({ ruleSet := rules } : Session).run corpus []).mapError .ruleSet
  let (t, saved) ← match given a.output with
    | some output => saveMigrated r output t
    | none => pure (t, [])
  let (t, reported) ← match given a.report with
    | some path => saveRunReport r path t now
    | none => pure (t, [])
  return {
    exitCode := if r.statistics.failed = 0 then 0 else 1
    stdout := printed (saved ++ reported ++ [r.summary] ++ r.recommendations.map ("- " ++ ·))
    tree := t }

/-- A titled list; nothing when the list is empty. -/
def printedSection (title : String) (items : List String) : List String :=
  if items.isEmpty then [] else (title ++ ":") :: items.map ("  " ++ ·)

def validateCommand [CharacterNames] (file : String) (strict : Bool) (t : FileTree) :
    Except CommandError CommandResult := do
  let code ← (t.readText file).mapError (.source file)
  let r ← (({ strict := strict } : Standard).report code).mapError .validation
  let head := file ++ ": " ++ (if r.verdict.valid then "VALID" else "INVALID") ++ " (compliance score " ++
    toString r.score ++ ")"
  return {
    exitCode := if r.verdict.valid then 0 else 1
    stdout := printed (
      head :: (if r.rejection.rejected then ["Rejected: " ++ r.rejection.reason] else []) ++
        printedSection "Errors" r.verdict.errors ++ printedSection "Warnings" r.verdict.warnings ++
        printedSection "Suggestions" (r.hints.map (·.display)))
    tree := t }

/-- Uplifts a file, in place or to the output. A file that needs no change is not written. -/
def upliftCommand [CharacterNames] (file : String) (inPlace : Bool) (s : Settings) (t : FileTree) :
    Except CommandError CommandResult := do
  let code ← (t.readText file).mapError (.source file)
  let rules ← s.ruleSet.mapError .ruleSet
  let r ← (rules.uplift code).mapError .uplift
  let notes := r.notes.map fun n => file ++ ":" ++ toString n.line ++ ": " ++ n.message
  let text := String.ofList r.text
  if inPlace then
    let tree ← if r.text = code then pure t else (t.writeText file text).mapError .file
    return {
      exitCode := 0
      stderr := printed (notes ++ [file ++ ": " ++ toString r.total ++ " substitutions"])
      tree := tree }
  else return { exitCode := 0, stdout := text, stderr := printed notes, tree := t }

def Command.run [CharacterNames] (c : Command) (s : Settings) (t : FileTree) (now : String) :
    Except CommandError CommandResult :=
  match c with
  | .scan a => scanCommand a s t now
  | .migrate a => migrateCommand a s t now
  | .validate file strict => validateCommand file strict t
  | .transform file inPlace => upliftCommand file inPlace s t

/-- Runs an invocation: its settings are those of the file it names, or else of the one that the
environment names. A failure that the command reports ends it with code two. -/
def Invocation.run [CharacterNames] (i : Invocation) (reader : SettingsReader) (environment : Option String)
    (t : FileTree) (now : String) : Except CommandError CommandResult :=
  let outcome : Except CommandError CommandResult := do
    let s ← (Settings.resolve reader t i.config environment).mapError .settings
    i.command.run s t now
  match outcome with
  | .ok r => .ok r
  | .error e =>
    if e.isReported then .ok { exitCode := 2, stderr := printed ["error: " ++ e.message], tree := t }
    else .error e

end CadenceUplift
