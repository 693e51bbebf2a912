import CadenceUplift.Data.Json
import CadenceUplift.Interactive.Modernize
import CadenceUplift.Migration.Report
import CadenceUplift.Scan.Save
import CadenceUplift.Scan.Session
import CadenceUplift.Settings.Basic
import CadenceUplift.Validation.Verdict

namespace CadenceUplift

/-- The tools. -/
inductive Tool where
  | scanProject
  | upliftCode
  | validateCode
  | checkInput
  | modernizeCode
  | migrateTemplates
deriving DecidableEq, Repr, Inhabited

namespace Tool

/-- All tools, in the order in which they are listed. -/
def all : List Tool := [
  .scanProject, .upliftCode, .validateCode, .checkInput, .modernizeCode, .migrateTemplates]

def name : Tool → String
  | .scanProject => "scan_legacy_patterns"
  | .upliftCode => "transform_cadence_code"
  | .validateCode => "validate_cadence_code"
  | .checkInput => "validate_user_input"
  | .modernizeCode => "auto_modernize_code"
  | .migrateTemplates => "migrate_templates"

end Tool

/-- Why a tool gave no result. -/
inductive ToolError where
  | unknownTool (name : String)
  | arguments (issues : List SettingIssue)
  | scan (e : ScanError)
  | file (e : WriteError)
  | uplift (e : UpliftError)
  | validation (e : ValidationError)
  | ruleSet (e : RuleSetError)
  | template (e : TemplateError)
deriving Repr, Inhabited

def ToolError.message : ToolError → String
  | .unknownTool name => "Unknown tool: " ++ name
  | .arguments issues => "Invalid arguments: " ++ ", ".intercalate (issues.map (·.place))
  | .scan e => e.message
  | .file e => e.message
  | .uplift e => e.message
  | .validation e => e.message
  | .ruleSet e => e.message
  | .template e => e.message

def Tool.ofName (name : String) : Except ToolError Tool :=
  match Tool.all.find? (·.name == name) with
  | some t => .ok t
  | none => .error (.unknownTool name)

/-- What the scanning tool is asked for. -/
structure ScanRequest where
  folder : String
  productionOnly : Bool := false
  format : String := "json"
  groupByFile : Bool := false
  includeContext : Bool := true
  workers : Nat := 1
  saveTo : Option String := none
deriving DecidableEq, Repr, Inhabited

/-- The result of the scanning tool. -/
structure ScanAnswer where
  result : ScanResult
  format : String
  report : String
  savedTo : Option String
deriving Repr, Inhabited

/-- Scans a folder, renders a report and saves it if asked to. -/
def ScanRequest.run (q : ScanRequest) (t : FileTree) (now : String) :
    Except ToolError (ScanAnswer × FileTree) := do
  let make := if q.productionOnly then ScanPlan.production else ScanPlan.general
  let scanned ← ((make [] [] [] (workerCount q.workers)).scan t q.folder).mapError .scan
  let format ← (ReportFormat.ofName q.format).mapError .scan
  let options : ReportOptions := { includeContext := q.includeContext, groupByFile := q.groupByFile }
  let report := scanned.result.render format options now
  match q.saveTo.filter (· != "") with
  | none => return (⟨scanned.result, q.format, report, none⟩, t)
  | some path =>
    let p := Path.ofString path
    let t ← (scanned.result.save t p format options now).mapError .file
    return (⟨scanned.result, q.format, report, some p.text⟩, t)

/-- What a tool is asked for. -/
inductive ToolRequest where
  | scan (q : ScanRequest)
  | uplift (code : List Char)
  | validate (code : List Char) (strict : Bool)
  | check (code : List Char)
  | modernize (code : List Char) (options : ModernizeOptions)
  | migrate (records : List Value)
deriving Repr, Inhabited

/-- An argument that is not meant to be a text may come as the text of a JSON document. It is read unless
it turns out to be a text, a number or a truth value, which are read later on. -/
def readDocument : Value → Value
  | .text s =>
    match Json.parse? s.toList with
    | none | some (.text _) | some (.int _) | some (.real _) | some (.bool _) => .text s
    | some v => v
  | v => v

namespace ToolArguments

/-- A text that may be missing. -/
def checkOptionalText (v : Value) : Checked (Option String) :=
  match v with
  | .null => .ok none
  | v => v.checkText.map some

def checkRecord : Value → Checked Value
  | .object entries => .ok (.object entries)
  | _ => .fault .notMapping

/-- The characters of the code that a tool works on. -/
def code (args : List (Value × Value)) : Checked (List Char) :=
  (Value.checkField args "code" Value.checkText).map (·.toList)

def flag (args : List (Value × Value)) (name : String) (default : Bool) : Checked Bool :=
  Value.checkOptional args name default fun v => (readDocument v).checkFlag

/-- A number of workers; a number below one leaves the choice to the program. -/
def workers (args : List (Value × Value)) : Checked Nat :=
  Value.checkOptional args "max_threads" 1 fun v =>
    (readDocument v).checkWhole.map fun n => if n < 1 then maxWorkers else n.toNat

def scan (args : List (Value × Value)) : Checked ScanRequest :=
  ((Value.checkField args "project_folder" Value.checkText).both
    ((flag args "production_only" false).both
      ((Value.checkOptional args "output_format" "json" Value.checkText).both
        ((flag args "group_by_file" false).both
          ((flag args "include_context" true).both
            ((workers args).both
              (Value.checkOptional args "save_to_file" none fun v =>
                checkOptionalText (readDocument v)))))))).map fun p =>
                  ⟨p.1, p.2.1, p.2.2.1, p.2.2.2.1, p.2.2.2.2.1, p.2.2.2.2.2.1, p.2.2.2.2.2.2⟩

def modernize (args : List (Value × Value)) : Checked ModernizeOptions :=
  ((flag args "auto_fix_critical" true).both
    ((flag args "auto_fix_warnings" false).both
      ((flag args "preserve_comments" true).both (flag args "add_explanation_comments" false)))).map fun p =>
        { fixCritical := p.1, fixWarnings := p.2.1, preserveComments := p.2.2.1, addComments := p.2.2.2 }

def templates (args : List (Value × Value)) : Checked (List Value) :=
  (Value.checkField args "templates" fun v => (readDocument v).checkList checkRecord).both (workers args)
    |>.map (·.1)

end ToolArguments

/-- Reads what a tool is asked for from named arguments; those that are not known are ignored. -/
def ToolRequest.ofArguments (t : Tool) (args : List (Value × Value)) : Checked ToolRequest :=
  match t with
  | .scanProject => (ToolArguments.scan args).map .scan
  | .upliftCode => (ToolArguments.code args).map .uplift
  | .validateCode =>
    ((ToolArguments.code args).both (ToolArguments.flag args "strict_mode" false)).map fun p =>
      .validate p.1 p.2
  | .checkInput => (ToolArguments.code args).map .check
  | .modernizeCode =>
    ((ToolArguments.code args).both (ToolArguments.modernize args)).map fun p => .modernize p.1 p.2
  | .migrateTemplates => (ToolArguments.templates args).map .migrate

/-- Reads what a tool is asked for, or tells what is wrong with it. -/
def ToolRequest.read (t : Tool) (args : List (Value × Value)) : Except ToolError ToolRequest :=
  match ToolRequest.ofArguments t args with
  | .ok q => .ok q
  | .bad issues => .error (.arguments issues)

/-- What a tool answers. -/
inductive ToolAnswer where
  | scan (a : ScanAnswer)
  | uplift (r : Uplifted) (stats : LineStats)
  | validate (r : ValidationReport)
  | check (c : InputCheck)
  | modernize (m : Modernized)
  | migrate (r : RunResult)
deriving Inhabited

def migrateRecords [CharacterNames] (records : List Value) : Except ToolError RunResult := do
  let corpus ← records.mapM fun v => (Template.ofValue v).mapError .template
  let (r, _) ← (({} : Session).run corpus []).mapError .ruleSet
  return r

/-- Answers a request; only a scan that saves its report changes the files. -/
def ToolRequest.run [CharacterNames] (q : ToolRequest) (t : FileTree) (now : String) :
    Except ToolError (ToolAnswer × FileTree) :=
  match q with
  | .scan q => do
    let (a, t) ← q.run t now
    return (.scan a, t)
  | .uplift code => do
    let r ← (({} : RuleSet).uplift code).mapError .uplift
    return (.uplift r (lineStats code r.text), t)
  | .validate code strict => do
    return (.validate (← (({ strict := strict } : Standard).report code).mapError .validation), t)
  | .check code => do return (.check (← (checkInput {} code).mapError .uplift), t)
  | .modernize code options => do
    return (.modernize (← (CadenceUplift.modernize {} options code).mapError .uplift), t)
  | .migrate records => do return (.migrate (← migrateRecords records), t)

end CadenceUplift
