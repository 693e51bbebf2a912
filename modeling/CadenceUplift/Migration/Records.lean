import CadenceUplift.Rule.RuleSet
import CadenceUplift.Scan.Result

namespace CadenceUplift

/-- An error of a run. -/
structure ErrorRecord where
  file : String
  message : String
  category : String
  severity : String := "error"
  line : Option Int := none
  column : Option Int := none
deriving DecidableEq, Repr, Inhabited

/-- A warning of a run. -/
structure WarningRecord where
  file : String
  message : String
  line : Option Int := none
  suggestion : Option String := none
deriving DecidableEq, Repr, Inhabited

/-- What a run has recorded. -/
structure Records where
  errors : List ErrorRecord := []
  warnings : List WarningRecord := []
deriving DecidableEq, Repr, Inhabited

namespace ErrorRecord

def syntaxError (file message : String) (line column : Option Int) : ErrorRecord :=
  { file := file, message := "Syntax error: " ++ message, category := "syntax", line := line
    column := column }

/-- A rule that failed on a file. -/
def transformation (file rule message : String) : ErrorRecord :=
  { file := file, message := "Transformation failed for rule '" ++ rule ++ "': " ++ message
    category := "transformation" }

/-- An uplift that is not valid; the first error is quoted and the others are counted. -/
def validation (file : String) (errors : List String) : ErrorRecord :=
  let detail := errors.headD "unknown error"
  let more := if errors.length > 1 then " (+" ++ toString (errors.length - 1) ++ " more)" else ""
  { file := file, message := "Validation failed: " ++ detail ++ more, category := "validation" }

def system (file message : String) : ErrorRecord :=
  { file := file, message := "System error: " ++ message, category := "system", severity := "critical" }

/-- One line of a report on the error. -/
def line_ (e : ErrorRecord) : String :=
  "    - [" ++ e.category ++ "] " ++ e.message ++
    match e.line with
    | some n => " (line " ++ toString n ++ ")"
    | none => ""

end ErrorRecord

namespace Records

def addError (c : Records) (e : ErrorRecord) : Records := { c with errors := c.errors ++ [e] }

def addWarning (c : Records) (w : WarningRecord) : Records := { c with warnings := c.warnings ++ [w] }

def hasCritical (c : Records) : Bool := c.errors.any (·.severity == "critical")

/-- The errors of one file. -/
def errorsOf (c : Records) (file : String) : List ErrorRecord := c.errors.filter (·.file == file)

/-- The warnings of one file. -/
def warningsOf (c : Records) (file : String) : List WarningRecord := c.warnings.filter (·.file == file)

/-- The errors of one category. -/
def errorsIn (c : Records) (category : String) : List ErrorRecord :=
  c.errors.filter (·.category == category)

/-- How many errors each category has, in ascending order of names. -/
def byCategory (c : Records) : List (String × Nat) := sortedTallies (c.errors.map (·.category))

/-- How many errors each severity has, in ascending order of names. -/
def bySeverity (c : Records) : List (String × Nat) := sortedTallies (c.errors.map (·.severity))

/-- The files that have errors, in ascending order. -/
def files (c : Records) : List String := sortedUnique (c.errors.map (·.file))

/-- A section of a report: nothing at all when it has no lines. -/
def reportSection (title : String) (lines : List String) : List String :=
  if lines.isEmpty then [] else ["", title] ++ lines

def report (c : Records) : String :=
  let countLine (p : String × Nat) : String := "  " ++ p.1 ++ ": " ++ toString p.2
  "\n".intercalate (
    ["Migration Error Report", "======================", "",
      "Total Errors: " ++ toString c.errors.length,
      "Total Warnings: " ++ toString c.warnings.length] ++
    reportSection "Errors by Category:" (c.byCategory.map countLine) ++
    reportSection "Errors by Severity:" (c.bySeverity.map countLine) ++
    reportSection "Files with Errors:"
      (c.files.flatMap fun file => ("  " ++ file) :: (c.errorsOf file).map (·.line_)))

end Records

end CadenceUplift
