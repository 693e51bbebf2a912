import CadenceUplift.Diagnostic.Report
import CadenceUplift.Validation.Legacy

namespace CadenceUplift

/-- The verdict on a text. -/
structure Verdict where
  valid : Bool
  errors : List String
  warnings : List String
deriving DecidableEq, Repr, Inhabited

/-- How texts are validated: strictly, so that warnings count too, and with complaints added. -/
structure Standard where
  strict : Bool := false
  custom : List CustomComplaint := []
deriving Repr, Inhabited

/-- The verdict of the quick check. -/
structure Rejection where
  rejected : Bool
  reason : String
deriving DecidableEq, Repr, Inhabited

/-- The first critical legacy construct of a text decides. -/
def rejection (s : List Char) : Rejection :=
  let code := codeOnly s
  match Legacy.rejections.find? fun r => r.1.occursIn code with
  | some (_, reason) => ⟨true, reason⟩
  | none => ⟨false, ""⟩

/-- The keyword `pub` is used in a text, in either form. -/
def usesPub (s : List Char) : Bool := Legacy.pubEither.occursIn (codeOnly s)

/-- A summary of legacy constructs. -/
structure Analysis where
  errors : List String
  warnings : List String
deriving DecidableEq, Repr, Inhabited

namespace Analysis

def found (a : Analysis) : Bool := !(a.errors.isEmpty && a.warnings.isEmpty)

end Analysis

/-- A hint that is given and not among those before it. -/
def isNewHint (hints : List Value) (hint : Value) : Bool :=
  hint.truthy && !(hints.any fun h => h.same hint)

namespace Standard

variable [CharacterNames]

/-- Validates a text; `strict` and `extra` are for this call only. -/
def validate (v : Standard) (s : List Char) (strict : Option Bool := none)
    (extra : List CustomComplaint := []) : Except ValidationError Verdict := do
  let legacy ← legacyReports (v.custom ++ extra) s
  let d := diagnose s
  let errors := legacy.errors ++ d.blockingReports
  let warnings := legacy.warnings ++ d.warningReports
  let strict := strict.getD v.strict
  return ⟨errors.isEmpty && (!strict || warnings.isEmpty), errors, warnings⟩

def analyze (v : Standard) (s : List Char) : Except ValidationError Analysis := do
  let legacy ← legacyReports v.custom s
  return ⟨legacy.errors, legacy.warnings⟩

/-- Hints for the legacy constructs of a text, each once. -/
def hints (v : Standard) (s : List Char) : Except ValidationError (List Value) := do
  let code := codeOnly s
  let known := Legacy.complaints.foldl (fun acc c =>
    if isNewHint acc (.text c.suggestion) && c.pattern.occursIn code then acc ++ [.text c.suggestion]
    else acc) []
  v.custom.foldlM (fun acc c => do
    if !isNewHint acc c.suggestion then return acc
    else if (← c.compile).occursIn code then return acc ++ [c.suggestion]
    else return acc) known

end Standard

/-- A full validation report. -/
structure ValidationReport where
  totalLines : Nat
  nonEmptyLines : Nat
  hasContent : Bool
  verdict : Verdict
  analysis : Analysis
  rejection : Rejection
  hints : List Value
  score : Nat
deriving Repr, Inhabited

/-- The score of a text: a hundred, less twenty an error, five a warning and fifteen a critical legacy
construct, and never below zero. -/
def complianceScore (verdict : Verdict) (analysis : Analysis) : Nat :=
  100 - (20 * verdict.errors.length + 5 * verdict.warnings.length + 15 * analysis.errors.length)

def Standard.report [CharacterNames] (v : Standard) (s : List Char) : Except ValidationError ValidationReport := do
  let verdict ← v.validate s
  let analysis ← v.analyze s
  let ls := Text.lines s
  return {
    totalLines := ls.length
    nonEmptyLines := (ls.filter fun l => !Text.allBlank l).length
    hasContent := !Text.allBlank s
    verdict := verdict
    analysis := analysis
    rejection := CadenceUplift.rejection s
    hints := ← v.hints s
    score := complianceScore verdict analysis }

end CadenceUplift
