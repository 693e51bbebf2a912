import CadenceUplift.Cancellation
import CadenceUplift.Migration.Records
import CadenceUplift.Migration.Migrate

namespace CadenceUplift

/-- Counters of a run. -/
structure RunStatistics where
  processed : Nat
  successful : Nat
  failed : Nat
  transformations : Nat
  linesMigrated : Nat
  skipped : Nat
deriving DecidableEq, Repr, Inhabited

def Template.lineCount (t : Template) : Nat :=
  match t.code with
  | .text s => (Text.lines s.toList).length
  | _ => 0

def RunStatistics.ofOutcomes (os : List Outcome) : RunStatistics :=
  let accepted := os.filter (·.accepted)
  { processed := os.length
    successful := accepted.length
    failed := (os.filter fun o => o.needed && !o.success).length
    transformations := sumOf (accepted.map (·.substitutions))
    linesMigrated := sumOf (accepted.map (·.migrated.lineCount))
    skipped := (os.filter fun o => !o.needed).length }

/-- The result of a run. -/
structure RunResult where
  success : Bool
  cancelled : Bool
  migrated : List Template
  outcomes : List Outcome
  statistics : RunStatistics
  errors : List ErrorRecord
  warnings : List WarningRecord
  backups : List Template
deriving Repr, Inhabited

/-- The identifiers of the templates whose code was uplifted. -/
def RunResult.migratedIds (r : RunResult) : List String :=
  (r.outcomes.filter (·.accepted)).map (·.source.id)

/-- Processes one template: the outcome, and what it adds to the records. -/
def attempt [CharacterNames] (r : RuleSet) (t : Template) : Outcome × Records :=
  match migrate r t with
  | .error e =>
    (.failed t e.message, { errors := [.transformation t.label "transform_all" e.message] })
  | .ok o =>
    let errors := match o.verdict with
      | some v => if o.success then [] else [ErrorRecord.validation t.label v.errors]
      | none => []
    let hints := match o.verdict with
      | some v => v.warnings.map fun w => ({ file := t.label, message := w } : WarningRecord)
      | none => []
    let notes := o.notes.map fun n =>
      ({ file := t.label, message := n.message, line := some n.line } : WarningRecord)
    (o, { errors := errors, warnings := hints ++ notes })

/-- Records after more records. -/
def Records.append (a b : Records) : Records := ⟨a.errors ++ b.errors, a.warnings ++ b.warnings⟩

/-- A finished task: the place of its template in the corpus, its outcome and its records. -/
structure Task where
  index : Nat
  outcome : Outcome
  records : Records
deriving Repr, Inhabited

/-- The tasks of a corpus, in its order. -/
def tasksOf [CharacterNames] (r : RuleSet) (corpus : List Template) : List Task :=
  corpus.zipIdx.map fun p =>
    let a := attempt r p.1
    ⟨p.2, a.1, a.2⟩

/-- The records of tasks, in the order in which they finished. -/
def Records.ofTasks (finished : List Task) : Records :=
  finished.foldl (fun c k => c.append k.records) {}

/-- What becomes of the template at a place: its task's result, or the template itself when no task
took it. -/
def settled (finished : List Task) (t : Template) (index : Nat) : Template :=
  match finished.find? (·.index == index) with
  | some k => k.outcome.migrated
  | none => t

/-- Puts a run together from its tasks and what they recorded. The tasks may have finished in any
order: templates and outcomes follow the corpus, records stay as they came. -/
def RunResult.assemble (r : RuleSet) (corpus : List Template) (finished : List Task)
    (records : Records) : RunResult :=
  let outcomes := (finished.mergeSort fun a b => decide (a.index ≤ b.index)).map (·.outcome)
  let statistics := RunStatistics.ofOutcomes outcomes
  { success := statistics.failed == 0 && records.errors.isEmpty
    cancelled := decide (finished.length < corpus.length)
    migrated := corpus.zipIdx.map fun p => settled finished p.1 p.2
    outcomes := outcomes
    statistics := statistics
    errors := records.errors
    warnings := records.warnings
    backups := if r.options.backsUp then (outcomes.filter (·.accepted)).map (·.source) else [] }

/-- The run of tasks that finish one after another, so that their records follow them. -/
def RunResult.ofTasks (r : RuleSet) (corpus : List Template) (finished : List Task) : RunResult :=
  .assemble r corpus finished (Records.ofTasks finished)

/-- One session: its rule set, the records of its last run, and whether it has been asked to
stop. -/
structure Session where
  ruleSet : RuleSet := {}
  records : Records := {}
  cancelled : Bool := false
deriving Inhabited

namespace Session

/-- The session after tasks have finished, with the result they make. -/
def finish (c : Session) (rules : RuleSet) (corpus : List Template) (finished : List Task) :
    RunResult × Session :=
  let result := RunResult.ofTasks rules corpus finished
  (result, { c with records := Records.ofTasks finished, cancelled := result.cancelled })

/-- Runs over a corpus until a request to stop arrives, unless the rule set is not usable; requests
from before the run are forgotten. -/
def run [CharacterNames] (c : Session) (corpus : List Template) (requests : List Nat) :
    Except RuleSetError (RunResult × Session) := do
  let rules ← c.ruleSet.usable
  return c.finish rules corpus (tasksOf rules (handedOut requests 0 corpus))

/-- Processes the template of an identifier, if the corpus has it. -/
def single [CharacterNames] (c : Session) (corpus : List Template) (id : String) : Option Outcome × Session :=
  match corpus.find? (·.id == id) with
  | none => (none, c)
  | some t =>
    let (o, records) := attempt c.ruleSet t
    (some o, { c with records := c.records.append records })

def cancel (c : Session) : Session := { c with cancelled := true }

end Session

def templatesIn (category : Value) (corpus : List Template) : List Template :=
  corpus.filter fun t => t.category.same category

end CadenceUplift
