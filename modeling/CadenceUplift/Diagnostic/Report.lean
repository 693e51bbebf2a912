import CadenceUplift.Diagnostic.Bracket
import CadenceUplift.Diagnostic.Event
import CadenceUplift.Diagnostic.Statement
import CadenceUplift.Diagnostic.Style
import CadenceUplift.Literal.Blank

namespace CadenceUplift

/-- The diagnostics of a text, by kind of check. -/
structure Diagnostics where
  brackets : List BracketError
  statements : List StatementError
  style : List StyleWarning
  structures : List StructureError
  functions : List FunctionError
  events : List EventError
deriving DecidableEq, Repr, Inhabited

/-- Runs every check over a text. -/
def diagnose (s : List Char) : Diagnostics :=
  let code := codeOnly s
  let ls := Text.lines code
  { brackets := bracketErrors code
    statements := statementErrors ls
    style := styleWarnings ls
    structures := structureErrors ls
    functions := functionErrors ls
    events := eventErrors ls }

namespace Diagnostics

/-- The bracket errors and then the statement errors. -/
def errors (d : Diagnostics) : List Issue := d.brackets.map (·.issue) ++ d.statements.map (·.issue)

def warnings (d : Diagnostics) : List Issue := d.style.map (·.issue)

/-- Nothing in the text is wrong: warnings do not count. -/
def clean (d : Diagnostics) : Bool :=
  d.brackets.isEmpty && d.statements.isEmpty && !(d.structures.any (·.fault.blocking)) &&
    d.functions.isEmpty && d.events.isEmpty

/-- Everything that makes the text invalid, one line each. -/
def blockingReports (d : Diagnostics) : List String :=
  d.errors.map (·.report) ++ (d.structures.filter (·.fault.blocking)).map (·.issue.report) ++
    d.functions.map (·.issue.report) ++ d.events.map (·.issue.report)

/-- Everything that is only warned about, one line each. -/
def warningReports (d : Diagnostics) : List String :=
  d.warnings.map (·.report) ++ (d.structures.filter (!·.fault.blocking)).map (·.issue.report)

end Diagnostics

end CadenceUplift
