import CadenceUplift.Data.Lookup
import CadenceUplift.Diagnostic.Basic
import CadenceUplift.Legacy.Catalog
import CadenceUplift.Literal.Blank
import CadenceUplift.Pattern.Match
import CadenceUplift.Rule.Basic

namespace CadenceUplift

/-- A complaint that a caller adds: a record with a pattern, a message and perhaps a severity and a
suggestion. -/
structure CustomComplaint where
  record : Value
deriving Repr, Inhabited

/-- Why a validation failed. -/
inductive ValidationError where
  /-- A caller's complaint lacks a part that is needed. -/
  | lookup (e : LookupFault)
  | pattern (e : PatternError)
  | notPattern (v : Value)
deriving Repr, Inhabited

def ValidationError.message : ValidationError → String
  | .lookup e => e.message
  | .pattern e => e.message
  | .notPattern v => notPatternMessage v

/-- Reports on legacy constructs: those that make a text invalid, and warnings. -/
structure LegacyReports where
  errors : List String
  warnings : List String
deriving DecidableEq, Repr, Inhabited

namespace LegacyReports

/-- No reports. -/
def empty : LegacyReports := ⟨[], []⟩

/-- One batch of reports after another. -/
def append (a b : LegacyReports) : LegacyReports := ⟨a.errors ++ b.errors, a.warnings ++ b.warnings⟩

/-- Reports of one kind only. -/
def ofList (blocking : Bool) (reports : List String) : LegacyReports :=
  if blocking then ⟨reports, []⟩ else ⟨[], reports⟩

end LegacyReports

/-- The places where a pattern matches, line by line, from line `index` on. -/
def lineMarks (p : Pattern) : Nat → List (List Char) → List Mark
  | _, [] => []
  | index, line :: rest =>
    (p.allMatches line.toArray).map (fun m => ⟨index, m.start + 1, some (m.stop - m.start)⟩) ++
      lineMarks p (index + 1) rest

/-- The reports of one of the catalog's complaints. -/
def Legacy.Complaint.reports (c : Legacy.Complaint) (ls : List (List Char)) : LegacyReports :=
  .ofList c.blocking ((lineMarks c.pattern 1 ls).map fun m => m.report c.message (some c.suggestion))

namespace CustomComplaint

def compile [CharacterNames] (c : CustomComplaint) : Except ValidationError Pattern := do
  match ← (c.record.entry "pattern").mapError .lookup with
  | .text source =>
    match Pattern.parse source with
    | .ok p => return p.pattern
    | .error e => .error (.pattern e)
  | v => .error (.notPattern v)

/-- A complaint makes a text invalid unless it has another severity. -/
def blocking (c : CustomComplaint) : Bool := (c.record.field? "severity").all (·.isNamed "error")

def suggestion (c : CustomComplaint) : Value := (c.record.field? "suggestion").getD .null

def reports [CharacterNames] (c : CustomComplaint) (ls : List (List Char)) :
    Except ValidationError LegacyReports := do
  match lineMarks (← c.compile) 1 ls with
  | [] => return .empty
  | marks =>
    let message ← (c.record.entry "message").mapError .lookup
    let suggestion := if c.suggestion.truthy then some c.suggestion.display else none
    return .ofList c.blocking (marks.map fun m => m.report message.display suggestion)

end CustomComplaint

/-- Warnings about panics outside comments whose message says nothing. -/
def panicReports (s : List Char) : List String :=
  let comments := LiteralIndex.ofList ((literals s).filter (·.kind == .comment))
  let starts := (Text.lineOffsets s).toArray
  ((Legacy.genericPanic.allMatches s.toArray).filter fun m => !comments.covers m.start).map fun m =>
    let p := Text.positionAt starts m.start
    Mark.report ⟨p.line, p.column, some (m.stop - m.start)⟩ "Generic panic message detected"
      (some "Use descriptive error messages in panic statements")

/-- The reports of callers' complaints, in order. -/
def customReports [CharacterNames] (custom : List CustomComplaint) (ls : List (List Char)) :
    Except ValidationError LegacyReports :=
  custom.foldlM (fun acc c => return acc.append (← c.reports ls)) LegacyReports.empty

/-- All reports on legacy constructs in a text. -/
def legacyReports [CharacterNames] (custom : List CustomComplaint) (s : List Char) :
    Except ValidationError LegacyReports := do
  let ls := Text.lines (codeOnly s)
  let catalog := Legacy.complaints.foldl (fun acc c => acc.append (c.reports ls)) LegacyReports.empty
  let added ← customReports custom ls
  return (catalog.append added).append ⟨[], panicReports s⟩

end CadenceUplift
