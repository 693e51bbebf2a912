import CadenceUplift.Diagnostic.EventType
import CadenceUplift.Diagnostic.Structure

namespace CadenceUplift

open Pattern Legacy

/-- An event with its parameter list: group 1 is the name, group 2 the parameters. -/
def eventPattern : Pattern :=
  all (edge :: chars "event" ++ [many1 blank, .group 1 (all plainName), many blank, .char '(',
    .group 2 (many (except ")")), .char ')'])

/-- An event at the end of a line, without parameter list. -/
def bareEventPattern : Pattern :=
  all (edge :: chars "event" ++ [many1 blank, .group 1 (all plainName), many blank, .lineEnd])

/-- What is wrong with an event declaration. -/
inductive EventFault where
  | missingAccess
  | untypedParameter (parameter : String)
  | malformedParameter (parameter : String)
  | badType (label type : String)
  | missingParameters
deriving DecidableEq, Repr, Inhabited

/-- A fault of an event at the given place. -/
structure EventError where
  line : Nat
  column : Nat
  name : String
  fault : EventFault
deriving DecidableEq, Repr, Inhabited

/-- What is wrong with one parameter, if anything. -/
def parameterFault? (parameter : List Char) : Option EventFault :=
  if !parameter.contains ':' then some (.untypedParameter (String.ofList parameter))
  else
    let label := Text.trim (parameter.takeWhile (· != ':'))
    let type := Text.trim ((parameter.dropWhile (· != ':')).tail)
    if label.isEmpty || type.isEmpty then some (.malformedParameter (String.ofList parameter))
    else if isEventType type then none
    else some (.badType (String.ofList label) (String.ofList type))

/-- The faults of one event with a parameter list. -/
def eventErrorsOf (index : Nat) (line : List Char) (m : Match) : List EventError :=
  let name := String.ofList (m.groupText line.toArray 1)
  let start := ((m.capture? 2).map (·.start)).getD 0
  (if accessBefore line m.start then [] else [⟨index, m.start + 1, name, .missingAccess⟩]) ++
    (topLevelParts (m.groupText line.toArray 2) ',').filterMap fun p =>
      (parameterFault? p.text).map fun f => ⟨index, start + p.offset + 1, name, f⟩

/-- The faults of the events on one line. -/
def eventErrorsAt (index : Nat) (line : List Char) : List EventError :=
  (eventPattern.allMatches line.toArray).flatMap (eventErrorsOf index line) ++
    match bareEventPattern.search line.toArray with
    | some m => [⟨index, m.start + 1, String.ofList (m.groupText line.toArray 1), .missingParameters⟩]
    | none => []

def eventErrorsFrom : Nat → List (List Char) → List EventError
  | _, [] => []
  | index, line :: rest => eventErrorsAt index line ++ eventErrorsFrom (index + 1) rest

def eventErrors (ls : List (List Char)) : List EventError := eventErrorsFrom 1 ls

def EventFault.kind : EventFault → String
  | .missingAccess => "invalid-definition"
  | .untypedParameter _ | .malformedParameter _ | .badType .. => "invalid-parameter-types"
  | .missingParameters => "incomplete-event"

def EventFault.message (name : String) : EventFault → String
  | .missingAccess => "Event '" ++ name ++ "' is missing access modifier"
  | .untypedParameter p => "Event '" ++ name ++ "' parameter '" ++ p ++ "' is missing type annotation"
  | .malformedParameter p => "Event '" ++ name ++ "' has malformed parameter '" ++ p ++ "'"
  | .badType label type =>
    "Event '" ++ name ++ "' parameter '" ++ label ++ "' has potentially invalid type '" ++ type ++ "'"
  | .missingParameters => "Event '" ++ name ++ "' declaration is incomplete"

def EventFault.suggestion : EventFault → String
  | .missingAccess => "Add access modifier like \"access(all)\" before event keyword"
  | .untypedParameter _ => "Add type annotation (e.g., \"paramName: String\")"
  | .malformedParameter _ => "Use format \"parameterName: ParameterType\""
  | .badType .. => "Ensure type name follows Cadence naming conventions"
  | .missingParameters => "Add parameter list in parentheses, even if empty: \"()\""

/-- An event error as a diagnostic. -/
def EventError.issue (e : EventError) : Issue where
  kind := e.fault.kind
  mark := { line := e.line, column := e.column }
  message := e.fault.message e.name
  suggestion := e.fault.suggestion

end CadenceUplift
