import CadenceUplift.Diagnostic.Function

namespace CadenceUplift

open Pattern Legacy

/-- A name, blanks and an opening bracket: group 1 is the name. -/
def spacedCallPattern : Pattern :=
  all [edge, .group 1 (all plainName), many1 blank, .char '(']

/-- An operator with word characters on both sides. -/
def tightOperatorPattern : Pattern :=
  all [.behind false 1 word,
    oneOf [all (chars "=="), all (chars "!="), all (chars "<="), all (chars ">="), among "+-*/%="],
    .ahead false word]

/-- Words that may stand before a space and a bracket. -/
def spacedKeywords : List String := [
  "fun", "if", "while", "for", "return", "emit", "in", "switch", "case",
  "let", "var", "pre", "post", "else", "panic", "assert", "destroy", "view"]

/-- Starts of path literals, whose slashes are no operators. -/
def pathMarkers : List String := ["/storage/", "/public/", "/private/"]

/-- How many lines after a move may hold the destruction that goes with it. -/
def moveWindow : Nat := 2

/-- What a style warning is about. -/
inductive StyleFault where
  | spacedCall
  | tightOperator (length : Nat)
  | capitalFunction (name : String)
  | looseMove
deriving DecidableEq, Repr, Inhabited

/-- A style warning at the given place. -/
structure StyleWarning where
  line : Nat
  column : Nat
  fault : StyleFault
deriving DecidableEq, Repr, Inhabited

/-- The first call on a line with a space before its bracket; lines that declare functions are left
alone. -/
def spacedCall? (line : List Char) : Option Match :=
  if functionPattern.occursIn line then none
  else
    (spacedCallPattern.allMatches line.toArray).find? fun m =>
      !spacedKeywords.contains (String.ofList (m.groupText line.toArray 1))

/-- The operators on a line that lack spaces; lines with path literals are left alone. -/
def tightOperators (line : List Char) : List Match :=
  if pathMarkers.any fun p => Text.hasText line p.toList then []
  else tightOperatorPattern.allMatches line.toArray

/-- The name of a function declared on a line, with its offset, if it starts with a capital. -/
def capitalFunction? (line : List Char) : Option (Nat × String) :=
  match functionPattern.search line.toArray with
  | none => none
  | some m =>
    let name := m.groupText line.toArray 1
    if (name.head?.any Char.isUpper) && !lifecycleFunctions.contains (String.ofList name) then
      some (((m.capture? 1).map (·.start)).getD 0, String.ofList name)
    else none

/-- The offset of the first move on a line, if nothing on the lines of the window destroys anything. -/
def looseMove? (line : List Char) (rest : List (List Char)) : Option Nat :=
  match Text.indexOf? "<-".toList line with
  | none => none
  | some i =>
    if (line :: rest.take moveWindow).any fun l => Text.hasText l "destroy".toList then none else some i

/-- The warnings on one line, given the lines after it. -/
def styleWarningsAt (index : Nat) (line : List Char) (rest : List (List Char)) : List StyleWarning :=
  (spacedCall? line).toList.map (fun m => ⟨index, m.start + 1, .spacedCall⟩) ++
    (tightOperators line).map (fun m => ⟨index, m.start + 1, .tightOperator (m.stop - m.start)⟩) ++
    (capitalFunction? line).toList.map (fun f => ⟨index, f.1 + 1, .capitalFunction f.2⟩) ++
    (looseMove? line rest).toList.map (fun i => ⟨index, i + 1, .looseMove⟩)

def styleWarningsFrom : Nat → List (List Char) → List StyleWarning
  | _, [] => []
  | index, line :: rest => styleWarningsAt index line rest ++ styleWarningsFrom (index + 1) rest

def styleWarnings (ls : List (List Char)) : List StyleWarning := styleWarningsFrom 1 ls

def StyleFault.kind : StyleFault → String
  | .spacedCall | .tightOperator _ => "style"
  | .capitalFunction _ => "best-practice"
  | .looseMove => "potential-issue"

/-- How many characters a warning is about, where that is known. -/
def StyleFault.length : StyleFault → Option Nat
  | .spacedCall => none
  | .tightOperator n => some n
  | .capitalFunction name => some name.length
  | .looseMove => some 2

def StyleFault.message : StyleFault → String
  | .spacedCall => "Unnecessary space before parentheses in function call"
  | .tightOperator _ => "Missing spaces around operator"
  | .capitalFunction name => "Function name '" ++ name ++ "' should use camelCase"
  | .looseMove => "Resource move operation detected - ensure proper resource handling"

def StyleFault.suggestion : StyleFault → String
  | .spacedCall => "Remove space before opening parenthesis"
  | .tightOperator _ => "Add spaces around operators for better readability"
  | .capitalFunction _ => "Use camelCase for function names (e.g., \"myFunction\")"
  | .looseMove => "Verify that resources are properly managed and destroyed when no longer needed"

/-- A style warning as a diagnostic. -/
def StyleWarning.issue (w : StyleWarning) : Issue where
  kind := w.fault.kind
  mark := { line := w.line, column := w.column, length := w.fault.length }
  message := w.fault.message
  suggestion := w.fault.suggestion

end CadenceUplift
