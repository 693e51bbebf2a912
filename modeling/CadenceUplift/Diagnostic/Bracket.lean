import CadenceUplift.Diagnostic.Basic

namespace CadenceUplift

/-- The three kinds of brackets. -/
inductive Bracket where
  | round
  | curly
  | square
deriving DecidableEq, Repr, Inhabited

namespace Bracket

def opening : Bracket → Char
  | .round => '('
  | .curly => '\x7b'
  | .square => '['

def closing : Bracket → Char
  | .round => ')'
  | .curly => '\x7d'
  | .square => ']'

/-- All kinds. -/
def all : List Bracket := [.round, .curly, .square]

/-- The kind that a character opens. -/
def opened? (c : Char) : Option Bracket := all.find? (·.opening == c)

/-- The kind that a character closes. -/
def closed? (c : Char) : Option Bracket := all.find? (·.closing == c)

end Bracket

/-- A bracket in a text. -/
inductive BracketToken where
  | opener (b : Bracket) (at_ : Text.Position)
  | closer (b : Bracket) (at_ : Text.Position)
deriving DecidableEq, Repr, Inhabited

/-- The brackets of the text that starts at the given position. -/
def bracketTokens : Text.Position → List Char → List BracketToken
  | _, [] => []
  | p, c :: r =>
    let next : Text.Position := if c = '\n' then ⟨p.line + 1, 1⟩ else ⟨p.line, p.column + 1⟩
    match Bracket.opened? c, Bracket.closed? c with
    | some b, _ => .opener b p :: bracketTokens next r
    | none, some b => .closer b p :: bracketTokens next r
    | none, none => bracketTokens next r

/-- What is wrong with a bracket. -/
inductive BracketFault where
  /-- It closes nothing. -/
  | unexpected (b : Bracket)
  /-- It closes a bracket of another kind, which was opened on the given line. -/
  | mismatched (opened : Bracket) (openLine : Nat) (found : Bracket)
  /-- It is never closed. -/
  | unclosed (b : Bracket)
deriving DecidableEq, Repr, Inhabited

/-- A fault and the bracket it is about. -/
structure BracketError where
  position : Text.Position
  fault : BracketFault
deriving DecidableEq, Repr, Inhabited

/-- An open bracket and where it stands. -/
structure OpenBracket where
  bracket : Bracket
  position : Text.Position
deriving DecidableEq, Repr, Inhabited

/-- Errors on closing brackets in reading order, and then one for each bracket left open, in reading
order; the stack holds the open brackets, latest first. -/
def matchBrackets : List OpenBracket → List BracketToken → List BracketError
  | stack, [] => stack.reverse.map fun o => ⟨o.position, .unclosed o.bracket⟩
  | stack, .opener b p :: rest => matchBrackets (⟨b, p⟩ :: stack) rest
  | [], .closer b p :: rest => ⟨p, .unexpected b⟩ :: matchBrackets [] rest
  | o :: stack, .closer b p :: rest =>
    if o.bracket = b then matchBrackets stack rest
    else ⟨p, .mismatched o.bracket o.position.line b⟩ :: matchBrackets stack rest

def bracketErrors (s : List Char) : List BracketError := matchBrackets [] (bracketTokens ⟨1, 1⟩ s)

def quotedChar (c : Char) : String := "'" ++ String.singleton c ++ "'"

def BracketFault.message : BracketFault → String
  | .unexpected b => "Unexpected closing bracket " ++ quotedChar b.closing
  | .mismatched o _ b =>
    "Mismatched brackets: expected " ++ quotedChar o.closing ++ " but found " ++ quotedChar b.closing
  | .unclosed b => "Unclosed bracket " ++ quotedChar b.opening

def BracketFault.suggestion : BracketFault → String
  | .unexpected b => "Remove the extra " ++ quotedChar b.closing ++ " or add matching opening bracket"
  | .mismatched o line b =>
    "Change " ++ quotedChar b.closing ++ " to match opening bracket " ++ quotedChar o.opening ++
      " at line " ++ toString line
  | .unclosed b => "Add closing bracket " ++ quotedChar b.closing

/-- A bracket error as a diagnostic. -/
def BracketError.issue (e : BracketError) : Issue where
  kind := "bracket-mismatch"
  mark := { line := e.position.line, column := e.position.column, length := some 1 }
  message := e.fault.message
  suggestion := e.fault.suggestion

end CadenceUplift
