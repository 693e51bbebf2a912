import CadenceUplift.Diagnostic.Function

namespace CadenceUplift

open Pattern Legacy

/-- A statement that needs a terminator. -/
def terminatedPattern : Pattern :=
  all [.textStart, wordsOf ["let", "var", "emit", "destroy", "panic"], blank]

/-- Line ends after which a statement is complete or goes on. -/
def continuations : List String := [";", "\x7b", "\x7d", "(", "[", ",", "=", "<-", "??", "&&", "||"]

/-- What is wrong with a statement. -/
inductive StatementFault where
  | bareVariable
  | unterminated
deriving DecidableEq, Repr, Inhabited

/-- A fault of a statement at the given place. -/
structure StatementError where
  line : Nat
  column : Nat
  fault : StatementFault
deriving DecidableEq, Repr, Inhabited

/-- A variable without type and without value. -/
def isBareVariable (trimmed : List Char) : Bool :=
  (Text.startsWith trimmed "var ".toList || Text.startsWith trimmed "let ".toList) &&
    !trimmed.contains ':' && !trimmed.contains '=' && !Text.hasText trimmed "<-".toList

/-- A statement that lacks its terminator. -/
def isUnterminated (trimmed : List Char) : Bool :=
  (terminatedPattern.matchAt trimmed.toArray 0).isSome &&
    !continuations.any fun e => Text.endsWith trimmed e.toList

/-- The fault of the statement on a line, if it has one. -/
def statementError? (index : Nat) (line : List Char) : Option StatementError :=
  let trimmed := Text.trim line
  let indent := (line.takeWhile Text.isBlank).length
  if isBareVariable trimmed then some ⟨index, indent + 1, .bareVariable⟩
  else if isUnterminated trimmed then some ⟨index, indent + trimmed.length, .unterminated⟩
  else none

def statementErrorsFrom : Nat → List (List Char) → List StatementError
  | _, [] => []
  | index, line :: rest => (statementError? index line).toList ++ statementErrorsFrom (index + 1) rest

def statementErrors (ls : List (List Char)) : List StatementError := statementErrorsFrom 1 ls

def StatementFault.message : StatementFault → String
  | .bareVariable => "Variable declaration is missing type annotation or initialization"
  | .unterminated => "Statement appears to be missing semicolon"

def StatementFault.suggestion : StatementFault → String
  | .bareVariable => "Add type annotation (: Type) or initialization (= value)"
  | .unterminated => "Add semicolon at the end of the statement"

/-- A statement error as a diagnostic. -/
def StatementError.issue (e : StatementError) : Issue where
  kind := "incomplete-statement"
  mark := { line := e.line, column := e.column }
  message := e.fault.message
  suggestion := e.fault.suggestion

end CadenceUplift
