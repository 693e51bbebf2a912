import CadenceUplift.Diagnostic.Basic
import CadenceUplift.Legacy.Shapes
import CadenceUplift.Pattern.Match

namespace CadenceUplift

open Pattern Legacy

/-- A function declaration up to its opening bracket: group 1 is the name. -/
def functionPattern : Pattern :=
  all (edge :: chars "fun" ++ [many1 blank, .group 1 (all plainName), many blank, .char '('])

def returnValuePattern : Pattern :=
  all (edge :: chars "return" ++ [many1 gap, .member { negated := true, items := [.blank, .single '\x7d'] }])

def interfacePattern : Pattern := all (edge :: chars "interface" ++ [many1 blank, nameStart])

/-- The functions that never return a value. -/
def lifecycleFunctions : List String := ["init", "destroy"]

/-- How many lines from its declaration on a function's body is searched for a return statement. -/
def returnLookahead : Nat := 20

def occurrences (c : Char) (s : List Char) : Nat := s.count c

/-- Reads the braces of a line: the stack tells of each open brace whether it opens an interface, and
the flag whether the next brace will. -/
def braceStep (state : List Bool × Bool) (c : Char) : List Bool × Bool :=
  if c = '\x7b' then (state.2 :: state.1, false)
  else if c = '\x7d' then (state.1.tail, state.2)
  else state

/-- For each line, whether it starts inside the body of an interface. -/
def interfaceFlags : List Bool × Bool → List (List Char) → List Bool
  | _, [] => []
  | (stack, pending), line :: rest =>
    let pending := pending || interfacePattern.occursIn line
    stack.any id :: interfaceFlags (line.foldl braceStep (stack, pending)) rest

/-- The offset of the bracket that closes the first one met, when `depth` are open already. -/
def closingRound : Nat → Nat → List Char → Option Nat
  | _, _, [] => none
  | i, depth, c :: r =>
    if c = '(' then closingRound (i + 1) (depth + 1) r
    else if c = ')' then if depth ≤ 1 then some i else closingRound (i + 1) (depth - 1) r
    else closingRound (i + 1) depth r

/-- What follows the parameter list of a signature; nothing when the list is not closed. -/
def afterParameters (signature : List Char) : List Char :=
  match closingRound 0 0 (signature.dropWhile (· != '(')) with
  | some i => (signature.dropWhile (· != '(')).drop (i + 1)
  | none => []

/-- The next line that is not blank starts with a brace. -/
def blockFollows : List (List Char) → Bool
  | [] => false
  | line :: rest =>
    if Text.allBlank line then blockFollows rest
    else Text.startsWith (Text.trimLeft line) ['\x7b']

def braceBalance (s : List Char) : Int := (occurrences '\x7b' s : Int) - occurrences '\x7d' s

/-- Whether a value is returned in the segments before the braces that the first one opens balance;
`opened` tells whether a brace has been met. -/
def returnsValue : Int → Bool → List (List Char) → Bool
  | _, _, [] => false
  | depth, opened, segment :: rest =>
    let opened := opened || segment.contains '\x7b'
    if opened && returnValuePattern.occursIn segment then true
    else
      let depth := depth + braceBalance segment
      if opened && decide (depth ≤ 0) then false else returnsValue depth opened rest

/-- What is wrong with a function declaration. -/
inductive FunctionFault where
  | incompleteSignature
  | missingBody
  | missingReturnType
deriving DecidableEq, Repr, Inhabited

/-- A fault of the function declared at the given place. -/
structure FunctionError where
  line : Nat
  column : Nat
  name : String
  fault : FunctionFault
deriving DecidableEq, Repr, Inhabited

/-- The faults of a function whose declaration matches at `m` on a line, given the lines after it and
whether the line starts inside an interface. -/
def functionFaults (line : List Char) (m : Match) (inInterface : Bool) (rest : List (List Char)) :
    List FunctionFault :=
  let name := String.ofList (m.groupText line.toArray 1)
  let signature := line.drop m.start
  if occurrences ')' signature < occurrences '(' signature then [.incompleteSignature]
  else
    let after := afterParameters signature
    let hasBody := signature.contains '\x7b' || signature.contains ';' || blockFollows rest
    let typed := Text.startsWith (Text.trimLeft after) [':']
    (if hasBody || inInterface then [] else [.missingBody]) ++
      (if lifecycleFunctions.contains name || typed then []
      else if returnsValue 0 false (after :: rest.take (returnLookahead - 1)) then [.missingReturnType]
      else [])

def functionErrorsFrom : Nat → List Bool → List (List Char) → List FunctionError
  | index, flag :: flags, line :: rest =>
    (match functionPattern.search line.toArray with
      | none => []
      | some m =>
        (functionFaults line m flag rest).map fun f =>
          ⟨index, m.start + 1, String.ofList (m.groupText line.toArray 1), f⟩) ++
      functionErrorsFrom (index + 1) flags rest
  | _, _, _ => []

def functionErrors (ls : List (List Char)) : List FunctionError :=
  functionErrorsFrom 1 (interfaceFlags ([], false) ls) ls

def FunctionFault.kind : FunctionFault → String
  | .incompleteSignature => "incomplete-signature"
  | .missingBody => "missing-body"
  | .missingReturnType => "missing-return-type"

def FunctionFault.message (name : String) : FunctionFault → String
  | .incompleteSignature => "Incomplete function signature for '" ++ name ++ "'"
  | .missingBody => "Function '" ++ name ++ "' is missing implementation body"
  | .missingReturnType => "Function '" ++ name ++ "' has return statement but no return type specified"

def FunctionFault.suggestion : FunctionFault → String
  | .incompleteSignature => "Complete the function signature with parameters and return type"
  | .missingBody => "Add function body with curly braces \x7b \x7d"
  | .missingReturnType => "Add return type to function signature (e.g., \": String\", \": Int\", etc.)"

/-- A function error as a diagnostic. -/
def FunctionError.issue (e : FunctionError) : Issue where
  kind := e.fault.kind
  mark := { line := e.line, column := e.column }
  message := e.fault.message e.name
  suggestion := e.fault.suggestion

end CadenceUplift
