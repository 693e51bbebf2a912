import CadenceUplift.Pattern.Basic
import CadenceUplift.Pattern.Fault

namespace CadenceUplift.Pattern

/-- A character, or a backslash and the character after it, with its offset. -/
structure Token where
  pos : Nat
  escaped : Bool
  char : Char
deriving DecidableEq, Repr, Inhabited

/-- Cuts a text into tokens; the flag tells whether a lone backslash ends it. -/
def tokenize : Nat → List Char → List Token × Bool
  | _, [] => ([], false)
  | _, ['\\'] => ([], true)
  | i, '\\' :: c :: r =>
    let rest := tokenize (i + 2) r
    (⟨i, true, c⟩ :: rest.1, rest.2)
  | i, c :: r =>
    let rest := tokenize (i + 1) r
    (⟨i, false, c⟩ :: rest.1, rest.2)

/-- The token as it is written. -/
def Token.text (t : Token) : String :=
  if t.escaped then String.ofList ['\\', t.char] else String.singleton t.char

/-- The token is this character, not escaped. -/
def Token.isPlain (t : Token) (c : Char) : Bool := !t.escaped && t.char == c

/-- Flags that change what parts of a pattern mean. -/
structure Flags where
  ignoreCase : Bool := false
  multiline : Bool := false
  dotAll : Bool := false
  verbose : Bool := false
  ascii : Bool := false
  unicode : Bool := false
  noRepetition : Bool := false
deriving DecidableEq, Repr, Inhabited

/-- What the reader of a pattern keeps: the tokens to come, whether a lone backslash ends them, and
the groups met so far. -/
structure Reader where
  source : List Char
  tokens : List Token
  dangling : Bool
  groups : Nat := 0
  names : List (String × Nat) := []
  /-- The groups that are complete, each with its width. -/
  closed : List (Nat × Width) := []
  /-- Within a look behind: how many groups stood before it. -/
  behind : Option Nat := none
  /-- Groups that conditions refer to, each with the place where it does first. -/
  conditions : List (Nat × Nat) := []
  flags : Flags := {}
  /-- The characters that the names in the text stand for. -/
  characters : List (String × Char) := []
  /-- The first fault that is told only when the whole text has been read, with its offset. -/
  later : Option (Nat × PatternFault) := none
deriving Repr, Inhabited

def Reader.isClosed (r : Reader) (n : Nat) : Bool := (r.closed.lookup n).isSome

def Reader.groupWidth (r : Reader) (n : Nat) : Width := (r.closed.lookup n).getD (0, none)

/-- Reading steps that may find a fault. -/
abbrev Read := StateT Reader (Except PatternError)

def faultAt {α : Type} (fault : PatternFault) (pos : Nat) : Read α := do
  throw ⟨fault, (← get).source, some pos⟩

/-- The offset of the next token, or of the end. -/
def tell : Read Nat := do
  let r ← get
  match r.tokens with
  | t :: _ => return t.pos
  | [] => return r.source.length

/-- Refuses a lone backslash that comes next. -/
def checkDangling : Read Unit := do
  let r ← get
  if r.dangling && r.tokens.isEmpty then faultAt .danglingEscape (r.source.length - 1)

/-- The next token, left in place. -/
def peek : Read (Option Token) := do return (← get).tokens.head?

def next : Read (Option Token) := do
  match (← get).tokens with
  | [] => return none
  | t :: rest =>
    modify fun r => { r with tokens := rest }
    checkDangling
    return some t

/-- Takes the next token if it is this character. -/
def accept (c : Char) : Read Bool := do
  match ← peek with
  | some t =>
    if t.isPlain c then
      let _ ← next
      return true
    else return false
  | none => return false

/-- Takes up to `n` plain characters that `ok` accepts. -/
def takeWhile (ok : Char → Bool) : Nat → Read (List Char)
  | 0 => return []
  | n + 1 => do
    match ← peek with
    | some t =>
      if !t.escaped && ok t.char then
        let _ ← next
        return t.char :: (← takeWhile ok n)
      else return []
    | none => return []

/-- Takes a name up to its closing character; `fuel` bounds its length, and `missing` is the fault of an
empty one. -/
def takeName (closer : Char) (missing : PatternFault) : Nat → String → Read String
  | 0, _ => do faultAt missing (← tell)
  | fuel + 1, taken => do
    match ← next with
    | none =>
      let here ← tell
      if taken.isEmpty then faultAt missing here
      else faultAt (.unclosedName closer) (here - taken.length)
    | some t =>
      if t.isPlain closer then
        if taken.isEmpty then faultAt missing ((← tell) - 1) else return taken
      else takeName closer missing fuel (taken ++ t.text)

def takeGroupName (closer : Char) : Read String := do
  takeName closer .noGroupName ((← get).tokens.length + 1) ""

/-- The number of a group that a text writes, if it writes one. -/
def groupNumber? (name : String) : Option Nat :=
  match wholeNumber name.toList with
  | .ok n => if 0 ≤ n then some n.toNat else none
  | .error _ => none

/-- The control characters that have a letter escape, and the backslash. -/
def letterEscape? : Char → Option Char
  | 'a' => some (Char.ofNat 7)
  | 'b' => some (Char.ofNat 8)
  | 'f' => some (Char.ofNat 12)
  | 'n' => some '\n'
  | 'r' => some '\r'
  | 't' => some '\t'
  | 'v' => some (Char.ofNat 11)
  | '\\' => some '\\'
  | _ => none

end CadenceUplift.Pattern
