import CadenceUplift.Text.Lines

namespace CadenceUplift

/-- The two kinds of text that are not code. -/
inductive LiteralKind where
  | comment
  | string
deriving DecidableEq, Repr, Inhabited

/-- A comment or a string, as offsets; `stop` is the first offset after it. -/
structure Literal where
  start : Nat
  stop : Nat
  kind : LiteralKind
deriving DecidableEq, Repr, Inhabited

namespace Literal

/-- Where a reader of source text stands. -/
inductive Mode where
  | code
  /-- In the line comment that starts at `start`. -/
  | line (start : Nat)
  /-- In the block comment that starts at `start`, with `depth` comments to close inside it before
  its own end. -/
  | block (start depth : Nat)
  /-- In the string that starts at `start`. -/
  | string (start : Nat)
deriving DecidableEq, Repr, Inhabited

/-- Literals of the text from offset `i` on, for a reader in the given mode there. -/
def scan : Mode → Nat → List Char → List Literal
  | .code, _, [] => []
  | .line s, i, [] => [⟨s, i, .comment⟩]
  | .block s _, i, [] => [⟨s, i, .comment⟩]
  | .string s, i, [] => [⟨s, i, .string⟩]
  | .code, i, '/' :: '/' :: r => scan (.line i) (i + 2) r
  | .code, i, '/' :: '*' :: r => scan (.block i 0) (i + 2) r
  | .code, i, '"' :: r => scan (.string i) (i + 1) r
  | .code, i, _ :: r => scan .code (i + 1) r
  | .line s, i, '\n' :: r => ⟨s, i, .comment⟩ :: scan .code (i + 1) r
  | .line s, i, _ :: r => scan (.line s) (i + 1) r
  | .block s d, i, '/' :: '*' :: r => scan (.block s (d + 1)) (i + 2) r
  | .block s 0, i, '*' :: '/' :: r => ⟨s, i + 2, .comment⟩ :: scan .code (i + 2) r
  | .block s (d + 1), i, '*' :: '/' :: r => scan (.block s d) (i + 2) r
  | .block s d, i, _ :: r => scan (.block s d) (i + 1) r
  | .string s, i, '\\' :: _ :: r => scan (.string s) (i + 2) r
  | .string s, i, '"' :: r => ⟨s, i + 1, .string⟩ :: scan .code (i + 1) r
  | .string s, i, '\n' :: r => ⟨s, i, .string⟩ :: scan .code (i + 1) r
  | .string s, i, _ :: r => scan (.string s) (i + 1) r

end Literal

/-- The comments and strings of a text, from left to right. -/
def literals (s : List Char) : List Literal := Literal.scan .code 0 s

/-- Literals in order, with their first offsets laid out for look-up. -/
structure LiteralIndex where
  literals : Array Literal
  starts : Array Nat
deriving Repr, Inhabited

def LiteralIndex.ofList (ls : List Literal) : LiteralIndex :=
  ⟨ls.toArray, (ls.map (·.start)).toArray⟩

/-- The offset lies in one of the literals: it is looked up in the last one that starts at or before
it. -/
def LiteralIndex.covers (ix : LiteralIndex) (offset : Nat) : Bool :=
  match Text.countUpTo ix.starts offset with
  | 0 => false
  | n + 1 =>
    match ix.literals[n]? with
    | some l => decide (l.start ≤ offset) && decide (offset < l.stop)
    | none => false

/-- The literals of a text, prepared for look-up. -/
def literalIndex (s : List Char) : LiteralIndex := .ofList (literals s)

end CadenceUplift
