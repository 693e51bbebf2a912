import CadenceUplift.Text.Class

namespace CadenceUplift.Yaml

/-- A place in a text: what follows it, and where it is, counted from zero. -/
structure Cursor where
  rest : List Char
  index : Nat := 0
  line : Nat := 0
  column : Nat := 0
deriving DecidableEq, Repr, Inhabited

/-- Characters that end a line. -/
def isBreak (c : Char) : Bool :=
  c == '\n' || c.toNat == 0x85 || c.toNat == 0x2028 || c.toNat == 0x2029

/-- Spaces and tabs. -/
def isBlankMark (c : Char) : Bool := c == ' ' || c == '\t'

/-- Characters that part tokens: spaces, tabs and line ends. -/
def isGap (c : Char) : Bool := isBlankMark c || isBreak c

/-- A text ends here or goes on with a gap. -/
def atGap (s : List Char) : Bool := s.head?.all isGap

/-- A text ends here, or its line does. -/
def atBreak (s : List Char) : Bool := s.head?.all isBreak

/-- A text ends here, or goes on with a space or a line end. -/
def atSpace (s : List Char) : Bool := s.head?.all fun c => c == ' ' || isBreak c

def breakChar (c : Char) : Char := if c.toNat == 0x85 then '\n' else c

/-- The mark of the order of octets, which takes no column. -/
def isOrderMark (c : Char) : Bool := c.toNat == 0xfeff

/-- Characters that a YAML text may hold. -/
def isPrintable (c : Char) : Bool :=
  let n := c.toNat
  n == 9 || n == 10 || n == 13 || (32 ≤ n && n ≤ 0x7e) || n == 0x85 || (0xa0 ≤ n && n ≤ 0xfffd) ||
    0x10000 ≤ n

/-- Three characters that mark the bounds of a document stand here. -/
def atBound (mark s : List Char) : Bool := Text.startsWith s mark && atGap (s.drop mark.length)

/-- A document starts or ends here. -/
def atAnyBound (s : List Char) : Bool := atBound ['-', '-', '-'] s || atBound ['.', '.', '.'] s

namespace Cursor

/-- The place after one character. -/
def step (k : Cursor) : Cursor :=
  match k.rest with
  | [] => k
  | c :: r =>
    if isBreak c then ⟨r, k.index + 1, k.line + 1, 0⟩
    else ⟨r, k.index + 1, k.line, if isOrderMark c then k.column else k.column + 1⟩

/-- The place after some characters without line ends. -/
def skip (k : Cursor) (n : Nat) : Cursor :=
  let columns := ((k.rest.take n).filter fun c => !isOrderMark c).length
  ⟨k.rest.drop n, k.index + n, k.line, k.column + columns⟩

/-- The characters that satisfy a test, which no line end does, and the place after them. -/
def span (k : Cursor) (p : Char → Bool) : List Char × Cursor :=
  let run := k.rest.takeWhile p
  (run, k.skip run.length)

/-- The place after spaces. -/
def pastSpaces (k : Cursor) : Cursor := (k.span (· == ' ')).2

/-- The place after a comment, if one starts here: the end of its line. -/
def pastComment (k : Cursor) : Cursor :=
  match k.rest with
  | '#' :: _ => (k.span fun c => !isBreak c).2
  | _ => k

/-- What a line end here contributes, and the place after it. -/
def lineEnd? (k : Cursor) : Option (Char × Cursor) :=
  match k.rest with
  | c :: _ => if isBreak c then some (breakChar c, k.step) else none
  | [] => none

/-- The place after a line end, if one stands here. -/
def pastBreak (k : Cursor) : Cursor := ((k.lineEnd?).map (·.2)).getD k

/-- The place of the next token, and whether a line end lies before it; `fuel` bounds the number of
lines. -/
def token (k : Cursor) : Nat → Bool → Cursor × Bool
  | 0, broke => (k, broke)
  | fuel + 1, broke =>
    let t := k.pastSpaces.pastComment
    match t.lineEnd? with
    | some (_, next) => token next fuel true
    | none => (t, broke)

end Cursor

end CadenceUplift.Yaml
