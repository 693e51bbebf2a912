import CadenceUplift.Data.Yaml.Cursor
import CadenceUplift.Data.Yaml.Fault
import CadenceUplift.Text.Half

namespace CadenceUplift.Yaml

/-- Line ends folded into one text: a single newline becomes a space, further ones stay. -/
def folded (first : Char) (more : List Char) : List Char :=
  if first != '\n' then first :: more else if more.isEmpty then [' '] else more

/-- The characters that end a plain scalar between brackets. -/
def isFlowMark (c : Char) : Bool := c == ',' || c == '?' || c == '[' || c == ']' || c == '\x7b' || c == '\x7d'

/-- A plain scalar cannot go on here; `flow` tells that it stands between brackets. -/
def plainEnds (flow : Bool) : List Char → Bool
  | [] => true
  | ':' :: r => atGap r || (flow && r.head?.any fun c => c != '?' && isFlowMark c)
  | c :: _ => isGap c || (flow && isFlowMark c)

/-- The characters up to the place where a plain scalar cannot go on. -/
def plainRun (flow : Bool) : List Char → List Char
  | [] => []
  | c :: r => if plainEnds flow (c :: r) then [] else c :: plainRun flow r

/-- What lies between two parts of a plain scalar. -/
structure PlainGap where
  /-- What the gap contributes to the text; nothing ends the scalar. -/
  text : List Char
  place : Cursor
  /-- The gap holds a line end. -/
  broke : Bool
deriving Repr, Inhabited

/-- The line ends from the start of a line on, spaces passed over; nothing when a document ends. -/
def gapLines : Nat → Cursor → Option (List Char) × Cursor
  | 0, k => (some [], k)
  | fuel + 1, k =>
    let t := k.pastSpaces
    match t.lineEnd? with
    | none => (some [], t)
    | some (c, next) =>
      if atAnyBound next.rest then (none, next)
      else
        let (more, k') := gapLines fuel next
        (more.map (c :: ·), k')

def plainGap (k : Cursor) : PlainGap :=
  let (spaces, t) := k.span (· == ' ')
  match t.lineEnd? with
  | none => ⟨spaces, t, false⟩
  | some (c, next) =>
    if atAnyBound next.rest then ⟨[], next, true⟩
    else
      match gapLines (next.rest.length + 1) next with
      | (none, k') => ⟨[], k', true⟩
      | (some more, k') => ⟨folded c more, k', true⟩

/-- A plain scalar after a gap: its text, the place after it and the gap behind it, and whether that gap
holds a line end. Outside brackets it goes on while its lines start at `indent` or further right. -/
def plainFrom (flow : Bool) (indent : Nat) : Nat → PlainGap → List Char × Cursor × Bool
  | 0, gap => ([], gap.place, gap.broke)
  | fuel + 1, gap =>
    let k := gap.place
    let run := if k.rest.head? == some '#' then [] else plainRun flow k.rest
    if run.isEmpty then ([], k, gap.broke)
    else
      let next := plainGap (k.skip run.length)
      if next.text.isEmpty || next.place.rest.head? == some '#' ||
          (!flow && next.place.column < indent) then
        (gap.text ++ run, next.place, next.broke)
      else
        let (text, k', broke) := plainFrom flow indent fuel next
        (gap.text ++ run ++ text, k', broke)

/-- The plain scalar at a place; `room` bounds its length. -/
def plainScalar (room : Nat) (flow : Bool) (indent : Nat) (k : Cursor) : List Char × Cursor × Bool :=
  plainFrom flow indent room ⟨[], k, false⟩

/-- The line ends inside a quoted scalar, from the start of a line on; no document may end there. -/
def quotedLines : Nat → Cursor → Except Fault (List Char × Cursor)
  | 0, _ => .error .malformed
  | fuel + 1, k =>
    if atAnyBound k.rest then .error .malformed
    else
      let t := (k.span isBlankMark).2
      match t.lineEnd? with
      | none => .ok ([], t)
      | some (c, next) => do
        let (more, k') ← quotedLines fuel next
        return (c :: more, k')

/-- Blanks inside a quoted scalar, with the line ends among them folded. -/
def quotedGap (k : Cursor) : Except Fault (List Char × Cursor) :=
  let (blanks, t) := k.span isBlankMark
  match t.lineEnd? with
  | none => .ok (blanks, t)
  | some (c, next) => do
    let (more, k') ← quotedLines (next.rest.length + 1) next
    return (folded c more, k')

/-- The characters that have an escape of one character. -/
def simpleEscape? : Char → Option Char
  | '0' => some (Char.ofNat 0)
  | 'a' => some (Char.ofNat 7)
  | 'b' => some (Char.ofNat 8)
  | 't' | '\t' => some '\t'
  | 'n' => some '\n'
  | 'v' => some (Char.ofNat 11)
  | 'f' => some (Char.ofNat 12)
  | 'r' => some '\r'
  | 'e' => some (Char.ofNat 27)
  | ' ' => some ' '
  | '"' => some '"'
  | '\\' => some '\\'
  | '/' => some '/'
  | 'N' => some (Char.ofNat 0x85)
  | '_' => some (Char.ofNat 0xa0)
  | 'L' => some (Char.ofNat 0x2028)
  | 'P' => some (Char.ofNat 0x2029)
  | _ => none

def codeLength? : Char → Option Nat
  | 'x' => some 2
  | 'u' => some 4
  | 'U' => some 8
  | _ => none

/-- The escape whose backslash stands just before a place: what it contributes, and the place after
it. -/
def quotedEscape (k : Cursor) : Except Fault (List Char × Cursor) :=
  match k.rest with
  | [] => .error .malformed
  | c :: r =>
    match simpleEscape? c, codeLength? c with
    | some d, _ => .ok ([d], k.step)
    | none, some n =>
      let digits := r.take n
      if digits.length = n ∧ digits.all isHex then
        let code := numberOf 16 digits
        if code < 0x110000 then .ok ([Text.ofCode code], k.skip (n + 1)) else .error (.noCharacter code)
      else .error .malformed
    | none, none => if isBreak c then quotedLines (r.length + 1) k.step else .error .malformed

/-- The rest of a quoted scalar from a place after its opening quote on; `double` tells the kind of
quote. -/
def quotedFrom (double : Bool) : Nat → Cursor → Except Fault (List Char × Cursor)
  | 0, _ => .error .malformed
  | fuel + 1, k =>
    match k.rest with
    | [] => .error .malformed
    | c :: r =>
      let go (part : List Char) (next : Cursor) : Except Fault (List Char × Cursor) := do
        let (more, k') ← quotedFrom double fuel next
        return (part ++ more, k')
      if isGap c then do
        let (part, next) ← quotedGap k
        go part next
      else if double && c == '\\' then do
        let (part, next) ← quotedEscape k.step
        go part next
      else if c == (if double then '"' else '\'') then
        if !double && r.head? == some '\'' then go ['\''] (k.skip 2) else .ok ([], k.step)
      else go [c] k.step

/-- The quoted scalar whose opening quote stands at a place; `room` bounds its length. -/
def quotedScalar (room : Nat) (k : Cursor) : Except Fault (List Char × Cursor) :=
  quotedFrom (k.rest.head? == some '"') room k.step

/-- What happens to the line ends after a block scalar. -/
inductive Chomping where
  | clip
  | strip
  | keep
deriving DecidableEq, Repr, Inhabited

/-- The chomping that a sign asks for. -/
def chomping? : Char → Option Chomping
  | '+' => some .keep
  | '-' => some .strip
  | _ => none

/-- A digit other than zero, as a number. -/
def increment? (c : Char) : Option Nat :=
  if c.isDigit && c != '0' then some (digitOf c) else none

/-- The marks after the sign of a block scalar, a sign and a digit in either order, and how many
characters they take. -/
def blockMarks (s : List Char) : Chomping × Option Nat × Nat :=
  match s with
  | a :: b :: _ =>
    match chomping? a, increment? a, chomping? b, increment? b with
    | some c, _, _, some n => (c, some n, 2)
    | _, some n, some c, _ => (c, some n, 2)
    | some c, _, _, none => (c, none, 1)
    | none, some n, none, _ => (.clip, some n, 1)
    | none, none, _, _ => (.clip, none, 0)
  | [a] =>
    match chomping? a, increment? a with
    | some c, _ => (c, none, 1)
    | none, some n => (.clip, some n, 1)
    | none, none => (.clip, none, 0)
  | [] => (.clip, none, 0)

/-- The line ends before the first line of a block scalar, the column of the deepest line among those
passed and that one, and its place. -/
def firstLine : Nat → Nat → Cursor → List Char × Nat × Cursor
  | 0, deepest, k => ([], deepest, k)
  | fuel + 1, deepest, k =>
    let t := k.pastSpaces
    let deepest := max deepest t.column
    match t.lineEnd? with
    | none => ([], deepest, t)
    | some (c, next) =>
      let (more, d, k') := firstLine fuel deepest next
      (c :: more, d, k')

/-- The place after spaces up to a column. -/
def indented (indent : Nat) (k : Cursor) : Cursor :=
  k.skip (min (indent - k.column) (k.rest.takeWhile (· == ' ')).length)

/-- Empty lines of a block scalar and the place after them. -/
def emptyLines (indent : Nat) : Nat → Cursor → List Char × Cursor
  | 0, k => ([], k)
  | fuel + 1, k =>
    let t := indented indent k
    match t.lineEnd? with
    | none => ([], t)
    | some (c, next) =>
      let (more, k') := emptyLines indent fuel next
      (c :: more, k')

def atLine (indent : Nat) (k : Cursor) : Bool := k.column == indent && !k.rest.isEmpty

/-- The lines of a block scalar from the start of one on: their text, the end of the last line, the empty
lines after it, and the place after those. -/
def blockLines (fold : Bool) (indent : Nat) : Nat → Cursor → List Char × List Char × List Char × Cursor
  | 0, k => ([], [], [], k)
  | fuel + 1, k =>
    let leading := !(k.rest.head?.any isBlankMark)
    let (text, after) := k.span fun c => !isBreak c
    let (ending, next) := match after.lineEnd? with
      | some (c, next) => ([c], next)
      | none => ([], after)
    let (breaks, t) := emptyLines indent (next.rest.length + 1) next
    if atLine indent t then
      let joint :=
        if fold && ending == ['\n'] && leading && !(t.rest.head?.any isBlankMark) then
          if breaks.isEmpty then [' '] else []
        else ending
      let (more, lastEnd, trailing, k') := blockLines fold indent fuel t
      (text ++ joint ++ breaks ++ more, lastEnd, trailing, k')
    else (text, ending, breaks, t)

/-- The block scalar whose sign stands at a place, inside a block whose lines start at `least` or further
right. -/
def blockScalar (least : Nat) (k : Cursor) : Except Fault (List Char × Cursor) :=
  let fold := k.rest.head? == some '>'
  let marks := k.step
  let (chomping, given, size) := blockMarks marks.rest
  let header := marks.skip size
  let ending := header.pastSpaces.pastComment
  if !atSpace header.rest || !atBreak ending.rest then .error .malformed
  else
    let body := ending.pastBreak
    let room := body.rest.length + 1
    let least := max 1 least
    let (indent, breaks, start) := match given with
      | some n =>
        let indent := least + n - 1
        let (breaks, start) := emptyLines indent room body
        (indent, breaks, start)
      | none =>
        let (breaks, deepest, start) := firstLine room 0 body
        (max least deepest, breaks, start)
    if atLine indent start then
      let (text, lastEnd, trailing, k') := blockLines fold indent room start
      let tail := match chomping with
        | .strip => []
        | .clip => lastEnd
        | .keep => lastEnd ++ trailing
      .ok (breaks ++ text ++ tail, k')
    else .ok (if chomping == .keep then breaks else [], start)

end CadenceUplift.Yaml
