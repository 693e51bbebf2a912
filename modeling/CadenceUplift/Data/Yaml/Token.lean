import CadenceUplift.Data.Yaml.Scalar
import CadenceUplift.Text.Utf8

namespace CadenceUplift.Yaml

/-- A line of directions before a document. -/
inductive Directive where
  | version (major : Nat)
  | handle (name expansion : String)
  | other
deriving DecidableEq, Repr, Inhabited

/-- A token. -/
inductive Token where
  | directive (d : Directive)
  | documentStart
  | documentEnd
  | blockSequence
  | blockMapping
  | blockEnd
  | flowSequence
  | flowSequenceEnd
  | flowMapping
  | flowMappingEnd
  | comma
  | dash
  | key
  | value
  | reference (anchor : String)
  | anchor (name : String)
  /-- A tag: its handle, if it has one, and the rest of it. -/
  | tag (handle : Option String) (rest : String)
  | scalar (text : String) (plain : Bool)
deriving DecidableEq, Repr, Inhabited

/-- A token with those that turned out to belong before it. -/
structure Lexeme where
  before : List Token := []
  token : Token
deriving Repr, Inhabited

/-- Something that a colon may turn into a key: the depth of brackets it stands in, the number of its
first token, its place, and whether it can be nothing but a key. -/
structure PendingKey where
  depth : Nat
  number : Nat
  index : Nat
  line : Nat
  column : Nat
  required : Bool
deriving Repr, Inhabited

/-- What is known while tokens are read. -/
structure Layout where
  place : Cursor
  /-- The number of open brackets. -/
  depth : Nat := 0
  /-- The column of the innermost block, and those of the blocks around it. -/
  indent : Int := -1
  outer : List Int := []
  keyAllowed : Bool := true
  pending : List PendingKey := []
  lexemes : Array Lexeme := #[]
deriving Repr, Inhabited

/-- Steps that read tokens. -/
abbrev Scan := StateT Layout (Except Fault)

namespace Scan

/-- The text has not the form of a document. -/
def malformed {α : Type} : Scan α := throw .malformed

def place : Scan Cursor := return (← get).place

def moveTo (k : Cursor) : Scan Unit := modify fun l => { l with place := k }

def emit (t : Token) : Scan Unit :=
  modify fun l => { l with lexemes := l.lexemes.push { token := t } }

/-- Adds a token that takes the given number of characters. -/
def emitMark (t : Token) (size : Nat) : Scan Unit := do
  moveTo ((← place).skip size)
  emit t

/-- Says whether a key may come next. -/
def allowKey (b : Bool) : Scan Unit := modify fun l => { l with keyAllowed := b }

def keyReach : Nat := 1024

/-- Gives up pending keys whose line or reach is over; one that had to be a key is a fault. -/
def dropStale : Scan Unit := do
  let l ← get
  let stale (p : PendingKey) : Bool := p.line != l.place.line || p.index + keyReach < l.place.index
  if l.pending.any fun p => stale p && p.required then malformed
  set { l with pending := l.pending.filter fun p => !stale p }

/-- Gives up the pending key between the innermost brackets; one that had to be a key is a fault. -/
def dropPending : Scan Unit := do
  let l ← get
  if l.pending.any fun p => p.depth == l.depth && p.required then malformed
  set { l with pending := l.pending.filter fun p => p.depth != l.depth }

/-- Notes that the next token may start a key. -/
def notePending : Scan Unit := do
  if (← get).keyAllowed then
    dropPending
    modify fun l =>
      let k := l.place
      let required := l.depth == 0 && l.indent == k.column
      { l with pending := ⟨l.depth, l.lexemes.size, k.index, k.line, k.column, required⟩ :: l.pending }

/-- Ends blocks that start further right than a column; there are no more than `fuel`. -/
def closeBlocks (column : Int) : Nat → Scan Unit
  | 0 => return ()
  | fuel + 1 => do
    let l ← get
    if l.depth == 0 && column < l.indent then
      set { l with indent := l.outer.headD (-1), outer := l.outer.tail }
      emit .blockEnd
      closeBlocks column fuel

/-- Ends blocks that start further right than a column. -/
def unwind (column : Int) : Scan Unit := do closeBlocks column ((← get).outer.length + 1)

/-- Starts a block at a column if none starts there or further right; tells whether it did. -/
def openBlock (column : Nat) : Scan Bool := do
  let l ← get
  if l.indent < column then
    set { l with indent := column, outer := l.indent :: l.outer }
    return true
  else return false

def readBound (t : Token) : Scan Unit := do
  unwind (-1)
  dropPending
  allowKey false
  emitMark t 3

def readOpening (t : Token) : Scan Unit := do
  notePending
  modify fun l => { l with depth := l.depth + 1 }
  allowKey true
  emitMark t 1

def readClosing (t : Token) : Scan Unit := do
  dropPending
  modify fun l => { l with depth := l.depth - 1 }
  allowKey false
  emitMark t 1

def readComma : Scan Unit := do
  allowKey true
  dropPending
  emitMark .comma 1

/-- A mark that may start a block at its column when no bracket is open. -/
def startBlock (block : Token) : Scan Unit := do
  let l ← get
  if l.depth == 0 then
    if !l.keyAllowed then malformed
    if ← openBlock l.place.column then emit block

def readDash : Scan Unit := do
  startBlock .blockSequence
  allowKey true
  dropPending
  emitMark .dash 1

def readKeyMark : Scan Unit := do
  startBlock .blockMapping
  allowKey ((← get).depth == 0)
  dropPending
  emitMark .key 1

/-- The colon in front of a value: what stands before it is a key if one was pending. -/
def readColon : Scan Unit := do
  let l ← get
  match l.pending.find? (·.depth == l.depth) with
  | some p =>
    set { l with pending := l.pending.filter fun q => q.depth != l.depth }
    let opened ← if l.depth == 0 then openBlock p.column else pure false
    let lead := if opened then [Token.blockMapping, .key] else [.key]
    modify fun l => { l with lexemes := l.lexemes.modify p.number fun x => { x with before := lead } }
    allowKey false
  | none =>
    startBlock .blockMapping
    allowKey (l.depth == 0)
    dropPending
  emitMark .value 1

/-- The characters of the names of anchors, directions and handles. -/
def isNameChar (c : Char) : Bool := c.isAlphanum || c == '-' || c == '_'

/-- The name of an anchor after its sign. -/
def readAnchor (token : String → Token) : Scan Unit := do
  notePending
  allowKey false
  let (name, k) := (← place).step.span isNameChar
  let ends := k.rest.head?.all fun c => isGap c || "?:,]\x7d%@`".toList.contains c
  if name.isEmpty || !ends then malformed
  moveTo k
  emit (token (String.ofList name))

def isTagChar (c : Char) : Bool := c.isAlphanum || "-;/?:@&=+$,_.!~*'()[]%".toList.contains c

/-- Octets written as escapes, one after another; none when an escape is not complete. -/
def escapedOctets : List Char → Option (List UInt8)
  | '%' :: a :: b :: r =>
    if isHex a && isHex b then (escapedOctets r).map ((numberOf 16 [a, b]).toUInt8 :: ·) else none
  | '%' :: _ => none
  | _ => some []

/-- The characters of a tag with its escapes read; `fuel` bounds their number. -/
def tagText : Nat → List Char → Option (List Char)
  | 0, _ => some []
  | _, [] => some []
  | fuel + 1, '%' :: r => do
    let octets ← escapedOctets ('%' :: r)
    let text ← (Text.decodeUtf8 octets).toOption
    let more ← tagText fuel (('%' :: r).drop (3 * octets.length))
    return text ++ more
  | fuel + 1, c :: r => (tagText fuel r).map (c :: ·)

/-- The rest of a tag, which must not be empty. -/
def readTagText : Scan String := do
  let (run, k) := (← place).span isTagChar
  if run.isEmpty then malformed
  match tagText (run.length + 1) run with
  | none => malformed
  | some s =>
    moveTo k
    return String.ofList s

/-- The handle of a tag: an exclamation mark, or a name between two of them. -/
def readHandle : Scan String := do
  let k ← place
  match k.rest with
  | '!' :: ' ' :: _ =>
    moveTo k.step
    return "!"
  | '!' :: r =>
    let name := r.takeWhile isNameChar
    if (r.drop name.length).head? != some '!' then malformed
    moveTo (k.skip (name.length + 2))
    return "!" ++ String.ofList name ++ "!"
  | _ => malformed

def readTagToken : Scan Token := do
  let k ← place
  match k.rest.tail with
  | '<' :: _ =>
    moveTo (k.skip 2)
    let text ← readTagText
    let k' ← place
    if k'.rest.head? != some '>' then malformed
    moveTo k'.step
    return .tag none text
  | r =>
    if atGap r then
      moveTo k.step
      return .tag none "!"
    else if (r.takeWhile fun c => c != ' ' && !isBreak c).contains '!' then
      let handle ← readHandle
      return .tag (some handle) (← readTagText)
    else
      moveTo k.step
      return .tag (some "!") (← readTagText)

/-- A tag, which a space or the end of its line must follow. -/
def readTag : Scan Unit := do
  notePending
  allowKey false
  let t ← readTagToken
  if !atSpace (← place).rest then malformed
  emit t

def readDirectiveNumber : Scan Nat := do
  let (digits, k) := (← place).span Char.isDigit
  if digits.isEmpty then malformed
  moveTo k
  return numberOf 10 digits

def readDirectiveValue (name : List Char) : Scan Directive := do
  if name == "YAML".toList then
    moveTo (← place).pastSpaces
    let major ← readDirectiveNumber
    if (← place).rest.head? != some '.' then malformed
    moveTo (← place).step
    let _ ← readDirectiveNumber
    if !atSpace (← place).rest then malformed
    return .version major
  else if name == "TAG".toList then
    moveTo (← place).pastSpaces
    let handle ← readHandle
    if (← place).rest.head? != some ' ' then malformed
    moveTo (← place).pastSpaces
    let expansion ← readTagText
    if !atSpace (← place).rest then malformed
    return .handle handle expansion
  else
    moveTo ((← place).span fun c => !isBreak c).2
    return .other

/-- A direction, with nothing but a comment after it on its line. -/
def readDirective : Scan Unit := do
  unwind (-1)
  dropPending
  allowKey false
  let (name, k) := (← place).step.span isNameChar
  if name.isEmpty || !atSpace k.rest then malformed
  moveTo k
  let d ← readDirectiveValue name
  let ending := (← place).pastSpaces.pastComment
  if !atBreak ending.rest then malformed
  moveTo ending.pastBreak
  emit (.directive d)

def readQuoted (room : Nat) : Scan Unit := do
  notePending
  allowKey false
  let (text, k) ← quotedScalar room (← place)
  moveTo k
  emit (.scalar (String.ofList text) false)

/-- A block scalar; a key may follow it. -/
def readBlock : Scan Unit := do
  allowKey true
  dropPending
  let l ← get
  let (text, k) ← blockScalar (l.indent + 1).toNat l.place
  moveTo k
  emit (.scalar (String.ofList text) false)

/-- A plain scalar; a key may follow it on a new line. -/
def readPlain (room : Nat) : Scan Unit := do
  notePending
  let l ← get
  let (text, k, broke) := plainScalar room (l.depth != 0) (l.indent + 1).toNat l.place
  moveTo k
  allowKey broke
  emit (.scalar (String.ofList text) true)

/-- Characters with which no plain scalar starts, unless they are a dash or, outside brackets, a question
mark or a colon and something follows them. -/
def isIndicator (c : Char) : Bool := "-?:,[]\x7b\x7d#&*!|>'\"%@`".toList.contains c

def startsPlain (flow : Bool) : List Char → Bool
  | [] => false
  | c :: r =>
    (!isGap c && !isIndicator c) || (!atGap r && (c == '-' || (!flow && (c == '?' || c == ':'))))

/-- Reads the token at a character; `r` is what follows it, and `room` bounds the length of both. -/
def readToken (room : Nat) (l : Layout) (c : Char) (r : List Char) : Scan Unit :=
  let flow := l.depth != 0
  let lone := flow || atGap r
  if c == '%' && l.place.column == 0 then readDirective
  else if l.place.column == 0 && atBound ['-', '-', '-'] (c :: r) then readBound .documentStart
  else if l.place.column == 0 && atBound ['.', '.', '.'] (c :: r) then readBound .documentEnd
  else if c == '[' then readOpening .flowSequence
  else if c == '\x7b' then readOpening .flowMapping
  else if c == ']' then readClosing .flowSequenceEnd
  else if c == '\x7d' then readClosing .flowMappingEnd
  else if c == ',' then readComma
  else if c == '-' && atGap r then readDash
  else if c == '?' && lone then readKeyMark
  else if c == ':' && lone then readColon
  else if c == '*' then readAnchor .reference
  else if c == '&' then readAnchor .anchor
  else if c == '!' then readTag
  else if (c == '|' || c == '>') && !flow then readBlock
  else if c == '\'' || c == '"' then readQuoted room
  else if startsPlain flow (c :: r) then readPlain room
  else malformed

/-- Goes to the next token; `room` bounds the number of lines on the way. -/
def skipGaps (room : Nat) : Scan Unit := do
  let l ← get
  let (k, broke) := l.place.token room false
  set { l with place := k, keyAllowed := l.keyAllowed || (broke && l.depth == 0) }

/-- Reads tokens to the end of the text; `fuel` is more than the length of what is left of it. -/
def readAll : Nat → Scan Unit
  | 0 => return ()
  | fuel + 1 => do
    skipGaps (fuel + 1)
    dropStale
    let l ← get
    unwind l.place.column
    match l.place.rest with
    | [] =>
      unwind (-1)
      dropPending
    | c :: r =>
      readToken (fuel + 1) (← get) c r
      readAll fuel

end Scan

def tokens (s : List Char) : Except Fault (List Token) :=
  let start : Cursor := match s with
    | c :: r => if isOrderMark c then ⟨r, 1, 0, 0⟩ else ⟨s, 0, 0, 0⟩
    | [] => ⟨[], 0, 0, 0⟩
  match (Scan.readAll (s.length + 1)).run { place := start } with
  | .ok (_, l) => .ok (l.lexemes.toList.flatMap fun x => x.before ++ [x.token])
  | .error e => .error e

end CadenceUplift.Yaml
