import CadenceUplift.Text.Quoted

namespace CadenceUplift.Text

/-- Why octets are no text. -/
inductive Utf8Reason where
  | invalidStart
  | invalidContinuation
  | endOfData
deriving DecidableEq, Repr, Inhabited

/-- A fault in octets: where it starts, how many octets it takes in, and the first of them. -/
structure Utf8Error where
  reason : Utf8Reason
  start : Nat
  length : Nat
  octet : Nat
deriving DecidableEq, Repr, Inhabited

def Utf8Reason.wording : Utf8Reason → String
  | .invalidStart => "invalid start byte"
  | .invalidContinuation => "invalid continuation byte"
  | .endOfData => "unexpected end of data"

def Utf8Error.message (e : Utf8Error) : String :=
  let place :=
    if e.length = 1 then
      "byte 0x" ++ String.ofList (hexDigits 2 e.octet) ++ " in position " ++ toString e.start
    else "bytes in position " ++ toString e.start ++ "-" ++ toString (e.start + e.length - 1)
  "'utf-8' codec can't decode " ++ place ++ ": " ++ e.reason.wording

/-- A character begun: where, its first octet, the bits so far, how many octets were read and are owed,
and the bounds of the next one. -/
structure Begun where
  start : Nat
  octet : Nat
  bits : Nat
  read : Nat
  owed : Nat
  low : Nat
  high : Nat
deriving DecidableEq, Repr, Inhabited

/-- A character begun by an octet at an offset; none for octets that begin no character of several
octets. -/
def begin? (start b : Nat) : Option Begun :=
  if 0xc2 ≤ b ∧ b ≤ 0xdf then some ⟨start, b, b - 0xc0, 1, 1, 0x80, 0xbf⟩
  else if b = 0xe0 then some ⟨start, b, 0, 1, 2, 0xa0, 0xbf⟩
  else if b = 0xed then some ⟨start, b, 0xd, 1, 2, 0x80, 0x9f⟩
  else if 0xe1 ≤ b ∧ b ≤ 0xef then some ⟨start, b, b - 0xe0, 1, 2, 0x80, 0xbf⟩
  else if b = 0xf0 then some ⟨start, b, 0, 1, 3, 0x90, 0xbf⟩
  else if b = 0xf4 then some ⟨start, b, 4, 1, 3, 0x80, 0x8f⟩
  else if 0xf1 ≤ b ∧ b ≤ 0xf3 then some ⟨start, b, b - 0xf0, 1, 3, 0x80, 0xbf⟩
  else none

/-- The text of octets from an offset on, with a character begun before it if any. -/
def decodeFrom : Nat → Option Begun → List UInt8 → Except Utf8Error (List Char)
  | _, none, [] => .ok []
  | _, some p, [] => .error ⟨.endOfData, p.start, p.read, p.octet⟩
  | i, none, b :: r =>
    let n := b.toNat
    if n < 0x80 then (decodeFrom (i + 1) none r).map (Char.ofNat n :: ·)
    else
      match begin? i n with
      | some p => decodeFrom (i + 1) (some p) r
      | none => .error ⟨.invalidStart, i, 1, n⟩
  | i, some p, b :: r =>
    let n := b.toNat
    if p.low ≤ n ∧ n ≤ p.high then
      let bits := p.bits * 64 + (n - 0x80)
      if p.owed ≤ 1 then (decodeFrom (i + 1) none r).map (Char.ofNat bits :: ·)
      else
        decodeFrom (i + 1)
          (some { p with bits := bits, read := p.read + 1, owed := p.owed - 1, low := 0x80, high := 0xbf }) r
    else .error ⟨.invalidContinuation, p.start, p.read, p.octet⟩

/-- The text that octets stand for. -/
def decodeUtf8 (bytes : List UInt8) : Except Utf8Error (List Char) := decodeFrom 0 none bytes

/-- The octets of a text that holds no half. -/
def encodeUtf8 (s : String) : List UInt8 := s.toUTF8.data.toList

/-- A run of halves in a text: where it starts, its first half, and how many halves it has. -/
structure HalfRun where
  start : Nat
  first : Char
  length : Nat
deriving DecidableEq, Repr, Inhabited

/-- The first run of halves. -/
def halfRun? (s : List Char) : Option HalfRun :=
  let before := s.takeWhile fun c => !isHalf c
  match s.drop before.length with
  | [] => none
  | c :: r => some ⟨before.length, c, (r.takeWhile isHalf).length + 1⟩

def HalfRun.message (e : HalfRun) : String :=
  let place :=
    if e.length = 1 then
      "character '" ++ String.ofList (codeEscape e.first) ++ "' in position " ++ toString e.start
    else "characters in position " ++ toString e.start ++ "-" ++ toString (e.start + e.length - 1)
  "'utf-8' codec can't encode " ++ place ++ ": surrogates not allowed"

/-- The octets of a text, unless it holds a half. -/
def encode (s : String) : Except HalfRun (List UInt8) :=
  match halfRun? s.toList with
  | some run => .error run
  | none => .ok (encodeUtf8 s)

/-- Line ends brought to a newline: a return before a newline is dropped and a lone one becomes a
newline. -/
def unifyNewlines : List Char → List Char
  | [] => []
  | '\r' :: '\n' :: r => '\n' :: unifyNewlines r
  | '\r' :: r => '\n' :: unifyNewlines r
  | c :: r => c :: unifyNewlines r

end CadenceUplift.Text
