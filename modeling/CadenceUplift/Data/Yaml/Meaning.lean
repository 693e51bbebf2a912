import CadenceUplift.Data.Value
import CadenceUplift.Data.Yaml.Fault
import CadenceUplift.Data.Yaml.Tag

namespace CadenceUplift.Yaml

def colonPieces (s : List Char) : List (List Char) :=
  ((String.ofList s).splitOn ":").map (·.toList)

def wholeText (s : List Char) : Except Fault Int := (wholeNumber s).mapError .whole

def wholeTextIn (base : Nat) (s : List Char) : Except Fault Int :=
  (wholeInBase base (shownNumber s) s).mapError .whole

/-- A whole number without its sign: a mark tells its base, and colons part digits of base sixty. -/
def unsignedWhole : List Char → Except Fault Int
  | [] => .error .noDigits
  | ['0'] => .ok 0
  | '0' :: 'b' :: r => wholeTextIn 2 r
  | '0' :: 'x' :: r => wholeTextIn 16 r
  | '0' :: r => wholeTextIn 8 ('0' :: r)
  | s =>
    if s.contains ':' then do
      let pieces ← (colonPieces s).mapM wholeText
      return pieces.foldl (fun n d => n * 60 + d) 0
    else wholeText s

/-- The whole number that a scalar stands for. -/
def wholeOf (s : List Char) : Except Fault Int := do
  let digits := s.filter (· != '_')
  if digits.isEmpty then .error .noDigits
  else
    let (negative, body) := splitSign digits
    let n ← unsignedWhole body
    return if negative then -n else n

/-- Digits with a point and an exponent, without a sign. -/
def readDecimal? (negative : Bool) (s : List Char) : Option Real :=
  let digits (r : List Char) : List Char := r.takeWhile fun c => (Text.digitValue? c).isSome
  let whole := digits s
  let rest := s.drop whole.length
  let (places, rest) := match rest with
    | '.' :: r => (digits r, r.drop (digits r).length)
    | _ => ([], rest)
  let value (ds : List Char) : Nat := (ds.filterMap Text.digitValue?).foldl (fun n d => n * 10 + d) 0
  let power? : Option Int := match rest with
    | [] => some 0
    | mark :: r =>
      let (minus, ds) := splitSign r
      if (mark == 'e' || mark == 'E') && !ds.isEmpty && (digits ds).length == ds.length then
        some (Real.signed minus (value ds))
      else none
  if whole.isEmpty && places.isEmpty then none
  else power?.map fun e => .ofDecimal negative (value (whole ++ places)) (e - places.length)

/-- The real number that a text writes; white space around it is ignored. -/
def realNumber? (s : List Char) : Option Real :=
  let (negative, body) := splitSign (Text.trimSpace s)
  let word := String.ofList (body.map Char.toLower)
  if word == "inf" || word == "infinity" then some (.infinite negative)
  else if word == "nan" then some .undefined
  else readDecimal? negative body

/-- A real number, or the fault of a text that is none. -/
def realText (s : List Char) : Except Fault Real :=
  match realNumber? s with
  | some x => .ok x
  | none => .error (.notReal s)

/-- The product of a number and a power of sixty, both rounded. -/
def timesSixty (x : Binary64) (power : Nat) : Binary64 :=
  let a := x.quotient
  let b := (Binary64.nearest (Nat.pow 60 power) 1).quotient
  .nearest (a.1 * b.1) (a.2 * b.2)

/-- The sum of digits of base sixty, lowest first, each step rounded; there is none unless all of them are
finite and none is negative. -/
def sixtySum (power : Nat) (sum : Binary64) : List Real → Real
  | [] => .ofSize false sum
  | .finite false x :: rest => sixtySum (power + 1) (sum.add (timesSixty x power)) rest
  | _ => .undefined

/-- The opposite number, if asked for. -/
def negateIf (negative : Bool) : Real → Real
  | .finite n x => .finite (n != negative) x
  | .infinite n => .infinite (n != negative)
  | .undefined => .undefined

/-- The real number that a scalar stands for. -/
def realOf (s : List Char) : Except Fault Real := do
  let digits := (s.filter (· != '_')).map Char.toLower
  if digits.isEmpty then .error .noDigits
  else
    let (negative, body) := splitSign digits
    if body == ".inf".toList then return .infinite negative
    else if body == ".nan".toList then return .undefined
    else if body.contains ':' then
      let pieces ← (colonPieces body).mapM realText
      return negateIf negative (sixtySum 0 .zero pieces.reverse)
    else return negateIf negative (← realText body)

/-- The truth value that a scalar stands for. -/
def flagOf (s : List Char) : Except Fault Bool :=
  let word := s.map Char.toLower
  if ["yes", "true", "on"].any (·.toList == word) then .ok true
  else if ["no", "false", "off"].any (·.toList == word) then .ok false
  else .error (.notFlag word)

/-- The millionths that the digits after the point of a second make. -/
def microsOf (digits : List Char) : Nat :=
  let six := digits.take 6
  numberOf 10 (six ++ List.replicate (6 - six.length) '0')

/-- The day or the time that a scalar stands for. -/
def timeOf (s : List Char) : Except Fault Value :=
  match timeText? s with
  | none => .error .notTime
  | some t =>
    let n := numberOf 10
    match t.clock with
    | none => ((Date.make (n t.year) (n t.month) (n t.day)).mapError .calendar).map .date
    | some (hour, minute, second, places) =>
      let offset := t.zone.map fun z => Real.signed z.1 (n z.2.1 * 60 + n z.2.2)
      ((Moment.make (n t.year) (n t.month) (n t.day) (n hour) (n minute) (n second) (microsOf places)
        offset).mapError .calendar).map .moment

def sixBits? (c : Char) : Option Nat :=
  if c.isUpper then some (c.toNat - 'A'.toNat)
  else if c.isLower then some (c.toNat - 'a'.toNat + 26)
  else if c.isDigit then some (c.toNat - '0'.toNat + 52)
  else if c == '+' then some 62
  else if c == '/' then some 63
  else none

/-- Octets written in base 64. `held` counts the characters of the group begun and `bits` is what they
have left over; `pads` counts the equals signs since the last character. Other characters are passed
over, and a complete padding ends the octets. -/
def octetsFrom (held bits pads : Nat) : List Char → Option (List UInt8)
  | [] => if held = 0 then some [] else none
  | c :: r =>
    if c == '=' then
      if 2 ≤ held ∧ 4 ≤ held + pads + 1 then some []
      else octetsFrom held bits (if 2 ≤ held then pads + 1 else pads) r
    else
      match sixBits? c with
      | none => octetsFrom held bits pads r
      | some d =>
        if held = 0 then octetsFrom 1 d 0 r
        else if held = 1 then (octetsFrom 2 (d % 16) 0 r).map ((bits * 4 + d / 16).toUInt8 :: ·)
        else if held = 2 then (octetsFrom 3 (d % 4) 0 r).map ((bits * 16 + d / 4).toUInt8 :: ·)
        else (octetsFrom 0 0 0 r).map ((bits * 64 + d).toUInt8 :: ·)

/-- The octets that a scalar stands for. -/
def octetsOf (s : List Char) : Except Fault (List UInt8) :=
  if s.any fun c => 127 < c.toNat then .error .malformed
  else
    match octetsFrom 0 0 0 s with
    | some bytes => .ok bytes
    | none => .error .malformed

/-- What a scalar with a tag stands for; tags of nodes with parts are no tags of scalars. -/
def Tag.meaning (tag : Tag) (s : List Char) : Except Fault Value :=
  match tag with
  | .null => .ok .null
  | .flag => (flagOf s).map .bool
  | .whole => (wholeOf s).map .int
  | .real => (realOf s).map .real
  | .octets => (octetsOf s).map .octets
  | .time => timeOf s
  | .text => .ok (.text (String.ofList s))
  | _ => .error .malformed

end CadenceUplift.Yaml
