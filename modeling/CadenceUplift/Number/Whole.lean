import CadenceUplift.Text.Quoted

namespace CadenceUplift

def isOctal (c : Char) : Bool := '0' ≤ c && c ≤ '7'

def isHex (c : Char) : Bool := c.isDigit || ('a' ≤ c && c ≤ 'f') || ('A' ≤ c && c ≤ 'F')

/-- The value of a digit in any base up to sixteen. -/
def digitOf (c : Char) : Nat :=
  if c.isDigit then c.toNat - '0'.toNat
  else if 'a' ≤ c && c ≤ 'f' then c.toNat - 'a'.toNat + 10
  else c.toNat - 'A'.toNat + 10

/-- The number that digits write in a base. -/
def numberOf (base : Nat) (digits : List Char) : Nat :=
  digits.foldl (fun n c => n * base + digitOf c) 0

/-- The greatest number of decimal digits that are read into a whole number. -/
def maxDigits : Nat := 4300

/-- Why a text is no whole number. -/
inductive WholeFault where
  /-- It is not written like one; `shown` is the text as messages quote it. -/
  | malformed (base : Nat) (shown : String)
  | tooLong (digits : Nat)
deriving DecidableEq, Repr, Inhabited

def WholeFault.message : WholeFault → String
  | .malformed base shown =>
    "invalid literal for int() with base " ++ toString base ++ ": " ++ shown
  | .tooLong digits =>
    "Exceeds the limit (" ++ toString maxDigits ++ " digits) for integer string conversion: value has " ++
      toString digits ++ " digits; use sys.set_int_max_str_digits() to increase the limit"

/-- Every underscore stands between two digits; `fresh` tells that a digit must come next. -/
def wellSpaced (fresh : Bool) : List Char → Bool
  | [] => !fresh
  | '_' :: r => !fresh && wellSpaced true r
  | _ :: r => wellSpaced false r

/-- Splits off a sign; the flag tells a minus. -/
def splitSign : List Char → Bool × List Char
  | '-' :: r => (true, r)
  | '+' :: r => (false, r)
  | r => (false, r)

/-- The value of a digit below the base: decimal digits of any script, and letters of ASCII. -/
def digitBelow? (base : Nat) (c : Char) : Option Nat :=
  let d := if isHex c then some (digitOf c) else Text.digitValue? c
  d.filter (· < base)

/-- The letter that may stand after a zero in front of the digits of a base. -/
def baseLetter? : Nat → Option Char
  | 2 => some 'b'
  | 8 => some 'o'
  | 16 => some 'x'
  | _ => none

/-- The digits of a number after the mark of its base, if it has one; an underscore may follow it. -/
def afterBaseMark (base : Nat) (s : List Char) : List Char :=
  match s with
  | '0' :: c :: r =>
    if baseLetter? base == some c.toLower then
      match r with
      | '_' :: r' => r'
      | _ => r
    else s
  | _ => s

/-- The whole number that a text writes in a base: an optional sign and digits with single underscores
between them, white space around them ignored. Decimal digits beyond `maxDigits` are refused, also in
front of something else. -/
def wholeInBase (base : Nat) (shown : String) (s : List Char) : Except WholeFault Int :=
  let (negative, body) := splitSign (Text.trimSpace s)
  let body := afterBaseMark base body
  let run := body.takeWhile fun c => c == '_' || (digitBelow? base c).isSome
  let digits := run.filterMap (digitBelow? base)
  if !wellSpaced true run then .error (.malformed base shown)
  else if base = 10 ∧ maxDigits < digits.length then .error (.tooLong digits.length)
  else if run.length < body.length then .error (.malformed base shown)
  else
    let n := digits.foldl (fun n d => n * base + d) 0
    .ok (if negative then -(n : Int) else n)

/-- A text as messages about numbers quote it, cut after 200 characters. -/
def shownNumber (s : List Char) : String := String.ofList ((Text.quoted s).take 200)

/-- The whole number that a text writes in decimal digits. -/
def wholeNumber (s : List Char) : Except WholeFault Int := wholeInBase 10 (shownNumber s) s

def sumOf : List Nat → Nat
  | [] => 0
  | n :: rest => n + sumOf rest

theorem sumOf_perm {ns ms : List Nat} (h : ns.Perm ms) : sumOf ns = sumOf ms := by
  induction h with
  | nil => rfl
  | cons n _ ih => rw [sumOf, sumOf, ih]
  | swap n m ns =>
    simp only [sumOf]
    omega
  | trans _ _ ih ih' => exact ih.trans ih'

end CadenceUplift
