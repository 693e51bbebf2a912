import CadenceUplift.Number.Whole
import CadenceUplift.Settings.Checked
import CadenceUplift.Text.Utf8

namespace CadenceUplift

namespace Value

/-- The first whole number that is too great for a word of 64 bits. -/
def wordBound : Int := Nat.pow 2 63

/-- The whole number that a real number is, if it lies strictly between the bounds of words. -/
def wholeOfReal (x : Real) : Except SettingFault Int :=
  match x, x.whole? with
  | .finite .., some n => if -wordBound < n ∧ n < wordBound then .ok n else .error .tooGreat
  | .finite .., none => .error .fraction
  | _, _ => .error .notFinite

/-- The text that a value spells out, if it is a text or octets; `unread` is the fault of octets that are
no text. -/
def spelled? (unread : SettingFault) : Value → Option (Checked (List Char))
  | .text s => some (if s.toList.any Text.isHalf then .fault .notUnicode else .ok s.toList)
  | .octets bytes =>
    match Text.decodeUtf8 bytes with
    | .ok s => some (.ok s)
    | .error _ => some (.fault unread)
  | _ => none

def checkText : Value → Checked String
  | .text s => .ok s
  | .octets bytes =>
    match Text.decodeUtf8 bytes with
    | .ok s => .ok (String.ofList s)
    | .error _ => .fault .notUnicode
  | _ => .fault .notText

/-- The words for a flag, in small letters. -/
def flagWords : List (String × Bool) := [
  ("0", false), ("f", false), ("n", false), ("no", false), ("off", false), ("false", false),
  ("1", true), ("t", true), ("y", true), ("yes", true), ("on", true), ("true", true)]

/-- The flag that a word stands for. -/
def flagOfWord (s : List Char) : Checked Bool :=
  match flagWords.lookup (String.ofList (s.map Char.toLower)) with
  | some b => .ok b
  | none => .fault .unreadFlag

/-- The flag that a whole number stands for. -/
def flagOfWhole (n : Int) : Checked Bool :=
  if n = 0 then .ok false
  else if n = 1 then .ok true
  else .fault .unreadFlag

/-- A flag: a truth value, the numbers zero and one, or one of the words for it. -/
def checkFlag (v : Value) : Checked Bool :=
  match v.spelled? .unreadFlag with
  | some s => s.andThen flagOfWord
  | none =>
    match v with
    | .bool b => .ok b
    | .int n => if -wordBound ≤ n ∧ n < wordBound then flagOfWhole n else .fault .notFlag
    | .real x =>
      match wholeOfReal x with
      | .ok n => flagOfWhole n
      | .error _ => .fault .notFlag
    | _ => .fault .notFlag

/-- The whole number that ASCII digits write after an optional minus; no zero stands in front of another
digit. -/
def plainWhole (s : List Char) : Except SettingFault Int :=
  let (negative, body) := match s with
    | '-' :: r => (true, r)
    | r => (false, r)
  let digits := body.takeWhile Char.isDigit
  if digits.isEmpty || (digits.head? == some '0' && 1 < digits.length) then .error .unreadWhole
  else if maxDigits < digits.length then .error .tooGreat
  else if digits.length < body.length then .error .unreadWhole
  else .ok (Real.signed negative (numberOf 10 digits))

/-- A number without the zeros in front of it: one is left before a point and at the end, and
underscores among the zeros go with them. `last` is the character before `s`. -/
def dropZeros (last : Char) : List Char → Option (List Char)
  | [] => some [last]
  | c :: r =>
    if c == '0' || c == '_' then dropZeros c r
    else if c == '-' || c.isDigit then some (c :: r)
    else if c == '.' then some (last :: c :: r)
    else none

/-- A number without a plus and without zeros in front. -/
def withoutLead (s : List Char) : Option (List Char) :=
  let body := match s with
    | '+' :: '-' :: r => '+' :: '-' :: r
    | '+' :: r => r
    | r => r
  match body with
  | '0' :: r => dropZeros '0' r
  | c :: r => if c == '-' || c.isDigit then some (c :: r) else none
  | [] => none

/-- A number without the zeros after its point, if only zeros are there. -/
def withoutPoint (s : List Char) : List Char :=
  match s.dropWhile (· != '.') with
  | '.' :: '0' :: r => if r.all (· == '0') then s.takeWhile (· != '.') else s
  | _ => s

/-- A number without underscores, if they stand one by one and inside. -/
def withoutUnderscores (s : List Char) : List Char :=
  if wellSpaced true s then s.filter (· != '_') else s

/-- The whole number that a text writes in ASCII digits: white space around it, a sign, zeros in front,
underscores between digits and zeros after a point are allowed. -/
def wholeOfText (s : List Char) : Except SettingFault Int :=
  let body := Text.trimSpace s
  match plainWhole body with
  | .error .unreadWhole =>
    match withoutLead body with
    | some rest => plainWhole (withoutUnderscores (withoutPoint rest))
    | none => .error .unreadWhole
  | r => r

/-- A whole number: truth values count as zero and one, and reals without a fraction and texts of
digits are read. -/
def checkWhole (v : Value) : Checked Int :=
  match v.spelled? .unreadWhole with
  | some s => s.andThen fun s => .ofExcept (wholeOfText s)
  | none =>
    match v with
    | .int n => .ok n
    | .bool b => .ok (if b then 1 else 0)
    | .real x => .ofExcept (wholeOfReal x)
    | _ => .fault .notWhole

/-- A list whose items all pass a check. -/
def checkList {α : Type} (check : Value → Checked α) : Value → Checked (List α)
  | .list items | .tuple items | .set items => Checked.items check 0 items
  | _ => .fault .notList

/-- A field that must be there. -/
def checkField {α : Type} (entries : List (Value × Value)) (name : String) (check : Value → Checked α) :
    Checked α :=
  match named? name entries with
  | some v => (check v).under name
  | none => (Checked.fault .missing).under name

def checkOptional {α : Type} (entries : List (Value × Value)) (name : String) (default : α)
    (check : Value → Checked α) : Checked α :=
  match named? name entries with
  | some v => (check v).under name
  | none => .ok default

end Value

end CadenceUplift
