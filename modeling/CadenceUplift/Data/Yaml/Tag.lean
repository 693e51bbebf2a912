import CadenceUplift.Number.Whole

namespace CadenceUplift.Yaml

/-- What a node is said to be. -/
inductive Tag where
  | null
  | flag
  | whole
  | real
  | octets
  | time
  | orderedMap
  | pairs
  | set
  | text
  | sequence
  | mapping
  /-- A key whose value is merged into its mapping. -/
  | merge
  /-- A key whose value stands for its whole mapping. -/
  | default
  | unknown
deriving DecidableEq, Repr, Inhabited

namespace Tag

def standard : String := "tag:yaml.org,2002:"

def names : List (String × Tag) := [
  ("null", .null), ("bool", .flag), ("int", .whole), ("float", .real), ("binary", .octets),
  ("timestamp", .time), ("omap", .orderedMap), ("pairs", .pairs), ("set", .set), ("str", .text),
  ("seq", .sequence), ("map", .mapping), ("merge", .merge), ("value", .default)]

def ofName (name : String) : Tag :=
  match names.find? fun n => standard ++ n.1 == name with
  | some n => n.2
  | none => .unknown

end Tag

/-- A digit or an underscore. -/
def isDigitMark (c : Char) : Bool := c.isDigit || c == '_'

def isNullWord (s : List Char) : Bool :=
  s.isEmpty || ["~", "null", "Null", "NULL"].any (·.toList == s)

/-- The words for truth values, each in three spellings. -/
def isFlagWord (s : List Char) : Bool :=
  ["yes", "no", "true", "false", "on", "off"].any fun w =>
    s == w.toList || s == w.capitalize.toList || s == w.toUpper.toList

/-- An exponent with its sign, or nothing. -/
def isExponent : List Char → Bool
  | [] => true
  | mark :: sign :: digits =>
    (mark == 'e' || mark == 'E') && (sign == '+' || sign == '-') && !digits.isEmpty &&
      digits.all Char.isDigit
  | _ => false

/-- Pieces in base sixty, each after a colon; at least one. -/
def isSixties : List Char → Bool
  | [':', a] => a.isDigit
  | [':', a, b] => isOctal a && a ≤ '5' && b.isDigit
  | ':' :: a :: ':' :: r => a.isDigit && isSixties (':' :: r)
  | ':' :: a :: b :: ':' :: r => isOctal a && a ≤ '5' && b.isDigit && isSixties (':' :: r)
  | _ => false

/-- A real number: digits with a point and an exponent, digits in base sixty with a point, or a word for
what is not finite. -/
def isRealText (s : List Char) : Bool :=
  let body := (splitSign s).2
  let whole := body.takeWhile isDigitMark
  let after := body.drop whole.length
  let sixties := after.takeWhile (· != '.')
  let pointed := body.head?.any Char.isDigit &&
    match after with
    | '.' :: places => isExponent (places.dropWhile isDigitMark)
    | _ =>
      isSixties sixties &&
        match after.drop sixties.length with
        | '.' :: places => places.all isDigitMark
        | _ => false
  let bare := match s with
    | '.' :: d :: places => d.isDigit && isExponent (places.dropWhile isDigitMark)
    | _ => false
  pointed || bare || [".inf", ".Inf", ".INF"].any (·.toList == body) ||
    [".nan", ".NaN", ".NAN"].any (·.toList == s)

/-- A whole number: binary, octal, hexadecimal, decimal or in base sixty. -/
def isWholeText (s : List Char) : Bool :=
  let digits (p : Char → Bool) (r : List Char) : Bool := !r.isEmpty && r.all fun c => p c || c == '_'
  match (splitSign s).2 with
  | ['0'] => true
  | '0' :: 'b' :: r => digits (fun c => c == '0' || c == '1') r
  | '0' :: 'x' :: r => digits isHex r
  | '0' :: r => digits isOctal r
  | c :: r => c.isDigit && (r.all isDigitMark || isSixties (r.dropWhile isDigitMark))
  | [] => false

/-- The parts of a written day or time, as digits. -/
structure TimeText where
  year : List Char
  month : List Char
  day : List Char
  /-- Hour, minute, second and the digits after the point. -/
  clock : Option (List Char × List Char × List Char × List Char) := none
  /-- Sign, hours and minutes of the offset. -/
  zone : Option (Bool × List Char × List Char) := none
deriving DecidableEq, Repr, Inhabited

/-- Between `least` and `most` digits, as many as there are, and what follows them. -/
def takeDigits (least most : Nat) (s : List Char) : Option (List Char × List Char) :=
  let run := (s.take most).takeWhile Char.isDigit
  if run.length < least then none else some (run, s.drop run.length)

def afterChar? (c : Char) : List Char → Option (List Char)
  | d :: r => if c == d then some r else none
  | [] => none

def readZone (s : List Char) : Option (Option (Bool × List Char × List Char)) :=
  match s.dropWhile fun c => c == ' ' || c == '\t' with
  | [] => if s.isEmpty then some none else none
  | ['Z'] => some (some (false, ['0'], ['0']))
  | sign :: r =>
    if sign == '+' || sign == '-' then
      match takeDigits 1 2 r with
      | some (hours, []) => some (some (sign == '-', hours, ['0']))
      | some (hours, ':' :: r) =>
        match takeDigits 2 2 r with
        | some (minutes, []) => some (some (sign == '-', hours, minutes))
        | _ => none
      | _ => none
    else none

/-- The parts of a written day or time. -/
def timeText? (s : List Char) : Option TimeText := do
  let (year, r) ← takeDigits 4 4 s
  let (month, r) ← takeDigits 1 2 (← afterChar? '-' r)
  let (day, r) ← takeDigits 1 2 (← afterChar? '-' r)
  match r with
  | [] => return ⟨year, month, day, none, none⟩
  | c :: rest =>
    let r ←
      if c == 'T' || c == 't' then some rest
      else if c == ' ' || c == '\t' then some (r.dropWhile fun c => c == ' ' || c == '\t')
      else none
    let (hour, r) ← takeDigits 1 2 r
    let (minute, r) ← takeDigits 2 2 (← afterChar? ':' r)
    let (second, r) ← takeDigits 2 2 (← afterChar? ':' r)
    let (places, r) := match r with
      | '.' :: r => (r.takeWhile Char.isDigit, r.dropWhile Char.isDigit)
      | _ => ([], r)
    let zone ← readZone r
    return ⟨year, month, day, some (hour, minute, second, places), zone⟩

/-- A plain scalar that is taken for a day or a time: a day alone has all its digits. -/
def isTimeText (s : List Char) : Bool :=
  match timeText? s with
  | some t => t.clock.isSome || (t.month.length == 2 && t.day.length == 2)
  | none => false

def Tag.ofPlain (s : List Char) : Tag :=
  if isNullWord s then .null
  else if isFlagWord s then .flag
  else if isRealText s then .real
  else if isWholeText s then .whole
  else if s == ['<', '<'] then .merge
  else if isTimeText s then .time
  else if s == ['='] then .default
  else .text

end CadenceUplift.Yaml
