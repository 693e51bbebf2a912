import CadenceUplift.Data.Calendar
import CadenceUplift.Number.Binary64
import CadenceUplift.Text.Quoted

namespace CadenceUplift

/-- A number with a fractional part or an exponent, as documents write it. -/
inductive Real where
  | finite (negative : Bool) (size : Binary64)
  | infinite (negative : Bool)
  | undefined
deriving DecidableEq, Repr, Inhabited

/-- A value of a document. -/
inductive Value where
  | null
  | bool (b : Bool)
  | int (n : Int)
  | real (x : Real)
  | text (s : String)
  | octets (bytes : List UInt8)
  | date (d : Date)
  | moment (m : Moment)
  | list (items : List Value)
  | tuple (items : List Value)
  | set (items : List Value)
  | object (entries : List (Value × Value))
deriving Repr, Inhabited

namespace Real

/-- The real number zero, of either sign. -/
def isZero : Real → Bool
  | .finite _ x => x.mant == 0
  | _ => false

/-- A finite number, or infinity beyond the greatest one. -/
def ofSize (negative : Bool) (x : Binary64) : Real :=
  if x.overflows then .infinite negative else .finite negative x

/-- The number `digits * 10 ^ power`. Beyond 310 places before the point every number is infinite, and
beyond 330 places after it every number is zero. -/
def ofDecimal (negative : Bool) (digits : Nat) (power : Int) : Real :=
  let point : Int := (Nat.toDigits 10 digits).length + power
  if digits = 0 ∨ point < -330 then .finite negative .zero
  else if 310 < point then .infinite negative
  else if 0 ≤ power then ofSize negative (.nearest (digits * Nat.pow 10 power.toNat) 1)
  else ofSize negative (.nearest digits (Nat.pow 10 (-power).toNat))

/-- The text of a real number, with the given words for what is not finite. -/
def textWith (infinity undefinedWord : String) : Real → String
  | .finite negative x => (if negative then "-" else "") ++ String.ofList x.text
  | .infinite negative => (if negative then "-" else "") ++ infinity
  | .undefined => undefinedWord

def signed (negative : Bool) (n : Nat) : Int := if negative then -(n : Int) else n

/-- A finite number as an exact quotient. -/
def quotient? : Real → Option (Int × Nat)
  | .finite negative x => some (signed negative x.quotient.1, x.quotient.2)
  | _ => none

/-- The whole number that a finite number without a fraction is. -/
def whole? (x : Real) : Option Int := do
  let (n, d) ← x.quotient?
  if n % d = 0 then return n / d else none

end Real

namespace Value

/-- An object whose keys are texts. -/
def record (fields : List (String × Value)) : Value := .object (fields.map fun f => (.text f.1, f.2))

def isText : Value → Bool
  | .text _ => true
  | _ => false

def isNamed (name : String) : Value → Bool
  | .text s => s == name
  | _ => false

def named? (name : String) (entries : List (Value × Value)) : Option Value :=
  (entries.find? fun e => e.1.isNamed name).map (·.2)

def field? (v : Value) (name : String) : Option Value :=
  match v with
  | .object entries => named? name entries
  | _ => none

def kind : Value → String
  | .null => "NoneType"
  | .bool _ => "bool"
  | .int _ => "int"
  | .real _ => "float"
  | .text _ => "str"
  | .octets _ => "bytes"
  | .date _ => "date"
  | .moment _ => "datetime"
  | .list _ => "list"
  | .tuple _ => "tuple"
  | .set _ => "set"
  | .object _ => "dict"

/-- The full word for a kind of value, in messages that name where it comes from. -/
def kindWord : Value → String
  | .date d => "datetime." ++ (Value.date d).kind
  | .moment m => "datetime." ++ (Value.moment m).kind
  | v => v.kind

/-- Whether a value counts as present: null, false, zero and whatever is empty do not. -/
def truthy : Value → Bool
  | .null => false
  | .bool b => b
  | .int n => n != 0
  | .real x => !x.isZero
  | .text s => !s.isEmpty
  | .octets bytes => !bytes.isEmpty
  | .date _ | .moment _ => true
  | .list items | .tuple items | .set items => !items.isEmpty
  | .object entries => !entries.isEmpty

/-- Lists, sets and objects change over time, so none of them can be a key. -/
def isKey : Value → Bool
  | .list _ | .set _ | .object _ => false
  | _ => true

/-- The exact number that a value is; truth values count as zero and one. -/
def quotient? : Value → Option (Int × Nat)
  | .bool b => some (if b then 1 else 0, 1)
  | .int n => some (n, 1)
  | .real x => x.quotient?
  | _ => none

/-- Two values are the same number, or the same infinity. -/
def sameNumber (a b : Value) : Bool :=
  match a, b with
  | .real (.infinite x), .real (.infinite y) => x == y
  | _, _ =>
    match a.quotient?, b.quotient? with
    | some x, some y => x.1 * y.2 == y.1 * x.2
    | _, _ => false

mutual

/-- Two values are equal: numbers by their size, whatever their kind, and parts one by one. -/
def same : Value → Value → Bool
  | .null, .null => true
  | .text a, .text b => a == b
  | .octets a, .octets b => a == b
  | .date a, .date b => a == b
  | .moment a, .moment b => a == b
  | .list as, .list bs => sameItems as bs
  | .tuple as, .tuple bs => sameItems as bs
  | .set as, .set bs => as.length == bs.length && itemsIn bs as
  | .object as, .object bs => as.length == bs.length && entriesIn bs as
  | a, b => sameNumber a b

/-- Items equal one by one. -/
def sameItems : List Value → List Value → Bool
  | [], [] => true
  | a :: as, b :: bs => same a b && sameItems as bs
  | _, _ => false

/-- Every item is equal to one of `bs`. -/
def itemsIn (bs : List Value) : List Value → Bool
  | [] => true
  | a :: as => (bs.any fun b => same a b) && itemsIn bs as

/-- Every entry is equal to one of `bs`. -/
def entriesIn (bs : List (Value × Value)) : List (Value × Value) → Bool
  | [] => true
  | (k, v) :: as => (bs.any fun b => same k b.1 && same v b.2) && entriesIn bs as

end

/-- Sets an entry: a key already there keeps its place and takes the new value. -/
def setEntry (entries : List (Value × Value)) (key v : Value) : List (Value × Value) :=
  if entries.any fun e => e.1.same key then entries.map fun e => if e.1.same key then (e.1, v) else e
  else entries ++ [(key, v)]

/-- An object of the given entries, later ones winning over earlier ones of the same key. -/
def ofEntries (entries : List (Value × Value)) : Value :=
  .object (entries.foldl (fun acc e => setEntry acc e.1 e.2) [])

/-- The words in which messages and reports spell truth values. -/
def boolWord (b : Bool) : String := if b then "True" else "False"

/-- Texts put one after another with a separator between them. -/
def joinTexts (sep : String) (items : List String) : String := sep.intercalate items

mutual

/-- A value as it is written inside another value in a message. -/
def inner : Value → String
  | .null => "None"
  | .bool b => boolWord b
  | .int n => toString n
  | .real x => x.textWith "inf" "nan"
  | .text s => Text.quotedString s
  | .octets bytes => String.ofList (Text.quotedOctets bytes)
  | .date d => "datetime.date(" ++ joinTexts ", " (d.parts.map toString) ++ ")"
  | .moment m => "datetime.datetime(" ++ joinTexts ", " m.parts ++ ")"
  | .list items => "[" ++ joinTexts ", " (innerList items) ++ "]"
  | .tuple [v] => "(" ++ v.inner ++ ",)"
  | .tuple items => "(" ++ joinTexts ", " (innerList items) ++ ")"
  | .set [] => "set()"
  | .set items => "\x7b" ++ joinTexts ", " (innerList items) ++ "\x7d"
  | .object entries => "\x7b" ++ joinTexts ", " (innerEntries entries) ++ "\x7d"

/-- The items of a list, each as written inside a value. -/
def innerList : List Value → List String
  | [] => []
  | v :: rest => v.inner :: innerList rest

/-- The entries of an object, each as written inside a value. -/
def innerEntries : List (Value × Value) → List String
  | [] => []
  | (k, v) :: rest => (k.inner ++ ": " ++ v.inner) :: innerEntries rest

end

/-- A value as text: texts, days and times stand for themselves, everything else is written out. -/
def display : Value → String
  | .text s => s
  | .date d => d.text
  | .moment m => m.text
  | v => v.inner

end Value

end CadenceUplift
