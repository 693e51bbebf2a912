import CadenceUplift.Data.Value
import CadenceUplift.Number.Whole

namespace CadenceUplift.Json

def isSpace (c : Char) : Bool := c == ' ' || c == '\t' || c == '\n' || c == '\r'

def skipSpace (s : List Char) : List Char := s.dropWhile isSpace

/-- Four hexadecimal digits and what follows them. -/
def hex4? : List Char → Option (Nat × List Char)
  | a :: b :: c :: d :: r =>
    if [a, b, c, d].all isHex then some (numberOf 16 [a, b, c, d], r) else none
  | _ => none

/-- The rest of a string after its opening quote, and what follows it; `fuel` bounds its length. -/
def readString : Nat → List Char → Option (List Char × List Char)
  | 0, _ => none
  | _ + 1, [] => none
  | _ + 1, '"' :: r => some ([], r)
  | fuel + 1, '\\' :: 'u' :: r => do
    let (n, r) ← hex4? r
    if 0xd800 ≤ n ∧ n < 0xdc00 then
      match r with
      | '\\' :: 'u' :: r' =>
        let (low, r'') ← hex4? r'
        if 0xdc00 ≤ low ∧ low < 0xe000 then
          let (s, r) ← readString fuel r''
          return (Char.ofNat (0x10000 + (n - 0xd800) * 0x400 + (low - 0xdc00)) :: s, r)
        else
          let (s, r) ← readString fuel r
          return (Text.ofHalf n :: s, r)
      | _ =>
        let (s, r) ← readString fuel r
        return (Text.ofHalf n :: s, r)
    else
      let (s, r) ← readString fuel r
      return (Text.ofCode n :: s, r)
  | fuel + 1, '\\' :: c :: r => do
    let d ← match c with
      | '"' => some '"'
      | '\\' => some '\\'
      | '/' => some '/'
      | 'b' => some (Char.ofNat 8)
      | 'f' => some (Char.ofNat 12)
      | 'n' => some '\n'
      | 'r' => some '\r'
      | 't' => some '\t'
      | _ => none
    let (s, r) ← readString fuel r
    return (d :: s, r)
  | fuel + 1, c :: r => do
    if c.toNat < 32 ∨ c = '\\' then none
    else
      let (s, r) ← readString fuel r
      return (c :: s, r)

/-- The fraction of a number: a point and at least one digit. -/
def readFraction : List Char → Option (List Char × List Char)
  | '.' :: r =>
    let digits := r.takeWhile Char.isDigit
    if digits.isEmpty then none else some (digits, r.dropWhile Char.isDigit)
  | _ => none

/-- The exponent of a number: a mark, a sign if any, and at least one digit. -/
def readExponent : List Char → Option (Int × List Char)
  | c :: r =>
    if c = 'e' ∨ c = 'E' then
      let (negative, r) := match r with
        | '-' :: r' => (true, r')
        | '+' :: r' => (false, r')
        | _ => (false, r)
      let digits := r.takeWhile Char.isDigit
      if digits.isEmpty then none
      else some (Real.signed negative (numberOf 10 digits), r.dropWhile Char.isDigit)
    else none
  | [] => none

def readUnsigned (negative : Bool) (s : List Char) : Option (Value × List Char) := do
  let (whole, r) ← match s with
    | '0' :: r => some (['0'], r)
    | _ =>
      let digits := s.takeWhile Char.isDigit
      if digits.isEmpty then none else some (digits, s.dropWhile Char.isDigit)
  match readFraction r, readExponent ((readFraction r).map (·.2) |>.getD r) with
  | none, none =>
    if maxDigits < whole.length then none
    else return (.int (Real.signed negative (numberOf 10 whole)), r)
  | frac, exponent =>
    let fracDigits := (frac.map (·.1)).getD []
    let power := ((exponent.map (·.1)).getD 0) - fracDigits.length
    let rest := match exponent, frac with
      | some e, _ => e.2
      | none, some f => f.2
      | none, none => r
    return (.real (.ofDecimal negative (numberOf 10 (whole ++ fracDigits)) power), rest)

/-- What follows a word, when the text starts with it. -/
def afterWord? (word : String) (s : List Char) : Option (List Char) :=
  if Text.startsWith s word.toList then some (s.drop word.length) else none

/-- The words that stand for values. -/
def words : List (String × Value) :=
  [("null", .null), ("true", .bool true), ("false", .bool false), ("NaN", .real .undefined),
    ("Infinity", .real (.infinite false)), ("-Infinity", .real (.infinite true))]

/-- A value that is a single word or a number. -/
def readAtom (s : List Char) : Option (Value × List Char) :=
  match words.findSome? fun w => (afterWord? w.1 s).map fun r => (w.2, r) with
  | some found => some found
  | none =>
    match s with
    | '-' :: r => readUnsigned true r
    | _ => readUnsigned false s

mutual

/-- A value and what follows it; `fuel` bounds its size. -/
def readValue : Nat → List Char → Option (Value × List Char)
  | 0, _ => none
  | fuel + 1, s =>
    match s with
    | '"' :: r => (readString fuel r).map fun p => (.text (String.ofList p.1), p.2)
    | '[' :: r =>
      match skipSpace r with
      | ']' :: r => some (.list [], r)
      | r => (readItems fuel r).map fun p => (.list p.1, p.2)
    | '\x7b' :: r =>
      match skipSpace r with
      | '\x7d' :: r => some (.object [], r)
      | r => (readFields fuel r).map fun p => (.ofEntries p.1, p.2)
    | _ => readAtom s

def readItems : Nat → List Char → Option (List Value × List Char)
  | 0, _ => none
  | fuel + 1, s => do
    let (v, r) ← readValue fuel (skipSpace s)
    match skipSpace r with
    | ']' :: r => return ([v], r)
    | ',' :: r =>
      let (vs, r) ← readItems fuel r
      return (v :: vs, r)
    | _ => none

def readFields : Nat → List Char → Option (List (Value × Value) × List Char)
  | 0, _ => none
  | fuel + 1, s => do
    match skipSpace s with
    | '"' :: r =>
      let (name, r) ← readString fuel r
      match skipSpace r with
      | ':' :: r =>
        let (v, r) ← readValue fuel (skipSpace r)
        match skipSpace r with
        | '\x7d' :: r => return ([(.text (String.ofList name), v)], r)
        | ',' :: r =>
          let (fs, r) ← readFields fuel r
          return ((.text (String.ofList name), v) :: fs, r)
        | _ => none
      | _ => none
    | _ => none

end

def parse? (s : List Char) : Option Value := do
  let (v, r) ← readValue (2 * s.length + 2) (skipSpace s)
  if (skipSpace r).isEmpty then return v else none

/-- The escape of one unit of sixteen bits. -/
def unitEscape (n : Nat) : List Char := '\\' :: 'u' :: Text.hexDigits 4 n

/-- One character inside a string. -/
def escapeChar (c : Char) : List Char :=
  let n := Text.codeOf c
  if c = '"' then ['\\', '"']
  else if c = '\\' then ['\\', '\\']
  else if c = '\n' then ['\\', 'n']
  else if c = '\r' then ['\\', 'r']
  else if c = '\t' then ['\\', 't']
  else if n = 8 then ['\\', 'b']
  else if n = 12 then ['\\', 'f']
  else if 32 ≤ n ∧ n < 127 then [c]
  else if n < 0x10000 then unitEscape n
  else unitEscape (0xd800 + (n - 0x10000) / 0x400) ++ unitEscape (0xdc00 + (n - 0x10000) % 0x400)

def stringText (s : String) : String := String.ofList ('"' :: s.toList.flatMap escapeChar ++ ['"'])

/-- Why a value has no JSON text. -/
inductive Unwritable where
  | key (k : Value)
  | value (v : Value)
deriving Repr, Inhabited

def Unwritable.message : Unwritable → String
  | .key k => "keys must be str, int, float, bool or None, not " ++ k.kind
  | .value v => "Object of type " ++ v.kind ++ " is not JSON serializable"

/-- The text of a key, if it has one. -/
def keyText? : Value → Option String
  | .null => some "null"
  | .bool b => some (if b then "true" else "false")
  | .int n => some (toString n)
  | .real x => some (x.textWith "Infinity" "NaN")
  | .text s => some s
  | _ => none

mutual

/-- The first part of a value that cannot be written, in the order of writing. -/
def obstacle? : Value → Option Unwritable
  | .list items | .tuple items => itemObstacle? items
  | .object entries => entryObstacle? entries
  | .octets b => some (.value (.octets b))
  | .date d => some (.value (.date d))
  | .moment m => some (.value (.moment m))
  | .set items => some (.value (.set items))
  | _ => none

/-- The first part of some items that cannot be written. -/
def itemObstacle? : List Value → Option Unwritable
  | [] => none
  | v :: rest =>
    match obstacle? v with
    | some u => some u
    | none => itemObstacle? rest

/-- The first part of some entries that cannot be written; a key comes before its value. -/
def entryObstacle? : List (Value × Value) → Option Unwritable
  | [] => none
  | (k, v) :: rest =>
    match keyText? k with
    | none => some (.key k)
    | some _ =>
      match obstacle? v with
      | some u => some u
      | none => entryObstacle? rest

end

/-- A value without parts; one that cannot be written is left empty. -/
def atomText : Value → String
  | .null => "null"
  | .bool b => if b then "true" else "false"
  | .int n => toString n
  | .real x => x.textWith "Infinity" "NaN"
  | .text s => stringText s
  | .list _ | .tuple _ => "[]"
  | .object _ => "\x7b\x7d"
  | _ => ""

def keyQuoted (k : Value) : String := stringText ((keyText? k).getD "")

/-- A line break and the indentation of the given depth, two spaces a level. -/
def newLine (depth : Nat) : String := "\n" ++ String.ofList (List.replicate (2 * depth) ' ')

/-- Items one a line between brackets; none make an empty pair. -/
def laidOut (opening closing : String) (depth : Nat) (items : List String) : String :=
  if items.isEmpty then opening ++ closing
  else
    opening ++ newLine (depth + 1) ++ (("," ++ newLine (depth + 1)).intercalate items) ++
      newLine depth ++ closing

mutual

/-- A value over several lines, its parts indented. -/
def prettyAt (depth : Nat) : Value → String
  | .list items | .tuple items => laidOut "[" "]" depth (prettyItems (depth + 1) items)
  | .object entries => laidOut "\x7b" "\x7d" depth (prettyEntries (depth + 1) entries)
  | v => atomText v

/-- The items of a list, each laid out. -/
def prettyItems (depth : Nat) : List Value → List String
  | [] => []
  | v :: rest => prettyAt depth v :: prettyItems depth rest

/-- The entries of an object, each laid out. -/
def prettyEntries (depth : Nat) : List (Value × Value) → List String
  | [] => []
  | (k, v) :: rest => (keyQuoted k ++ ": " ++ prettyAt depth v) :: prettyEntries depth rest

end

/-- A value over several lines, two spaces a level. -/
def pretty (v : Value) : String := prettyAt 0 v

/-- A value over several lines, unless some part of it cannot be written. -/
def write (v : Value) : Except Unwritable String :=
  match obstacle? v with
  | some u => .error u
  | none => .ok (pretty v)

mutual

/-- A value on one line. -/
def compact : Value → String
  | .list items | .tuple items => "[" ++ ", ".intercalate (compactItems items) ++ "]"
  | .object entries => "\x7b" ++ ", ".intercalate (compactEntries entries) ++ "\x7d"
  | v => atomText v

/-- The items of a list, each on one line. -/
def compactItems : List Value → List String
  | [] => []
  | v :: rest => compact v :: compactItems rest

/-- The entries of an object, each on one line. -/
def compactEntries : List (Value × Value) → List String
  | [] => []
  | (k, v) :: rest => (keyQuoted k ++ ": " ++ compact v) :: compactEntries rest

end

end CadenceUplift.Json
