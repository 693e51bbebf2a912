import CadenceUplift.Data.Lookup
import CadenceUplift.Number.Whole

namespace CadenceUplift

/-- A named source sample. -/
structure Template where
  id : String
  name : Value
  description : Value
  category : Value
  tags : List Value
  code : Value
  author : Value
  downloads : Int
  featured : Bool
deriving Repr, Inhabited

/-- Why a record is no template. -/
inductive TemplateError where
  /-- It has no identifier. -/
  | lookup (e : LookupFault)
  | tagsNotList (v : Value)
  | notNumber (v : Value)
  | badNumber (e : WholeFault)
  | notFinite (x : Real)
deriving Repr, Inhabited

/-- The wording of a value without items where items are needed. -/
def notIterableMessage (v : Value) : String := "'" ++ v.kindWord ++ "' object is not iterable"

def TemplateError.message : TemplateError → String
  | .lookup e => e.message
  | .tagsNotList v => notIterableMessage v
  | .notNumber v =>
    "int() argument must be a string, a bytes-like object or a real number, not '" ++ v.kindWord ++ "'"
  | .badNumber e => e.message
  | .notFinite .undefined => "cannot convert float NaN to integer"
  | .notFinite _ => "cannot convert float infinity to integer"

/-- The character of an octet in a number; octets that are no part of one become a character that is
none either. -/
def octetChar (b : UInt8) : Char :=
  let c := Char.ofNat b.toNat
  if c.toNat < 128 ∧ (c.isWhitespace ∨ c = '\x0b' ∨ c = '\x0c' ∨ 32 < c.toNat) then c else '\ufffd'

/-- The whole number that octets write in decimal digits. -/
def wholeOfOctets (bytes : List UInt8) : Except WholeFault Int :=
  wholeInBase 10 (String.ofList ((Text.quotedOctets bytes).take 200)) (bytes.map octetChar)

namespace Value

/-- A value as a whole number: texts are read, fractions cut off. -/
def toWhole : Value → Except TemplateError Int
  | .int n => .ok n
  | .bool b => .ok (if b then 1 else 0)
  | .real (.finite negative x) => .ok (Real.signed negative x.truncate)
  | .real x => .error (.notFinite x)
  | .text s => (wholeNumber s.toList).mapError .badNumber
  | .octets bytes => (wholeOfOctets bytes).mapError .badNumber
  | v => .error (.notNumber v)

/-- The items of a value: a text gives its characters, octets their numbers, and an object its keys. -/
def items? : Value → Option (List Value)
  | .list items | .tuple items | .set items => some items
  | .text s => some (s.toList.map fun c => .text (String.singleton c))
  | .octets bytes => some (bytes.map fun b => .int b.toNat)
  | .object entries => some (entries.map (·.1))
  | _ => none

/-- The tags that a value lists; what counts as absent lists none. -/
def toTags (v : Value) : Except TemplateError (List Value) :=
  if !v.truthy then .ok []
  else
    match v.items? with
    | some items => .ok items
    | none => .error (.tagsNotList v)

end Value

namespace Template

def ofValue (v : Value) : Except TemplateError Template := do
  let id ← (v.entry "id").mapError .lookup
  let part (name : String) (default : Value) : Value := (v.field? name).getD default
  let tags ← (part "tags" .null).toTags
  let downloads ← (part "downloads" (.int 0)).toWhole
  return {
    id := id.display
    name := part "name" (.text id.display)
    description := part "description" (.text "")
    category := part "category" (.text "")
    tags := tags
    code := part "code" (.text "")
    author := part "author" (.text "")
    downloads := downloads
    featured := (part "featured" (.bool false)).truthy }

/-- A template as a record. -/
def toValue (t : Template) : Value := .record [
  ("id", .text t.id),
  ("name", t.name),
  ("description", t.description),
  ("category", t.category),
  ("tags", .list t.tags),
  ("code", t.code),
  ("author", t.author),
  ("downloads", .int t.downloads),
  ("featured", .bool t.featured)]

/-- The name under which a template is scanned and reported. -/
def label (t : Template) : String := "template:" ++ t.id

end Template

end CadenceUplift
