import CadenceUplift.Data.Calendar
import CadenceUplift.Number.Whole

namespace CadenceUplift.Yaml

/-- What is wrong with a YAML text. -/
inductive Fault where
  /-- The text has not the form of a document. -/
  | malformed
  /-- An escape names a code beyond the last character. -/
  | noCharacter (code : Nat)
  | whole (e : WholeFault)
  /-- A scalar tagged as a real number is none. -/
  | notReal (text : List Char)
  /-- A scalar tagged as a number is empty. -/
  | noDigits
  | notFlag (word : List Char)
  | notTime
  | calendar (e : CalendarFault)
deriving DecidableEq, Repr, Inhabited

namespace Fault

/-- The wording of a fault; a fault of form has none that is worth telling. -/
def message : Fault → String
  | .malformed => "malformed document"
  | .noCharacter code =>
    if code < 0x80000000 then "chr() arg not in range(0x110000)"
    else "Python int too large to convert to C int"
  | .whole e => e.message
  | .notReal s => "could not convert string to float: " ++ String.ofList (Text.quoted s)
  | .noDigits => "string index out of range"
  | .notFlag word => String.ofList (Text.quoted word)
  | .notTime => "'NoneType' object has no attribute 'groupdict'"
  | .calendar e => e.message

/-- The fault lies in what a text says, and a reader of documents tells it like a fault of form. -/
def isPlain : Fault → Bool
  | .malformed | .whole _ | .notReal _ | .calendar _ => true
  | .noCharacter code => decide (code < 0x80000000)
  | .noDigits | .notFlag _ | .notTime => false

end Fault

end CadenceUplift.Yaml
