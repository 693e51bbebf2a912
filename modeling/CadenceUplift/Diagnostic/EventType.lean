import CadenceUplift.Pattern.Match
import CadenceUplift.Legacy.Shapes

namespace CadenceUplift

open Pattern Legacy

/-- The brackets that keep separators inside them from cutting. -/
def opensNesting (c : Char) : Bool := c == '(' || c == '[' || c == '\x7b' || c == '<'

/-- The closing brackets that end such nesting. -/
def closesNesting (c : Char) : Bool := c == ')' || c == ']' || c == '\x7d' || c == '>'

/-- A trimmed part of a text and the offset at which it stands. -/
structure Part where
  text : List Char
  offset : Nat
deriving DecidableEq, Repr, Inhabited

/-- The part that a segment starting at `start` holds, if it is not blank. -/
def partOf? (segment : List Char) (start : Nat) : Option Part :=
  if Text.allBlank segment then none
  else some ⟨Text.trim segment, start + (segment.takeWhile Text.isBlank).length⟩

/-- The parts of a text; `taken` holds the segment being read, last character first, and `start` its
offset. The last segment counts only when all brackets are closed. -/
def splitFrom (sep : Char) : Int → Nat → List Char → List Char → List Part
  | depth, start, taken, [] => if depth ≤ 0 then (partOf? taken.reverse start).toList else []
  | depth, start, taken, c :: r =>
    if opensNesting c then splitFrom sep (depth + 1) start (c :: taken) r
    else if closesNesting c then splitFrom sep (depth - 1) start (c :: taken) r
    else if c = sep ∧ depth ≤ 0 then
      (partOf? taken.reverse start).toList ++ splitFrom sep depth (start + taken.length + 1) [] r
    else splitFrom sep depth start (c :: taken) r

/-- The parts of a text between separators outside brackets, blank ones left out. -/
def topLevelParts (s : List Char) (sep : Char) : List Part := splitFrom sep 0 0 [] s

def primitiveTypes : List String := [
  "String", "Character", "Bool", "Address", "Void", "AnyStruct", "AnyResource",
  "Int", "Int8", "Int16", "Int32", "Int64", "Int128", "Int256",
  "UInt", "UInt8", "UInt16", "UInt32", "UInt64", "UInt128", "UInt256",
  "Word8", "Word16", "Word32", "Word64",
  "Fix64", "UFix64", "Path", "StoragePath", "PublicPath", "Type"]

def capital : Pattern := .member { items := [.range 'A' 'Z'] }

/-- A dot and a name. -/
def dotName : Pattern := all (.char '.' :: plainName)

/-- A capitalised name, possibly with dotted parts. -/
def nominalType : Pattern := all [capital, many word, many dotName]

/-- A name with at least one dotted part. -/
def dottedType : Pattern := all (plainName ++ [many1 dotName])

/-- A nominal type with arguments between angle brackets: group 2 is the arguments. -/
def genericType : Pattern := all [.group 1 nominalType, .char '<', .group 2 (many1 .any), .char '>']

/-- A text without its first and last character. -/
def insideOf (t : List Char) : List Char := t.tail.dropLast

/-- A valid parameter type; `fuel` bounds its length. -/
def isEventTypeWithin : Nat → List Char → Bool
  | 0, _ => false
  | fuel + 1, text =>
    let t := Text.trim text
    let valid := isEventTypeWithin fuel
    if t.isEmpty then false
    else if Text.endsWith t ['?'] then valid t.dropLast
    else if Text.startsWith t ['&'] then valid t.tail
    else if Text.startsWith t ['['] && Text.endsWith t [']'] then
      valid ((insideOf t).takeWhile (· != ';'))
    else if Text.startsWith t ['\x7b'] && Text.endsWith t ['\x7d'] then
      match topLevelParts (insideOf t) ':' with
      | [key, value] => valid key.text && valid value.text
      | _ => (topLevelParts (insideOf t) ',').all fun p => valid p.text
    else if primitiveTypes.contains (String.ofList t) then true
    else
      match genericType.fullMatch t.toArray with
      | some m => (topLevelParts (m.groupText t.toArray 2) ',').all fun p => valid p.text
      | none => (nominalType.fullMatch t.toArray).isSome || (dottedType.fullMatch t.toArray).isSome

def isEventType (t : List Char) : Bool := isEventTypeWithin (t.length + 1) t

end CadenceUplift
