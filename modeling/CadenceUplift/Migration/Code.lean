import CadenceUplift.Literal.Blank
import CadenceUplift.Migration.Template

namespace CadenceUplift

/-- Why the code of a template could not be blanked. -/
inductive CodeFault where
  /-- It has no items. -/
  | notIterable (v : Value)
  /-- Its items have no places. -/
  | noPlaces (v : Value)
  /-- There is no item at a place. -/
  | noItem (place : Nat)
  /-- An item could start a comment, which only a text can hold. -/
  | comment (v : Value)
  /-- An item is no text. -/
  | notText (place : Nat) (item : Value)
deriving Repr, Inhabited

def CodeFault.message : CodeFault → String
  | .notIterable v => notIterableMessage v
  | .noPlaces v => "'" ++ v.kindWord ++ "' object is not subscriptable"
  | .noItem place => toString place
  | .comment v => "'" ++ v.kindWord ++ "' object has no attribute 'startswith'"
  | .notText place item =>
    "sequence item " ++ toString place ++ ": expected str instance, " ++ item.kindWord ++ " found"

namespace Value

/-- The item at a place: that of a list by its position, that of an object under the place as a key. -/
def itemAt (v : Value) (place : Nat) : Except CodeFault Value :=
  match v with
  | .set _ => .error (.noPlaces v)
  | .object entries =>
    match entries.find? fun e => e.1.same (.int place) with
    | some e => .ok e.2
    | none => .error (.noItem place)
  | _ =>
    match v.items?.bind (·[place]?) with
    | some item => .ok item
    | none => .error (.noItem place)

/-- The first place after the string that is open at place `i`, in code of `size` items. -/
def stringStop (v : Value) (size i : Nat) : Except CodeFault Nat :=
  if i < size then do
    let item ← v.itemAt i
    if item.isNamed "\\" then stringStop v size (i + 2)
    else if item.isNamed "\"" then return i + 1
    else if item.isNamed "\n" then return i
    else stringStop v size (i + 1)
  else .ok size
termination_by size - i

def stringsFrom (v : Value) (size i : Nat) : Except CodeFault (List Literal) :=
  if i < size then do
    let item ← v.itemAt i
    if item.isNamed "/" then .error (.comment v)
    else if item.isNamed "\"" then
      let stop ← v.stringStop size (i + 1)
      return ⟨i, stop, .string⟩ :: (← stringsFrom v size (max stop (i + 1)))
    else stringsFrom v size (i + 1)
  else .ok []
termination_by size - i

/-- The first and the last place, exclusive, of what is blanked in a string. -/
def insideOf (v : Value) (l : Literal) : Except CodeFault (Nat × Nat) :=
  if l.start + 1 < l.stop then do
    let last ← v.itemAt (l.stop - 1)
    return (l.start + 1, if last.isNamed "\"" then l.stop - 1 else l.stop)
  else .ok (l.start + 1, l.stop)

/-- The items joined to a text, those at the given places blanked. -/
def joinItems (blank : List (Nat × Nat)) : Nat → List Value → Except CodeFault (List Char)
  | _, [] => .ok []
  | i, item :: rest => do
    if (blank.any fun b => b.1 ≤ i && i < b.2) && !item.isNamed "\n" then
      return ' ' :: (← joinItems blank (i + 1) rest)
    match item with
    | .text s => return s.toList ++ (← joinItems blank (i + 1) rest)
    | _ => .error (.notText i item)

/-- Code with its comments and the insides of its strings blanked. -/
def blanked (v : Value) : Except CodeFault (List Char) :=
  match v with
  | .text s => .ok (codeOnly s.toList)
  | _ =>
    match v.items? with
    | none => .error (.notIterable v)
    | some items => do
      let strings ← v.stringsFrom items.length 0
      joinItems (← strings.mapM v.insideOf) 0 items

end Value

end CadenceUplift
