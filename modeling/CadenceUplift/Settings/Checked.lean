import CadenceUplift.Data.Value
import CadenceUplift.Rule.Basic

namespace CadenceUplift

/-- What is wrong with one value of a settings file. -/
inductive SettingFault where
  | missing
  | notText
  /-- Octets that are no text, or a text with a half of a character in it. -/
  | notUnicode
  | notFlag
  /-- A text or a number that is no flag. -/
  | unreadFlag
  | notWhole
  /-- A text that is no whole number. -/
  | unreadWhole
  | fraction
  | notFinite
  /-- A number too great to be read as a whole one. -/
  | tooGreat
  | tooSmall
  | notList
  | notMapping
  | badCategory
  | badExtension (extension : String)
deriving DecidableEq, Repr, Inhabited

namespace SettingFault

def code : SettingFault → String
  | .missing => "missing"
  | .notText => "string_type"
  | .notUnicode => "string_unicode"
  | .notFlag => "bool_type"
  | .unreadFlag => "bool_parsing"
  | .notWhole => "int_type"
  | .unreadWhole => "int_parsing"
  | .fraction => "int_from_float"
  | .notFinite => "finite_number"
  | .tooGreat => "int_parsing_size"
  | .tooSmall => "greater_than_equal"
  | .notList => "list_type"
  | .notMapping => "model_type"
  | .badCategory | .badExtension _ => "value_error"

/-- The wording of a fault that has one. -/
def detail : SettingFault → String
  | .badCategory => "Value error, category must be one of " ++ Category.names
  | .badExtension e => "Value error, extension '" ++ e ++ "' must start with '.'"
  | _ => ""

end SettingFault

/-- A fault and where it is: the names and list positions that lead to it. -/
structure SettingIssue where
  path : List String
  fault : SettingFault
deriving DecidableEq, Repr, Inhabited

/-- Where an issue is, in one word. -/
def SettingIssue.place (i : SettingIssue) : String := ".".intercalate i.path

/-- The outcome of a check. -/
inductive Checked (α : Type) where
  | ok (value : α)
  | bad (issues : List SettingIssue)
deriving Repr, Inhabited

namespace Checked

def issues {α : Type} : Checked α → List SettingIssue
  | .ok _ => []
  | .bad is => is

/-- A check that fails with one fault, at the place where it is made. -/
def fault {α : Type} (f : SettingFault) : Checked α := .bad [⟨[], f⟩]

/-- The check that a reading makes. -/
def ofExcept {α : Type} : Except SettingFault α → Checked α
  | .ok a => .ok a
  | .error f => .fault f

def map {α β : Type} (f : α → β) : Checked α → Checked β
  | .ok a => .ok (f a)
  | .bad is => .bad is

/-- Two checks side by side. -/
def both {α β : Type} : Checked α → Checked β → Checked (α × β)
  | .ok a, .ok b => .ok (a, b)
  | .ok _, .bad is => .bad is
  | .bad is, .ok _ => .bad is
  | .bad is, .bad js => .bad (is ++ js)

/-- A further check of a value that passed. -/
def andThen {α β : Type} (c : Checked α) (f : α → Checked β) : Checked β :=
  match c with
  | .ok a => f a
  | .bad is => .bad is

/-- The check of a part: its issues lie under a name. -/
def under {α : Type} (name : String) : Checked α → Checked α
  | .ok a => .ok a
  | .bad is => .bad (is.map fun i => { i with path := name :: i.path })

/-- The checks of items from a position on, all of them made. -/
def items {α : Type} (check : Value → Checked α) : Nat → List Value → Checked (List α)
  | _, [] => .ok []
  | n, v :: rest =>
    (both ((check v).under (toString n)) (items check (n + 1) rest)).map fun p => p.1 :: p.2

end Checked

end CadenceUplift
