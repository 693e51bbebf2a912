import CadenceUplift.Text.Lines

namespace CadenceUplift

/-- Where a diagnostic starts, and over how many characters it runs if that is known. -/
structure Mark where
  line : Nat
  column : Nat
  length : Option Nat := none
deriving DecidableEq, Repr, Inhabited

/-- A diagnostic as `Line L:C - message`, with the suggestion in brackets if there is one. -/
def Mark.report (m : Mark) (message : String) (suggestion : Option String) : String :=
  "Line " ++ toString m.line ++ ":" ++ toString m.column ++ " - " ++ message ++
    match suggestion with
    | some s => if s.isEmpty then "" else " (" ++ s ++ ")"
    | none => ""

/-- A diagnostic ready to be shown. -/
structure Issue where
  kind : String
  mark : Mark
  message : String
  suggestion : String
deriving DecidableEq, Repr, Inhabited

/-- The one-line form of a diagnostic. -/
def Issue.report (i : Issue) : String := i.mark.report i.message (some i.suggestion)

end CadenceUplift
