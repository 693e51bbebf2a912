import CadenceUplift.Diagnostic.Bracket
import CadenceUplift.Legacy.Catalog
import CadenceUplift.Migration.Code
import CadenceUplift.Uplift
import CadenceUplift.Validation.Verdict

namespace CadenceUplift

/-- Why a template could not be processed at all. -/
inductive MigrationFault where
  | code (e : CodeFault)
  /-- The code reads like legacy code, but is not a text. -/
  | notSearchable (v : Value)
  | uplift (e : UpliftError)
  /-- The description is not a text. -/
  | descriptionNotText (v : Value)
deriving Repr, Inhabited

def MigrationFault.message : MigrationFault → String
  | .code e => e.message
  | .notSearchable v => "expected string or bytes-like object, got '" ++ v.kindWord ++ "'"
  | .uplift e => e.message
  | .descriptionNotText (.octets _) => "a bytes-like object is required, not 'str'"
  | .descriptionNotText v => "'" ++ v.kindWord ++ "' object has no attribute 'lower'"

def modernTag : String := "Cadence 1.0"

def modernSuffix : String := " (Updated for Cadence 1.0 compatibility)"

/-- Blanked code needs migration: one of the catalog's constructs occurs in it. -/
def isLegacy (code : List Char) : Bool := Legacy.outdated.any (·.occursIn code)

/-- What the constructs that need migration are called in errors, in the catalog's order. -/
def legacyLabels : List String := [
  "pub keyword usage", "pub(set) keyword usage", "comma-separated interface conformance",
  "legacy storage API usage", "legacy capability API usage"]

/-- Hints at modern idioms that blanked code does not use. -/
def modernHints (code : List Char) : List String :=
  let has (s : String) : Bool := Text.hasText code s.toList
  (if has "access(" then [] else ["Consider using explicit access modifiers like access(all)"]) ++
    (if has "account.storage" && !has "account.capabilities" then
      ["Consider using capability-based access patterns where appropriate"] else []) ++
    (if has "fun get" && !has "view fun" then
      ["Consider adding view modifier to getter functions"] else [])

/-- The verdict on blanked code: legacy constructs and bracket errors count against it. -/
def checkMigrated (code : List Char) : Verdict :=
  let legacy := (Legacy.outdated.zip legacyLabels).filterMap fun p =>
    if p.1.occursIn code then some ("Legacy syntax found: " ++ p.2) else none
  let errors := legacy ++ (bracketErrors code).map (·.issue.report)
  ⟨errors.isEmpty, errors, modernHints code⟩

def lowered (s : String) : List Char := s.toList.map Char.toLower

namespace Template

def modernTags (tags : List Value) : List Value :=
  if tags.any (·.isNamed modernTag) then tags else tags ++ [.text modernTag]

/-- The description of a modern template, which names the dialect once. -/
def modernDescription (d : String) : String :=
  if Text.hasText (lowered d) (lowered modernTag) then d else d ++ modernSuffix

def markModern (t : Template) : Except MigrationFault Template :=
  match t.description with
  | .text d => .ok { t with tags := modernTags t.tags, description := .text (modernDescription d) }
  | v => .error (.descriptionNotText v)

end Template

def Category.transformationName : Category → String
  | .accessModifier => "access-modifier-transformation"
  | .interface => "interface-conformance-transformation"
  | .storage => "storage-api-transformation"
  | .function => "function-signature-transformation"
  | .imports => "import-statement-transformation"

/-- The outcome of migrating one template. -/
structure Outcome where
  source : Template
  migrated : Template
  needed : Bool
  success : Bool
  applied : List String := []
  substitutions : Nat := 0
  verdict : Option Verdict := none
  error : Option String := none
  notes : List Note := []
deriving Repr, Inhabited

namespace Outcome

/-- The template was left as it is: nothing to do. -/
def skipped (t : Template) : Outcome := { source := t, migrated := t, needed := false, success := true }

/-- The template could not be processed. -/
def failed (t : Template) (error : String) : Outcome :=
  { source := t, migrated := t, needed := true, success := false, error := some error }

def accepted (o : Outcome) : Bool := o.needed && o.success

end Outcome

/-- The passes that change a text, by their names. -/
def appliedNames (r : Uplifted) : List String := r.activePasses.map (·.transformationName)

/-- Migrates one template. -/
def migrate [CharacterNames] (r : RuleSet) (t : Template) : Except MigrationFault Outcome := do
  if !isLegacy (← t.code.blanked.mapError .code) then return .skipped t
  let .text code := t.code | .error (.notSearchable t.code)
  let uplifted ← (r.uplift code.toList).mapError .uplift
  let verdict := if r.options.validates then some (checkMigrated (codeOnly uplifted.text)) else none
  let base : Outcome :=
    { source := t
      migrated := t
      needed := true
      success := false
      applied := appliedNames uplifted
      substitutions := uplifted.total
      verdict := verdict
      notes := uplifted.notes }
  match verdict with
  | some v =>
    if v.valid then
      let new ← { t with code := .text (String.ofList uplifted.text) }.markModern
      return { base with migrated := new, success := true }
    else return { base with error := some ("; ".intercalate v.errors) }
  | none =>
    let new ← { t with code := .text (String.ofList uplifted.text) }.markModern
    return { base with migrated := new, success := true }

/-- How code differs before and after a migration. -/
structure CodeStats where
  oldLines : Nat
  migratedLines : Nat
  oldSize : Nat
  migratedSize : Nat
  differs : Bool
deriving DecidableEq, Repr, Inhabited

/-- The number of lines that were added or removed. -/
def CodeStats.lineDifference (s : CodeStats) : Nat :=
  (s.oldLines - s.migratedLines) + (s.migratedLines - s.oldLines)

/-- Compares code before and after a migration. -/
def CodeStats.compare (old migrated : List Char) : CodeStats :=
  ⟨(Text.lines old).length, (Text.lines migrated).length, old.length, migrated.length,
    old != migrated⟩

/-- The passes that change a text, when the new text differs from it. -/
def replayedNames [CharacterNames] (r : RuleSet) (old new : List Char) : Except UpliftError (List String) :=
  if old = new then .ok [] else do return appliedNames (← r.uplift old)

end CadenceUplift
