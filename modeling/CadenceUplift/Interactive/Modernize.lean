import CadenceUplift.Interactive.Check
import CadenceUplift.Validation.Verdict

namespace CadenceUplift

/-- What a modernization may do. -/
structure ModernizeOptions where
  fixCritical : Bool := true
  fixWarnings : Bool := false
  preserveComments : Bool := true
  addComments : Bool := false
deriving DecidableEq, Repr, Inhabited

def ModernizeOptions.enables (o : ModernizeOptions) (s : Severity) : Bool :=
  (o.fixCritical && s == .critical) || (o.fixWarnings && s == .warning)

/-- The outcome of a modernization. -/
structure Modernized where
  text : List Char
  applied : List String
  confidence : Confidence
  needsReview : Bool
  warnings : List String
deriving DecidableEq, Repr, Inhabited

/-- The passes that fix findings of the enabled severities, in order. -/
def passesFor (o : ModernizeOptions) (fs : List Finding) : List Category :=
  let wanted := (fs.filter fun f => o.enables f.severity && f.fixable).filterMap (·.construct.fixPass?)
  Category.ordered.filter wanted.contains

/-- The hints for the findings on one line, each once. -/
def lineFixes (fs : List Finding) (line : Nat) : List String :=
  ((fs.filter (·.site.line == (line : Int))).map (·.suggestedFix)).eraseDups

/-- The comment above a changed line, indented as the line is. -/
def explanationLine (fs : List Finding) (number : Nat) (new : List Char) : List Char :=
  let note := "; ".intercalate (lineFixes fs number)
  new.takeWhile Text.isBlank ++
    ("// Modernized: " ++ (if note.isEmpty then "Updated to Cadence 1.0 syntax" else note)).toList

/-- Lines of an uplifted text from the given number on, with a comment above each that changed. -/
def explainLines (fs : List Finding) : Nat → List (List Char) → List (List Char) → List (List Char)
  | number, old :: olds, new :: news =>
    (if old = new then [new] else [explanationLine fs number new, new]) ++
      explainLines fs (number + 1) olds news
  | _, _, _ => []

/-- An uplifted text with a comment above each changed line. -/
def addExplanations (old new : List Char) (fs : List Finding) : List Char :=
  Text.unlines (explainLines fs 1 (Text.lines old) (Text.lines new))

/-- Runs the passes that apply, with a line on each that replaced something. -/
def runFixes [CharacterNames] (r : RuleSet) : List Category → List Char → Except UpliftError (List Char × List String)
  | [], s => .ok (s, [])
  | c :: rest, s => do
    let once ← r.upliftPass (.text c.name) s
    let (final, applied) ← runFixes r rest once.text
    let line := c.name ++ " transformation: " ++ toString once.count ++ " substitution(s)"
    return (final, if once.count = 0 then applied else line :: applied)

def modernize [CharacterNames] (r : RuleSet) (o : ModernizeOptions) (s : List Char) :
    Except UpliftError Modernized := do
  let before := legacyFindings s
  let rules := { r with options := { r.options with preserveComments := .bool o.preserveComments } }
  let (uplifted, applied) ← runFixes rules (passesFor o before) s
  let remaining := legacyFindings uplifted
  let verdict := rejection uplifted
  let warnings := remaining.map (fun f =>
      "Manual review required: " ++ f.description ++ " at line " ++ toString f.site.line) ++
    (if verdict.rejected then ["Modernized code is still rejected: " ++ verdict.reason] else [])
  return {
    text := if o.addComments && uplifted != s then addExplanations s uplifted before else uplifted
    applied := applied
    confidence := .ofModernization (before.length - remaining.length : Nat) remaining.length
    needsReview := !remaining.isEmpty || verdict.rejected
    warnings := warnings }

end CadenceUplift
