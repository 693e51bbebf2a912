import CadenceUplift.Interactive.Advice
import CadenceUplift.Interactive.Confidence
import CadenceUplift.Uplift
import CadenceUplift.Scan.Content
import CadenceUplift.Scan.Result

namespace CadenceUplift

/-- The file that findings in such code are said to be in. -/
def inputName : String := "input"

/-- Legacy constructs in a text outside comments and strings, by place. -/
def legacyFindings (s : List Char) : List Finding :=
  sortByPlace (scanText .discard s inputName (some true)).findings

/-- The pass that uplifts a construct, if one does. -/
def Construct.fixPass? : Construct → Option Category
  | .pubKeyword => some .accessModifier
  | .interfaceConformance => some .interface
  | .storageApi => some .storage
  | .functionSignature => some .function
  | _ => none

/-- A construct can be changed mechanically: a pass covers it, and it is no `account.link` call. -/
def isFixable (construct : Construct) (matched : String) : Bool :=
  construct.fixPass?.isSome && (Legacy.link.matchAt matched.toList.toArray 0).isNone

def Finding.fixable (f : Finding) : Bool := isFixable f.construct f.matched

/-- How to modernize one finding. -/
structure Suggestion where
  finding : Finding
  /-- The finding's line as uplifted; empty when the uplift leaves it as it is. -/
  modern : String
  explanation : String
  sample : Sample
  confidence : Confidence
  fixable : Bool
deriving DecidableEq, Repr, Inhabited

def suggestionFor [CharacterNames] (r : RuleSet) (ls : List (List Char)) (f : Finding) :
    Except UpliftError Suggestion := do
  let line := ls.getD (f.site.line - 1).toNat []
  let uplifted ← r.uplift line
  let modern := if uplifted.text = line then "" else String.ofList (Text.trim uplifted.text)
  return {
    finding := f
    modern := modern
    explanation := f.construct.explanation
    sample := f.construct.sample?.getD ⟨f.matched, modern, f.suggestedFix⟩
    confidence := .ofSuggestion f.severity f.fixable
    fixable := f.fixable }

/-- The outcome of a check. -/
structure InputCheck where
  findings : List Finding
  suggestions : List Suggestion
  lessons : List Lesson
  confidence : Confidence
deriving DecidableEq, Repr, Inhabited

namespace InputCheck

/-- No critical construct is present. -/
def valid (c : InputCheck) : Bool := !(c.findings.any (·.severity == .critical))

end InputCheck

/-- Checks a text and suggests modern forms. -/
def checkInput [CharacterNames] (r : RuleSet) (s : List Char) : Except UpliftError InputCheck := do
  let fs := legacyFindings s
  let ls := Text.lines s
  return {
    findings := fs
    suggestions := ← fs.mapM (suggestionFor r ls)
    lessons := (fs.map (·.construct)).eraseDups.filterMap (·.lesson?)
    confidence := .ofDetection (fs.map (·.construct)) }

end CadenceUplift
