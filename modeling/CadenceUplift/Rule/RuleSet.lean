import CadenceUplift.Rule.Default

namespace CadenceUplift

/-- The options of a run. Callers may give anything for them; what counts is whether it is there. -/
structure RunOptions where
  targetVersion : Value := .text "1.0"
  /-- Leave comments and strings as they are. -/
  preserveComments : Value := .bool true
  /-- Check uplifted code before accepting it. -/
  validateAfter : Value := .bool true
  /-- Keep the old form of every template that was uplifted. -/
  keepBackups : Value := .bool true
deriving Repr, Inhabited

/-- A change to one of the options. -/
inductive OptionChange where
  | targetVersion (v : Value)
  | preserveComments (v : Value)
  | validateAfter (v : Value)
  | keepBackups (v : Value)
  /-- A name that is not an option. -/
  | unknown (name : String)
deriving Repr, Inhabited

namespace RunOptions

/-- The options after one change. -/
def change (o : RunOptions) : OptionChange → RunOptions
  | .targetVersion v => { o with targetVersion := v }
  | .preserveComments v => { o with preserveComments := v }
  | .validateAfter v => { o with validateAfter := v }
  | .keepBackups v => { o with keepBackups := v }
  | .unknown _ => o

/-- Comments and strings are left as they are. -/
def preserves (o : RunOptions) : Bool := o.preserveComments.truthy

def validates (o : RunOptions) : Bool := o.validateAfter.truthy

def backsUp (o : RunOptions) : Bool := o.keepBackups.truthy

end RunOptions

/-- Rules in order, and the options that go with them. -/
structure RuleSet where
  options : RunOptions := {}
  rules : List Rule := Rule.defaults
deriving Inhabited

/-- What can be wrong with a rule set or with a change to it. -/
inductive RuleSetError where
  | unknownOptions (names : List String)
  | invalid (violations : List String)
  /-- A rule could not even be checked. -/
  | rule (e : UpliftError)
deriving Repr, Inhabited

def RuleSetError.message : RuleSetError → String
  | .unknownOptions names => "Unknown configuration option(s): " ++ ", ".intercalate names
  | .invalid violations => "Rule set validation failed: " ++ "; ".intercalate violations
  | .rule e => e.message

/-- Each text once, in ascending order. -/
def sortedUnique (names : List String) : List String :=
  (names.eraseDups).mergeSort fun a b => decide (a ≤ b)

/-- A value whose text has nothing but blanks in it. -/
def isBlankValue (v : Value) : Bool := Text.allBlank v.display.toList

namespace Value

def isNull : Value → Bool
  | .null => true
  | _ => false

end Value

/-- A part that is missing or blank. -/
def isMissing (v : Value) : Bool := v.isNull || isBlankValue v

namespace Replacement

/-- No replacement is given. -/
def isMissing : Replacement → Bool
  | .template v => v.isNull
  | .function _ => false

end Replacement

namespace Rule

/-- The parts of a rule that are required and missing or blank, by name; an empty replacement is
allowed. -/
def missingParts (r : Rule) : List String :=
  (if CadenceUplift.isMissing r.pattern then ["pattern"] else []) ++
    (if r.replacement.isMissing then ["replacement"] else []) ++
    (if CadenceUplift.isMissing r.description then ["description"] else []) ++
    (if CadenceUplift.isMissing r.category then ["category"] else [])

/-- The names a category may have. -/
def knownCategory (name : String) : Bool := Category.ordered.any (·.name == name)

def isCategory : Value → Bool
  | .text name => knownCategory name
  | _ => false

/-- What the text before a violation of the rule of the given number says. -/
def violationLead (index : Nat) : String := "Transformation rule " ++ toString index ++ ": "

/-- What is wrong with the pattern of the rule of the given number; one that is not given is not
looked at. -/
def patternViolations [CharacterNames] (index : Nat) (r : Rule) : Except UpliftError (List String) :=
  if !r.pattern.truthy then .ok []
  else
    match r.compile with
    | .ok _ => .ok []
    | .error (.pattern e) =>
      if e.fault.isFormal then
        .ok [violationLead index ++ "pattern is not a valid regular expression (" ++ e.message ++ ")"]
      else .error (.pattern e)
    | .error e => .error e

def violations [CharacterNames] (index : Nat) (r : Rule) : Except UpliftError (List String) := do
  let missing := r.missingParts.map fun part => violationLead index ++ part ++ " is required"
  let category :=
    if r.category.truthy && !isCategory r.category then
      [violationLead index ++ "category must be one of " ++ Category.names]
    else []
  return missing ++ category ++ (← r.patternViolations index)

end Rule

namespace RuleSet

/-- Applies changes to the options, unless one of them names no option. -/
def update (r : RuleSet) (changes : List OptionChange) : Except RuleSetError RuleSet :=
  match changes.filterMap fun c => match c with | .unknown n => some n | _ => none with
  | [] => .ok { r with options := changes.foldl RunOptions.change r.options }
  | names => .error (.unknownOptions (sortedUnique names))

def add (r : RuleSet) (rule : Rule) : RuleSet := { r with rules := r.rules ++ [rule] }

/-- Removes every rule with exactly this description. -/
def remove (r : RuleSet) (description : Value) : RuleSet :=
  { r with rules := r.rules.filter fun x => !x.description.same description }

/-- The rules of one category, in order. -/
def byCategory (r : RuleSet) (category : Value) : List Rule :=
  r.rules.filter fun x => x.category.same category

/-- The first rule that has a description, among those met so far. -/
def firstWith (description : Value) (seen : List (Value × Nat)) : Option Nat :=
  (seen.find? fun s => s.1.same description).map (·.2)

/-- Violations of the rules from number `index` on; `seen` holds the descriptions met so far, each with
the first rule that has it. -/
def ruleViolations [CharacterNames] : Nat → List (Value × Nat) → List Rule → Except UpliftError (List String)
  | _, _, [] => .ok []
  | index, seen, r :: rest => do
    let own ← r.violations index
    let d := r.description
    if !d.truthy then return own ++ (← ruleViolations (index + 1) seen rest)
    else if !d.isKey then .error (.notKey d)
    else
      match firstWith d seen with
      | some first =>
        let duplicate := Rule.violationLead index ++ "description duplicates rule " ++ toString first ++
          " ('" ++ d.display ++ "')"
        return own ++ duplicate :: (← ruleViolations (index + 1) seen rest)
      | none => return own ++ (← ruleViolations (index + 1) (seen ++ [(d, index)]) rest)

/-- Everything that makes the rule set unusable for a run. -/
def violations [CharacterNames] (r : RuleSet) : Except UpliftError (List String) := do
  let v := r.options.targetVersion
  let version := if !v.truthy || isBlankValue v then ["Target Cadence version is required"] else []
  let rules := if r.rules.isEmpty then ["At least one transformation rule is required"] else []
  return version ++ rules ++ (← ruleViolations 1 [] r.rules)

/-- The rule set itself, unless something makes it unusable. -/
def usable [CharacterNames] (r : RuleSet) : Except RuleSetError RuleSet :=
  match r.violations with
  | .ok [] => .ok r
  | .ok violations => .error (.invalid violations)
  | .error e => .error (.rule e)

end RuleSet

end CadenceUplift
