import CadenceUplift.Rule.RuleSet
import CadenceUplift.Settings.Coercion

namespace CadenceUplift

/-- Additions to the selection of scanned files. -/
structure FileSelection where
  extensions : List String := []
  excludeDirs : List String := []
deriving DecidableEq, Repr, Inhabited

/-- Settings of the command line. -/
structure Settings where
  options : RunOptions := {}
  /-- Rules that follow the default ones. -/
  rules : List Rule := []
  scan : FileSelection := {}
  workers : Nat := 1
deriving Inhabited

def checkCategory (v : Value) : Checked String :=
  v.checkText.andThen fun s => if Rule.knownCategory s then .ok s else .fault .badCategory

/-- Checks a rule; every part is required. -/
def checkRule : Value → Checked Rule
  | .object entries =>
    let part (name : String) : Checked String := Value.checkField entries name Value.checkText
    ((part "pattern").both ((part "replacement").both ((part "description").both
      (Value.checkField entries "category" checkCategory)))).map fun p =>
        ⟨.text p.1, .template (.text p.2.1), .text p.2.2.1, .text p.2.2.2⟩
  | _ => .fault .notMapping

/-- Checks a list of suffixes; the first that does not start with a dot is reported. -/
def checkExtensions (v : Value) : Checked (List String) :=
  (v.checkList Value.checkText).andThen fun es =>
    match es.find? fun e => !e.startsWith "." with
    | some e => .fault (.badExtension e)
    | none => .ok es

def checkScan : Value → Checked FileSelection
  | .object entries =>
    ((Value.checkOptional entries "extensions" [] checkExtensions).both
      (Value.checkOptional entries "exclude_dirs" [] fun v => v.checkList Value.checkText)).map fun p =>
        ⟨p.1, p.2⟩
  | _ => .fault .notMapping

def checkWorkers (v : Value) : Checked Nat :=
  v.checkWhole.andThen fun n => if n < 1 then .fault .tooSmall else .ok n.toNat

def checkOptions (entries : List (Value × Value)) : Checked RunOptions :=
  let flag (name : String) : Checked Bool := Value.checkOptional entries name true Value.checkFlag
  ((Value.checkOptional entries "target_cadence_version" "1.0" Value.checkText).both
    ((flag "preserve_comments").both ((flag "validate_after_migration").both
      (flag "backup_originals")))).map fun p => ⟨.text p.1, .bool p.2.1, .bool p.2.2.1, .bool p.2.2.2⟩

namespace Settings

/-- Reads settings from the entries of a document; entries that are not known are ignored. -/
def ofEntries (entries : List (Value × Value)) : Checked Settings :=
  ((checkOptions entries).both
    ((Value.checkOptional entries "transformation_rules" [] fun v => v.checkList checkRule).both
      ((Value.checkOptional entries "scan" {} checkScan).both
        (Value.checkOptional entries "workers" 1 checkWorkers)))).map fun p =>
          ⟨p.1, p.2.1, p.2.2.1, p.2.2.2⟩

/-- The rule set that the settings ask for, unless it is not usable. -/
def ruleSet [CharacterNames] (s : Settings) : Except RuleSetError RuleSet :=
  { options := s.options, rules := Rule.defaults ++ s.rules : RuleSet }.usable

end Settings

def maxWorkers : Nat := 16

/-- How many workers are used when `n`, at least one, are asked for. -/
def workerCount (n : Nat) : Nat := min n maxWorkers

end CadenceUplift
