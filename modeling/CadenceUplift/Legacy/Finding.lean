namespace CadenceUplift

/-- How urgent a finding is. -/
inductive Severity where
  | critical
  | warning
  | suggestion
  | other (name : String)
deriving DecidableEq, Repr, Inhabited

namespace Severity

/-- The severities in use, most urgent first. -/
def ranked : List Severity := [.critical, .warning, .suggestion]

def name : Severity → String
  | .critical => "critical"
  | .warning => "warning"
  | .suggestion => "suggestion"
  | .other n => n

def ofName (n : String) : Severity := (ranked.find? (·.name == n)).getD (.other n)

/-- How urgent, as a number: more is more urgent. -/
def rank : Severity → Nat
  | .critical => 3
  | .warning => 2
  | .suggestion => 1
  | .other _ => 0

end Severity

/-- How much a finding affects the program it is in. -/
inductive Impact where
  | high
  | medium
  | low
  | other (name : String)
deriving DecidableEq, Repr, Inhabited

namespace Impact

/-- The impacts in use, strongest first. -/
def ranked : List Impact := [.high, .medium, .low]

def name : Impact → String
  | .high => "high"
  | .medium => "medium"
  | .low => "low"
  | .other n => n

def ofName (n : String) : Impact := (ranked.find? (·.name == n)).getD (.other n)

/-- How strong, as a number: more is stronger. -/
def rank : Impact → Nat
  | .high => 3
  | .medium => 2
  | .low => 1
  | .other _ => 0

end Impact

/-- The kinds of legacy constructs. -/
inductive Construct where
  | pubKeyword
  | storageApi
  | interfaceConformance
  | functionSignature
  | importStatement
  | other (name : String)
deriving DecidableEq, Repr, Inhabited

namespace Construct

/-- The kinds that the catalog detects. -/
def known : List Construct :=
  [.pubKeyword, .storageApi, .interfaceConformance, .functionSignature, .importStatement]

def name : Construct → String
  | .pubKeyword => "pub-keyword"
  | .storageApi => "storage-api"
  | .interfaceConformance => "interface-conformance"
  | .functionSignature => "function-signature"
  | .importStatement => "import-statement"
  | .other n => n

def ofName (n : String) : Construct := (known.find? (·.name == n)).getD (.other n)

end Construct

/-- Where a finding was made: 1-based line and column, and the lines around it. -/
structure Site where
  file : String
  line : Int
  column : Int
  context : String
deriving DecidableEq, Repr, Inhabited

/-- One located occurrence of a legacy construct. -/
structure Finding where
  construct : Construct
  matched : String
  site : Site
  severity : Severity
  description : String
  suggestedFix : String
  impact : Impact
deriving DecidableEq, Repr, Inhabited

end CadenceUplift
