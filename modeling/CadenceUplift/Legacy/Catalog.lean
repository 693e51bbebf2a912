import CadenceUplift.Legacy.Finding
import CadenceUplift.Legacy.Shapes

namespace CadenceUplift.Legacy

open Pattern

/-- A construct to look for, and what a finding of it says. -/
structure Detector where
  pattern : Pattern
  construct : Construct
  severity : Severity
  description : String
  suggestedFix : String
  impact : Impact
deriving Repr, Inhabited

def storageDetector (name : String) (severity : Severity) (impact : Impact) : Detector where
  pattern := storageAccess name
  construct := .storageApi
  severity := severity
  description := "Legacy account." ++ name ++ "() found"
  suggestedFix := "Replace with account.storage." ++ name ++ "()"
  impact := impact

/-- The constructs that are detected, in the order in which they are looked for. -/
def detectors : List Detector := [
  { pattern := pubDeclaration
    construct := .pubKeyword
    severity := .critical
    description := "Legacy pub keyword found"
    suggestedFix := "Replace with access(all) or appropriate access modifier"
    impact := .high },
  { pattern := pubSetDeclaration
    construct := .pubKeyword
    severity := .critical
    description := "Legacy pub(set) keyword found"
    suggestedFix := "Replace with access(all) and implement setter restrictions"
    impact := .high },
  storageDetector "save" .critical .high,
  { pattern := link
    construct := .storageApi
    severity := .critical
    description := "Legacy account.link() found"
    suggestedFix :=
      "Replace with account.capabilities.storage.issue() + account.capabilities.publish()"
    impact := .high },
  storageDetector "borrow" .critical .high,
  { pattern := accountMember "getCapability"
    construct := .storageApi
    severity := .critical
    description := "Legacy account.getCapability() found"
    suggestedFix := "Replace with account.capabilities.get()"
    impact := .high },
  storageDetector "load" .warning .medium,
  storageDetector "copy" .warning .medium,
  { pattern := conformanceList
    construct := .interfaceConformance
    severity := .warning
    description := "Legacy interface conformance syntax found"
    suggestedFix := "Replace comma-separated interfaces with ampersand (&) syntax"
    impact := .medium },
  { pattern := getter
    construct := .functionSignature
    severity := .suggestion
    description := "Getter function without view modifier"
    suggestedFix := "Declare read-only getters as view functions"
    impact := .low },
  { pattern := importFromAddress
    construct := .importStatement
    severity := .suggestion
    description := "Import statement with hardcoded address"
    suggestedFix := "Verify import uses current Flow standard contract addresses"
    impact := .low }]

/-- Lines that talk about legacy syntax instead of using it. -/
def documentationLines : List Pattern := [
  all (chars "expect" ++ [many blank, .char '(', many .any, .char ')', many blank, .char '.', many blank,
    opt (all (chars "not" ++ [many blank, .char '.', many blank]))] ++ chars "toContain"),
  all (edge :: chars "assert" ++ [many word, many blank, .char '(']),
  all (edge :: chars "const" ++ [many1 blank] ++ chars "legacy" ++ [many word, many blank, .char '=']),
  all (chars "Legacy" ++ [many .any] ++ chars "found"),
  all (chars "Replace" ++ [many .any] ++ chars "with"),
  all ([.char '|', many blank] ++ chars "`pub" ++ [many (except "`"), .char '`', many blank, .char '|'])]

/-- The constructs that make a text need migration. -/
def outdated : List Pattern := [
  pubDeclaration,
  pubSetDeclaration,
  conformanceList,
  storageCallAmong ["save", "load", "borrow", "copy"],
  accountMember "getCapability"]

/-- A construct that validation reports. -/
structure Complaint where
  pattern : Pattern
  message : String
  /-- Reported as an error; otherwise as a warning. -/
  blocking : Bool
  suggestion : String
deriving Repr, Inhabited

/-- The constructs that validation reports, in order. -/
def complaints : List Complaint := [
  ⟨pubWord, "Legacy \"pub\" keyword detected", true, "Use \"access(all)\" instead of \"pub\""⟩,
  ⟨pubSetBlanks, "Legacy \"pub(set)\" keyword detected", true,
    "Use \"access(all)\" with proper setter access control"⟩,
  ⟨storageCallAmong ["save", "load"], "Legacy storage API detected", true,
    "Use \"account.storage.save()\" / \"account.storage.load()\" instead"⟩,
  ⟨accountMember "link", "Legacy linking API detected", true,
    "Use modern capability-based linking with account.capabilities"⟩,
  ⟨accountMember "borrow", "Legacy borrow API detected", true,
    "Use \"account.storage.borrow()\" instead"⟩,
  ⟨accountMember "getCapability", "Legacy capability API detected", true,
    "Use \"account.capabilities.get()\" instead"⟩,
  ⟨conformanceList, "Legacy interface conformance syntax detected", true,
    "Use \"&\" to separate multiple interfaces (e.g., \"Interface1 & Interface2\")"⟩,
  ⟨lone "AuthAccount", "AuthAccount type may be deprecated", false,
    "Consider using modern account access patterns"⟩,
  ⟨lone "PublicAccount", "PublicAccount type may be deprecated", false,
    "Consider using modern account access patterns"⟩,
  ⟨copyCall, "Copy method usage detected", false,
    "Ensure copy semantics are appropriate for your use case"⟩,
  ⟨importFromAnyAddress, "Hardcoded contract address in import", false,
    "Consider using named imports for standard contracts"⟩]

/-- The constructs that make validation reject a text at once, with the reason given. -/
def rejections : List (Pattern × String) := [
  (pubWord, "Contains legacy \"pub\" keyword"),
  (pubSetWord, "Contains legacy \"pub(set)\" keyword"),
  (storageAccess "save", "Uses legacy storage API"),
  (accountMember "link", "Uses legacy linking API"),
  (accountMember "borrow", "Uses legacy borrow API")]

end CadenceUplift.Legacy
