import CadenceUplift.Legacy.Finding

namespace CadenceUplift

/-- A sample before and after modernization. -/
structure Sample where
  before : String
  after : String
  description : String
deriving DecidableEq, Repr, Inhabited

/-- Background on one kind of construct. -/
structure Lesson where
  construct : Construct
  title : String
  description : String
  whyModernize : String
  benefits : List String
  learnMore : Option String := none
deriving DecidableEq, Repr, Inhabited

namespace Construct

def explanation : Construct → String
  | .pubKeyword =>
    "Cadence 1.0 uses explicit access control with access(all), access(self), etc. " ++
      "instead of the legacy \"pub\" keyword."
  | .storageApi =>
    "The storage API has moved under account.storage and account.capabilities " ++
      "for better security and clarity."
  | .interfaceConformance =>
    "Interface conformance now uses ampersand (&) syntax instead of commas."
  | .functionSignature =>
    "Modern function signatures support view modifiers and entitlement-based access control."
  | .importStatement =>
    "Import statements should use current contract addresses for the target network."
  | .other _ => "This construct should be updated to Cadence 1.0 syntax."

/-- The sample for a construct, if there is a general one. -/
def sample? : Construct → Option Sample
  | .pubKeyword => some {
      before := "pub fun getValue(): String \x7b\n  return self.value\n\x7d"
      after := "access(all) fun getValue(): String \x7b\n  return self.value\n\x7d"
      description := "Replace \"pub\" with explicit access control" }
  | .storageApi => some {
      before := "account.save(<-vault, to: /storage/vault)"
      after := "account.storage.save(<-vault, to: /storage/vault)"
      description := "Use the modern storage API" }
  | .interfaceConformance => some {
      before := "resource Vault: Provider, Receiver, Balance \x7b"
      after := "resource Vault: Provider & Receiver & Balance \x7b"
      description := "Use ampersand syntax for interface conformance" }
  | .functionSignature => some {
      before := "access(all) fun getBalance(): UFix64 \x7b\n  return self.balance\n\x7d"
      after := "access(all) view fun getBalance(): UFix64 \x7b\n  return self.balance\n\x7d"
      description := "Add view modifier for read-only functions" }
  | _ => none

/-- The background on a construct, if there is any. -/
def lesson? : Construct → Option Lesson
  | .pubKeyword => some {
      construct := .pubKeyword
      title := "Access Control Modernization"
      description := "Cadence 1.0 replaces the legacy \"pub\" keyword with explicit access modifiers."
      whyModernize := "Explicit access control states intent and allows entitlement-based permissions."
      benefits := [
        "Explicit access control reduces security vulnerabilities",
        "Support for entitlement-based permissions",
        "Compatibility with current Flow tooling"]
      learnMore := some "https://cadence-lang.org/docs/language/access-control" }
  | .storageApi => some {
      construct := .storageApi
      title := "Storage API Modernization"
      description :=
        "Account storage and capabilities are reached through account.storage and account.capabilities."
      whyModernize := "Capability controllers give finer control over who can reach stored objects."
      benefits := [
        "Capability-based security model",
        "Clearer API surface",
        "Capabilities can be issued and revoked individually"]
      learnMore := some "https://cadence-lang.org/docs/language/capabilities" }
  | .interfaceConformance => some {
      construct := .interfaceConformance
      title := "Interface Conformance Syntax"
      description := "A type conforming to several interfaces joins them with &."
      whyModernize := "The ampersand form matches intersection types used elsewhere in the language."
      benefits := ["Clearer type composition", "Consistent with intersection types"] }
  | .functionSignature => some {
      construct := .functionSignature
      title := "Function Signature Modernization"
      description := "Functions that only read state can be declared view."
      whyModernize := "View functions cannot modify state, which the checker enforces."
      benefits := ["Read-only intent is checked", "View functions can be called from other view contexts"] }
  | _ => none

end Construct

end CadenceUplift
