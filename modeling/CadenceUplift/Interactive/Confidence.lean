import CadenceUplift.Legacy.Finding
import CadenceUplift.Number.Binary64

namespace CadenceUplift

/-- A confidence in hundredths. -/
structure Confidence where
  hundredths : Nat
deriving DecidableEq, Repr, Inhabited

namespace Confidence

def full : Confidence := ⟨100⟩

/-- A confidence with two places. -/
def text (c : Confidence) : String :=
  let places := Nat.toDigits 10 (c.hundredths % 100)
  toString (c.hundredths / 100) ++ "." ++
    String.ofList (if places.length < 2 then '0' :: places else places)

/-- How sure the detection of a construct is, in hundredths. -/
def ofConstruct : Construct → Nat
  | .pubKeyword => 95
  | .storageApi => 90
  | .interfaceConformance => 85
  | .functionSignature => 70
  | _ => 60

/-- The mean confidence of detected constructs; full when there are none. -/
def ofDetection (cs : List Construct) : Confidence :=
  match cs with
  | [] => full
  | _ =>
    let sum := (cs.map fun c => Binary64.nearest (ofConstruct c) 100).foldl Binary64.add Binary64.zero
    ⟨(sum.divNat cs.length).hundredths⟩

/-- The confidence of a suggestion: by severity, more if it can be carried out mechanically and less
if not. -/
def ofSuggestion (severity : Severity) (fixable : Bool) : Confidence :=
  let base := match severity with
    | .critical => 90
    | .warning => 70
    | _ => 50
  ⟨if fixable then base + 10 else base - 20⟩

/-- The share of constructs that were fixed, at least a tenth; full when there were none. -/
def ofModernization (fixed remaining : Int) : Confidence :=
  let total := fixed + remaining
  if total = 0 then full
  else if fixed * total ≤ 0 then ⟨10⟩
  else ⟨max 10 (Binary64.nearest fixed.natAbs total.natAbs).hundredths⟩

end Confidence

end CadenceUplift
