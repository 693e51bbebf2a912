import CadenceUplift.Cancellation
import CadenceUplift.Scan.Plan

namespace CadenceUplift

/-- A plan in use, and whether it has been asked to stop. -/
structure ScanSession where
  plan : ScanPlan := {}
  cancelled : Bool := false
deriving Repr, Inhabited

namespace ScanSession

def cancel (c : ScanSession) : ScanSession := { c with cancelled := true }

/-- The session as a run starts with it: what was asked before is forgotten. -/
def start (c : ScanSession) : ScanSession := { c with cancelled := false }

/-- Takes up a request to stop that arrives just before the template at a place is handed out. -/
def listen (requests : List Nat) (place : Nat) (c : ScanSession) : ScanSession :=
  if requests.contains place then c.cancel else c

/-- Scans templates from a place on, one after another, until the session has been asked to stop. -/
def scanFrom (requests : List Nat) (c : ScanSession) (place : Nat) :
    List Template → Except CodeNotText (List TextScan) × ScanSession
  | [] => (.ok [], c)
  | t :: ts =>
    let c := c.listen requests place
    if c.cancelled then (.ok [], c)
    else
      match c.plan.scanOne t with
      | .error e => (.error e, c)
      | .ok scan =>
        let rest := scanFrom requests c (place + 1) ts
        (rest.1.map (scan :: ·), rest.2)

/-- A run over templates: its answer, and the session that it leaves. -/
def run (c : ScanSession) (ts : List Template) (requests : List Nat) :
    Except CodeNotText ScanResult × ScanSession :=
  let scanned := c.start.scanFrom requests 0 ts
  (scanned.1.map fun scans =>
      buildResult (scans.flatMap (·.findings)) scans.length (sumOf (scans.map (·.suppressed))) [],
    scanned.2)

/-- A scan of a tree: its answer, and the session that it leaves. A root that is refused leaves it as it was. -/
def scanTree (c : ScanSession) (t : FileTree) (root : String) (requests : List Nat) :
    Except ScanError TreeScan × ScanSession :=
  match t.rootFault? root with
  | some e => (.error e, c)
  | none =>
    match c.plan.walk t (Path.ofString root) with
    | .error e => (.error (.file e), c.start)
    | .ok files =>
      let handed := handedOut requests 0 files
      (.ok (c.plan.scanFiles t (Path.ofString root) handed), c.start.listen requests handed.length)

end ScanSession

/-- A scan of a tree that nothing stops. -/
def ScanPlan.scan (sc : ScanPlan) (t : FileTree) (root : String) : Except ScanError TreeScan :=
  (({ plan := sc } : ScanSession).scanTree t root []).1

theorem ScanPlan.scan_eq (sc : ScanPlan) (t : FileTree) (root : String) :
    sc.scan t root =
      match t.rootFault? root with
      | some e => .error e
      | none => ((sc.walk t (Path.ofString root)).mapError .file).map (sc.scanFiles t (Path.ofString root)) := by
  rw [ScanPlan.scan, ScanSession.scanTree]
  cases t.rootFault? root with
  | some e => rfl
  | none =>
    cases hwalk : sc.walk t (Path.ofString root) with
    | error e => rfl
    | ok files =>
      simp only [handedOut_unasked]
      rfl

end CadenceUplift
