import CadenceUplift.Cancellation
import CadenceUplift.Proofs.Scan.Consistency
import CadenceUplift.Scan.Session

namespace CadenceUplift

/-- What may be done to a session: it is asked to stop, or runs, with requests that arrive during the run. -/
inductive ScanCall where
  | cancel
  | run (ts : List Template) (requests : List Nat)

/-- The session that a call leaves. -/
def ScanCall.apply (c : ScanSession) : ScanCall → ScanSession
  | .cancel => c.cancel
  | .run ts requests => (c.run ts requests).2

/-- The session that calls leave, one after another. -/
def ScanSession.after (c : ScanSession) (calls : List ScanCall) : ScanSession := calls.foldl ScanCall.apply c

/-- Of so many items, the first `n` come in front of the first request, if there is one among them. -/
structure StopsAt (requests : List Nat) (items n : Nat) : Prop where
  le : n ≤ items
  unasked : ∀ i < n, i ∉ requests
  asked : n < items → n ∈ requests

section Run

variable {c : ScanSession} {requests : List Nat}

theorem stopsAt_handedOut {α : Type} (requests : List Nat) (xs : List α) :
    StopsAt requests xs.length (handedOut requests 0 xs).length := by
  obtain ⟨hbefore, hat⟩ := handedOut_stops requests 0 xs
  simp only [Nat.zero_add] at hbefore hat
  refine ⟨?_, hbefore, hat⟩
  rw [handedOut_eq_take]
  exact List.length_take_le' _ _

/-- A session that has not been asked to stop scans what comes in front of the first request, and keeps the request. -/
theorem scanFrom_eq (hc : c.cancelled = false) (place : Nat) (ts : List Template) :
    c.scanFrom requests place ts =
      match (handedOut requests place ts).mapM c.plan.scanOne with
      | .error e => (.error e, c)
      | .ok scans => (.ok scans, { c with cancelled := decide ((handedOut requests place ts).length < ts.length) }) := by
  induction ts generalizing place with
  | nil =>
    rw [ScanSession.scanFrom, handedOut]
    simp [pure, Except.pure, ← hc]
  | cons t ts ih =>
    by_cases hplace : requests.contains place = true
    · have hlisten : c.listen requests place = c.cancel := if_pos hplace
      rw [handedOut, if_pos hplace, ScanSession.scanFrom, hlisten]
      simp [ScanSession.cancel, pure, Except.pure]
    · have hlisten : c.listen requests place = c := if_neg hplace
      rw [handedOut, if_neg hplace, ScanSession.scanFrom, hlisten, hc, List.mapM_cons, ih]
      cases c.plan.scanOne t with
      | error e => rfl
      | ok scan =>
        cases (handedOut requests (place + 1) ts).mapM c.plan.scanOne with
        | error e => rfl
        | ok scans => simp [bind, Except.bind, pure, Except.pure, Except.map]

/-- A run, told by the templates that it hands out. -/
theorem run_eq_handedOut (c : ScanSession) (ts : List Template) (requests : List Nat) :
    c.run ts requests =
      match (handedOut requests 0 ts).mapM c.plan.scanOne with
      | .error e => (.error e, c.start)
      | .ok scans =>
        (.ok (buildResult (scans.flatMap (·.findings)) scans.length (sumOf (scans.map (·.suppressed))) []),
          { c with cancelled := decide ((handedOut requests 0 ts).length < ts.length) }) := by
  have hplan : c.start.plan = c.plan := rfl
  rw [ScanSession.run, scanFrom_eq rfl 0 ts, hplan]
  cases (handedOut requests 0 ts).mapM c.plan.scanOne <;> rfl

theorem run_plan (ts : List Template) : (c.run ts requests).2.plan = c.plan := by
  rw [run_eq_handedOut]
  split <;> rfl

/-- No call changes the plan. -/
theorem after_plan (c : ScanSession) (calls : List ScanCall) : (c.after calls).plan = c.plan := by
  induction calls generalizing c with
  | nil => rfl
  | cons call calls ih =>
    rw [ScanSession.after, List.foldl_cons]
    refine (ih (ScanCall.apply c call)).trans ?_
    cases call with
    | cancel => rfl
    | run ts requests => exact run_plan ts

/-- Nothing that was asked of a session before shows in a run. -/
theorem run_after (c : ScanSession) (calls : List ScanCall) (ts : List Template) :
    (c.after calls).run ts requests = c.run ts requests := by
  have hstart : (c.after calls).start = c.start := by rw [ScanSession.start, ScanSession.start, after_plan]
  rw [ScanSession.run, ScanSession.run, hstart]

/-- The answer of a run is that of a scan of the templates that it hands out. -/
theorem run_answer (c : ScanSession) (ts : List Template) (requests : List Nat) :
    (c.run ts requests).1 = c.plan.scanCorpus (handedOut requests 0 ts) := by
  rw [run_eq_handedOut, ScanPlan.scanCorpus]
  cases hscans : (handedOut requests 0 ts).mapM c.plan.scanOne with
  | error e => rfl
  | ok scans =>
    rw [((mapM_scanOne_eq_ok_iff c.plan).mp hscans).length_eq]
    rfl

end Run

/-- A run scans the templates in front of the first request that arrives during it, all of them without one, whatever
was done to the session before; its answer is that of a scan of these templates alone, the result of what they hold if
their codes are texts. The session is left with the request, if it came. -/
theorem run_stops_at_request (c : ScanSession) (before : List ScanCall) (ts : List Template) (requests : List Nat) :
    ∃ n, StopsAt requests ts.length n ∧
      ((c.after before).run ts requests).1 = c.plan.scanCorpus (ts.take n) ∧
      ((∀ t ∈ ts.take n, t.code.isText = true) →
        ∃ scans, c.plan.Scans (ts.take n) scans ∧
          (c.after before).run ts requests =
            (.ok (buildResult (scans.flatMap (·.findings)) n (sumOf (scans.map (·.suppressed))) []),
              { c with cancelled := decide (n < ts.length) })) := by
  refine ⟨_, stopsAt_handedOut requests ts, ?_, ?_⟩
  · rw [run_after, run_answer, ← handedOut_eq_take]
  · rw [← handedOut_eq_take, run_after, run_eq_handedOut]
    intro htext
    obtain ⟨scans, hscans⟩ := exists_scans c.plan htext
    rw [(mapM_scanOne_eq_ok_iff c.plan).mpr hscans, hscans.length_eq]
    exact ⟨scans, hscans, rfl⟩

/-- A session that was asked to stop and has broken off a run is asked to stop after one of two templates. -/
theorem run_stops_at_request_again :
    let t : Template := { (default : Template) with code := .text "pub fun" }
    ∃ r after, (({} : ScanSession).after [.cancel, .run [t] [0]]).run [t, t] [1] = (.ok r, after) ∧
      r.filesScanned = 1 ∧ r.findings.length = 1 ∧ after.cancelled = true := by
  intro t
  obtain ⟨n, hn, _, hresult⟩ := run_stops_at_request {} [.cancel, .run [t] [0]] [t, t] [1]
  obtain rfl : n = 1 := by
    have hle : n ≤ 2 := hn.le
    have hnot : ¬1 < n := fun h => hn.unasked 1 h List.mem_cons_self
    exact List.mem_singleton.mp (hn.asked (show n < 2 by omega))
  have htext : ∀ u ∈ [t, t].take 1, u.code.isText = true := by simp [t, Value.isText]
  obtain ⟨scans, hscans, hrun⟩ := hresult htext
  have hcount : (({} : ScanPlan).corpusFindings [t]).length = 1 := by decide +kernel
  have hfindings : (scans.flatMap (·.findings)).length = 1 := by
    rw [hscans.flatMap_findings]
    exact hcount
  exact ⟨_, _, hrun, rfl, (List.mergeSort_perm _ _).length_eq.trans hfindings, rfl⟩

end CadenceUplift
