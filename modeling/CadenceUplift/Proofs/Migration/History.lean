import CadenceUplift.Proofs.Migration.Crew

namespace CadenceUplift

namespace Session

/-- The session without records and without a request to stop. -/
def reset (c : Session) : Session := { c with records := {}, cancelled := false }

/-- Takes up a request to stop that arrives just before the template at a place. -/
def listen (requests : List Nat) (place : Nat) (c : Session) : Session :=
  if requests.contains place then c.cancel else c

/-- Hands out templates with their places, until the session is asked to stop; `act` is what is done to the session for
each template before the next one. -/
def handOut (act : Template → Session → Session) (requests : List Nat) :
    Session → Nat → List Template → List (Template × Nat) × Session
  | c, _, [] => ([], c)
  | c, place, t :: ts =>
    let c := c.listen requests place
    if c.cancelled then ([], c)
    else
      let rest := handOut act requests (act t c) (place + 1) ts
      ((t, place) :: rest.1, rest.2)

/-- Processes a template, which adds to the records. -/
def attend [CharacterNames] (t : Template) (c : Session) : Session :=
  { c with records := c.records.append (attempt c.ruleSet t).2 }

theorem reset_cancelled (c : Session) : c.reset.cancelled = false := rfl

theorem attend_cancelled [CharacterNames] (t : Template) (c : Session) : (attend t c).cancelled = c.cancelled := rfl

/-- A run by a single worker, step by step: the session is cleared once the rules are checked, each template is
processed before the next is handed out, and the result is put together from what the session then holds. -/
def process [CharacterNames] (c : Session) (corpus : List Template) (requests : List Nat) :
    Except RuleSetError (RunResult × Session) := do
  let rules ← c.ruleSet.usable
  let (handed, after) := c.reset.handOut attend requests 0 corpus
  let result := RunResult.assemble rules corpus (handed.map (taskOf c.ruleSet)) after.records
  return ({ result with cancelled := after.cancelled }, after)

/-- The answer of a run, and the session that it leaves; a run that is refused leaves the session as it is. -/
def call [CharacterNames] (c : Session) (corpus : List Template) (requests : List Nat) :
    Except RuleSetError RunResult × Session :=
  match c.run corpus requests with
  | .ok (result, after) => (.ok result, after)
  | .error e => (.error e, c)

/-- What a call for a run may answer, and the session it may leave. Several workers share the templates that are handed
out, and log what they record behind what the cleared session holds. -/
inductive Answers [CharacterNames] (workers : Nat) (c : Session) (corpus : List Template) (requests : List Nat) :
    Except RuleSetError RunResult → Session → Prop
  | refused {e : RuleSetError} : c.ruleSet.usable = .error e → Answers workers c corpus requests (.error e) c
  | alone {result : RunResult} {after : Session} : workers ≤ 1 → c.process corpus requests = .ok (result, after) →
      Answers workers c corpus requests (.ok result) after
  | shared {rules : RuleSet} {handed : List (Template × Nat)} {after : Session} {crew : Crew} : 1 < workers →
      c.ruleSet.usable = .ok rules → c.reset.handOut (fun _ c => c) requests 0 corpus = (handed, after) →
      Relation.ReflTransGen (Crew.Step rules workers) { waiting := handed, log := after.records.entries } crew →
      crew.Done →
      Answers workers c corpus requests (.ok { crew.result rules corpus with cancelled := after.cancelled })
        { after with records := .ofLog crew.log }

end Session

/-- A change to the rules of a session or their options. -/
inductive RuleEdit where
  | add (rule : Rule)
  | remove (description : Value)
  | update (changes : List OptionChange)

/-- The rules after a change; one that is not accepted leaves them as they are. -/
def RuleEdit.apply (r : RuleSet) : RuleEdit → RuleSet
  | add rule => r.add rule
  | remove description => r.remove description
  | update changes =>
    match r.update changes with
    | .ok r' => r'
    | .error _ => r

/-- What may be done to a session. -/
inductive Operation where
  | run (corpus : List Template) (requests : List Nat)
  | single (corpus : List Template) (id : String)
  | cancel
  | edit (e : RuleEdit)

/-- The change to the rules that an operation makes. -/
def Operation.edit? : Operation → Option RuleEdit
  | run _ _ | single _ _ | cancel => none
  | edit e => some e

/-- The sessions that some operations lead to, one after another. -/
inductive History [CharacterNames] (workers : Nat) : Session → List Operation → Session → Prop
  | nil (c : Session) : History workers c [] c
  | run {c c' c'' : Session} {corpus : List Template} {requests : List Nat} {answer : Except RuleSetError RunResult}
      {rest : List Operation} : c.Answers workers corpus requests answer c' → History workers c' rest c'' →
      History workers c (.run corpus requests :: rest) c''
  | single {c c'' : Session} {corpus : List Template} {id : String} {rest : List Operation} :
      History workers (c.single corpus id).2 rest c'' → History workers c (.single corpus id :: rest) c''
  | cancel {c c'' : Session} {rest : List Operation} :
      History workers c.cancel rest c'' → History workers c (.cancel :: rest) c''
  | edit {c c'' : Session} {e : RuleEdit} {rest : List Operation} :
      History workers { c with ruleSet := e.apply c.ruleSet } rest c'' → History workers c (.edit e :: rest) c''

/-- Templates are handed out up to the first request, and the request stays with the session. -/
theorem handOut_eq (act : Template → Session → Session) (hact : ∀ t c, (act t c).cancelled = c.cancelled)
    (requests : List Nat) {c : Session} (hc : c.cancelled = false) (place : Nat) (ts : List Template) :
    c.handOut act requests place ts = ((handedOut requests place ts).zipIdx place,
      { (handedOut requests place ts).foldl (fun c t => act t c) c with
        cancelled := decide ((handedOut requests place ts).length < ts.length) }) := by
  induction ts generalizing c place with
  | nil => simp [Session.handOut, handedOut, ← hc]
  | cons t ts ih =>
    by_cases hplace : requests.contains place = true
    · have hlisten : c.listen requests place = c.cancel := if_pos hplace
      rw [handedOut, if_pos hplace, Session.handOut, hlisten]
      simp [Session.cancel]
    · have hlisten : c.listen requests place = c := if_neg hplace
      have hrest := ih ((hact t c).trans hc) (place + 1)
      rw [handedOut, if_neg hplace, Session.handOut, hlisten, hc, hrest]
      simp

theorem foldl_attend [CharacterNames] (ts : List Template) (c : Session) :
    ts.foldl (fun c t => Session.attend t c) c =
      { c with records := ts.foldl (fun a t => a.append (attempt c.ruleSet t).2) c.records } := by
  induction ts generalizing c with
  | nil => rfl
  | cons t ts ih =>
    rw [List.foldl_cons, List.foldl_cons, ih]
    rfl

theorem ofTasks_tasksOf [CharacterNames] (r : RuleSet) (ts : List Template) :
    Records.ofTasks (tasksOf r ts) = ts.foldl (fun a t => a.append (attempt r t).2) {} := by
  have hfst : ts.zipIdx.foldl (fun a p => a.append (attempt r p.1).2) ({} : Records) =
      ts.foldl (fun a t => a.append (attempt r t).2) {} := by
    conv => rhs; rw [← List.zipIdx_map_fst 0 ts, List.foldl_map]
  rw [Records.ofTasks, tasksOf, List.foldl_map]
  exact hfst

theorem usable_eq [CharacterNames] {r rules : RuleSet} (h : r.usable = .ok rules) :
    rules = r ∧ r.violations = .ok [] := by
  unfold RuleSet.usable at h
  split at h
  next hnone => cases h; exact ⟨rfl, hnone⟩
  next => cases h
  next => cases h

/-- A run is its steps. -/
theorem process_eq_run [CharacterNames] (c : Session) (corpus : List Template) (requests : List Nat) :
    c.process corpus requests = c.run corpus requests := by
  unfold Session.process Session.run
  cases husable : c.ruleSet.usable with
  | error e => rfl
  | ok rules =>
    obtain ⟨rfl, _⟩ := usable_eq husable
    have hhanded : c.reset.handOut Session.attend requests 0 corpus = ((handedOut requests 0 corpus).zipIdx,
        { c with
          records := Records.ofTasks (tasksOf c.ruleSet (handedOut requests 0 corpus))
          cancelled := decide ((handedOut requests 0 corpus).length < corpus.length) }) := by
      rw [handOut_eq _ Session.attend_cancelled requests c.reset_cancelled, foldl_attend, ofTasks_tasksOf]
      rfl
    have hlength : (tasksOf c.ruleSet (handedOut requests 0 corpus)).length = (handedOut requests 0 corpus).length := by
      simp [tasksOf]
    simp only [bind, Except.bind, hhanded, Session.finish, RunResult.ofTasks, RunResult.assemble, hlength]
    rfl

section Runs

variable [CharacterNames] {workers : Nat} {c c' : Session} {corpus : List Template} {requests : List Nat}
  {answer : Except RuleSetError RunResult}

theorem run_of_refused {e : RuleSetError} (h : c.ruleSet.usable = .error e) : c.run corpus requests = .error e := by
  rw [Session.run, h]
  rfl

/-- A single worker gives the answer that the session's own run gives, and no other. -/
theorem answers_alone_iff (hworkers : workers ≤ 1) :
    c.Answers workers corpus requests answer c' ↔ c.call corpus requests = (answer, c') := by
  constructor
  · intro h
    cases h with
    | refused hrefused => rw [Session.call, run_of_refused hrefused]
    | alone _ hprocess =>
      rw [process_eq_run] at hprocess
      rw [Session.call, hprocess]
    | shared hmany _ _ _ _ => omega
  · intro h
    cases hrun : c.run corpus requests with
    | ok pair =>
      obtain ⟨result, after⟩ := pair
      rw [Session.call, hrun] at h
      cases h
      exact .alone hworkers (by rw [process_eq_run, hrun])
    | error e =>
      rw [Session.call, hrun] at h
      cases h
      cases husable : c.ruleSet.usable with
      | error e' =>
        rw [run_of_refused husable] at hrun
        cases hrun
        exact .refused husable
      | ok rules =>
        rw [Session.run, husable] at hrun
        cases hrun

/-- A refused call answers why, and leaves the session as it is. -/
theorem answers_refused_iff {e : RuleSetError} (h : c.ruleSet.usable = .error e) :
    c.Answers workers corpus requests answer c' ↔ answer = .error e ∧ c' = c := by
  constructor
  · intro hanswers
    cases hanswers with
    | refused hrefused =>
      rw [h] at hrefused
      cases hrefused
      exact ⟨rfl, rfl⟩
    | alone _ hprocess =>
      rw [process_eq_run, run_of_refused h] at hprocess
      cases hprocess
    | shared _ husable _ _ _ =>
      rw [h] at husable
      cases husable
  · rintro ⟨rfl, rfl⟩
    exact .refused h

/-- Once the rules are checked, nothing of the session counts but its rules. -/
theorem Session.Answers.transfer (h : c.Answers workers corpus requests answer c') {rules : RuleSet}
    (husable : c.ruleSet.usable = .ok rules) {d : Session} (hd : d.ruleSet = c.ruleSet) :
    d.Answers workers corpus requests answer c' := by
  have hreset : d.reset = c.reset := by
    unfold Session.reset
    rw [hd]
  cases h with
  | refused hrefused =>
    rw [husable] at hrefused
    cases hrefused
  | alone hworkers hprocess =>
    refine .alone hworkers ?_
    unfold Session.process at hprocess ⊢
    rw [hreset, hd]
    exact hprocess
  | shared hmany hrules hhanded hcrew hdone =>
    exact .shared hmany (hd ▸ hrules) (hreset ▸ hhanded) hcrew hdone

/-- Workers that share templates come to an end. -/
theorem Crew.exists_done {r : RuleSet} (hworkers : 0 < workers) (p : Crew) :
    ∃ q, Relation.ReflTransGen (Crew.Step r workers) p q ∧ q.Done := by
  have hacc : Acc (fun after before => Crew.Step r workers before after) p := Crew.acc_step p
  induction hacc with
  | intro p _ ih =>
    by_cases hdone : p.Done
    · exact ⟨p, .refl, hdone⟩
    · obtain ⟨next, hstep⟩ := Crew.exists_step hworkers hdone
      obtain ⟨q, hrun, hq⟩ := ih next hstep
      exact ⟨q, .head hstep hrun, hq⟩

/-- With usable rules a call for a run is answered by a result. -/
theorem exists_answer {rules : RuleSet} (husable : c.ruleSet.usable = .ok rules) :
    ∃ result after, c.Answers workers corpus requests (.ok result) after := by
  rcases Nat.lt_or_ge 1 workers with hmany | hone
  · obtain ⟨crew, hrun, hdone⟩ := Crew.exists_done (r := rules) (by omega : 0 < workers)
      { waiting := (c.reset.handOut (fun _ c => c) requests 0 corpus).1
        log := (c.reset.handOut (fun _ c => c) requests 0 corpus).2.records.entries }
    exact ⟨_, _, .shared hmany husable rfl hrun hdone⟩
  · obtain ⟨after, hrun⟩ := run_eq husable corpus requests
    exact ⟨_, after, .alone hone (by rw [process_eq_run, hrun])⟩

theorem Session.Answers.ok_of_usable (h : c.Answers workers corpus requests answer c') {rules : RuleSet}
    (husable : c.ruleSet.usable = .ok rules) : ∃ result, answer = .ok result := by
  cases h with
  | refused hrefused =>
    rw [husable] at hrefused
    cases hrefused
  | alone _ _ => exact ⟨_, rfl⟩
  | shared _ _ _ _ _ => exact ⟨_, rfl⟩

/-- A run leaves the rules as they are. -/
theorem Session.Answers.ruleSet_eq (h : c.Answers workers corpus requests answer c') : c'.ruleSet = c.ruleSet := by
  cases h with
  | refused _ => rfl
  | alone _ hprocess =>
    rw [process_eq_run, Session.run] at hprocess
    cases husable : c.ruleSet.usable with
    | error e =>
      rw [husable] at hprocess
      cases hprocess
    | ok rules =>
      rw [husable] at hprocess
      cases hprocess
      rfl
  | shared _ _ hhanded _ _ =>
    rw [handOut_eq _ (fun _ _ => rfl) requests c.reset_cancelled, List.foldl_fixed] at hhanded
    cases hhanded
    rfl

/-- Of all operations, changes to the rules alone change them. -/
theorem History.ruleSet_eq {operations : List Operation} (h : History workers c operations c') :
    c'.ruleSet = (operations.filterMap Operation.edit?).foldl RuleEdit.apply c.ruleSet := by
  induction h with
  | nil c => rfl
  | run hanswers _ ih => rw [ih, hanswers.ruleSet_eq]; rfl
  | @single c c'' corpus id rest _ ih =>
    have hsingle : (c.single corpus id).2.ruleSet = c.ruleSet := by
      unfold Session.single
      split <;> rfl
    rw [ih, hsingle]
    rfl
  | cancel _ ih => exact ih
  | edit _ ih => exact ih

end Runs

/-- How a session answers calls for a run with the given number of workers, if its rules are `rules`. -/
structure Session.Independent [CharacterNames] (workers : Nat) (rules : RuleSet) (c : Session) : Prop where
  /-- A single worker gives the answer of the session's own run, which a new session gives as well. -/
  alone : workers ≤ 1 → ∀ corpus requests, c.run corpus requests = Session.run { ruleSet := rules } corpus requests ∧
    ∀ answer after, c.Answers workers corpus requests answer after ↔ c.call corpus requests = (answer, after)
  /-- With nothing wrong with the rules there is a result. -/
  returns : rules.violations = .ok [] → ∀ corpus requests, ∃ result after,
    c.Answers workers corpus requests (.ok result) after
  /-- Nothing else is answered, and the results are those of a new session. -/
  fresh : rules.violations = .ok [] → ∀ corpus requests answer after,
    c.Answers workers corpus requests answer after ↔
      ∃ result, answer = .ok result ∧ Session.Answers workers { ruleSet := rules } corpus requests (.ok result) after
  /-- With violations the call is refused, and the session stays as it is. -/
  refuses : ∀ violations, violations ≠ [] → rules.violations = .ok violations → ∀ corpus requests answer after,
    c.Answers workers corpus requests answer after ↔ answer = .error (.invalid violations) ∧ after = c
  /-- A rule that cannot be checked is no violation, but it too stops the call before the session is touched. -/
  unchecked : ∀ e, rules.violations = .error e → ∀ corpus requests answer after,
    c.Answers workers corpus requests answer after ↔ answer = .error (.rule e) ∧ after = c

/-- Whatever is done to a session, its rules are those it had with the changes made to them, and a call for a run is
answered as in a new session with these rules, or refused and the session left as it is. -/
theorem history_independent [CharacterNames] {workers : Nat} {c c' : Session} {operations : List Operation}
    (h : History workers c operations c') :
    c'.ruleSet = (operations.filterMap Operation.edit?).foldl RuleEdit.apply c.ruleSet ∧
      c'.Independent workers ((operations.filterMap Operation.edit?).foldl RuleEdit.apply c.ruleSet) := by
  refine ⟨h.ruleSet_eq, ?_⟩
  rw [← h.ruleSet_eq]
  have husable (hnone : c'.ruleSet.violations = .ok []) : c'.ruleSet.usable = .ok c'.ruleSet := by
    rw [RuleSet.usable, hnone]
  constructor
  · intro hworkers corpus requests
    exact ⟨rfl, fun answer after => answers_alone_iff hworkers⟩
  · intro hnone corpus requests
    exact exists_answer (husable hnone)
  · intro hnone corpus requests answer after
    constructor
    · intro hanswers
      obtain ⟨result, rfl⟩ := hanswers.ok_of_usable (husable hnone)
      exact ⟨result, rfl, hanswers.transfer (husable hnone) rfl⟩
    · rintro ⟨result, rfl, hanswers⟩
      exact hanswers.transfer (husable hnone) rfl
  · intro violations hsome hviolations corpus requests answer after
    refine answers_refused_iff ?_
    rw [RuleSet.usable, hviolations]
    cases violations with
    | nil => exact absurd rfl hsome
    | cons v vs => rfl
  · intro e hviolations corpus requests answer after
    refine answers_refused_iff ?_
    rw [RuleSet.usable, hviolations]

/-- A session with a request to stop, with an error on its records from a template without code, and with backups turned
off. -/
theorem history_independent_stopped :
    ∃ c, History 2 {} [.single [{ Template.sample "b" "" "" with code := .null }] "b", .cancel,
        .edit (.update [.keepBackups (.bool false)])] c ∧
      c.cancelled = true ∧ c.records.errors ≠ [] ∧
      c.ruleSet = { options := { keepBackups := .bool false } } ∧
      ∃ result after, c.Answers 2 [.sample "a" "pub var x: Int" ""] [] (.ok result) after ∧
        Session.Answers 2 { ruleSet := { options := { keepBackups := .bool false } } } [.sample "a" "pub var x: Int" ""]
          [] (.ok result) after := by
  have hnone : RuleSet.violations { options := { keepBackups := .bool false } } = .ok [] :=
    (usable_eq defaults_usable).2
  have hhistory : History 2 {} [.single [{ Template.sample "b" "" "" with code := .null }] "b", .cancel,
      .edit (.update [.keepBackups (.bool false)])] _ := .single (.cancel (.edit (.nil _)))
  obtain ⟨hrules, hindependent⟩ := history_independent hhistory
  obtain ⟨result, after, hanswers⟩ := hindependent.returns hnone [.sample "a" "pub var x: Int" ""] []
  obtain ⟨_, hresult, hfresh⟩ := (hindependent.fresh hnone _ _ _ _).mp hanswers
  cases hresult
  refine ⟨_, hhistory, rfl, ?_, hrules, result, after, hanswers, hfresh⟩
  decide +kernel

/-- A rule that asks for too many copies is not reported as a violation: the check gives up on it, and so does a run. -/
theorem run_gives_up_on_copies :
    ∃ e, e.message = "the repetition number is too large" ∧ ∀ corpus requests,
      Session.run { ruleSet := { rules := [.make "a\x7b4294967295\x7d" "x" "Take many copies" .imports] } } corpus
        requests = .error (.rule e) := by
  have hmessage :
      (RuleSet.violations { rules := [.make "a\x7b4294967295\x7d" "x" "Take many copies" .imports] }).mapError
        (·.message) = .error "the repetition number is too large" := by decide +kernel
  cases hviolations : RuleSet.violations { rules := [.make "a\x7b4294967295\x7d" "x" "Take many copies" .imports] } with
  | ok violations =>
    rw [hviolations] at hmessage
    cases hmessage
  | error e =>
    rw [hviolations] at hmessage
    refine ⟨e, Except.error.inj hmessage, fun corpus requests => run_of_refused ?_⟩
    dsimp only
    rw [RuleSet.usable, hviolations]

end CadenceUplift
