import CadenceUplift.Proofs.Migration.Outcome
import CadenceUplift.Proofs.Rule.Usable
import Mathlib.Algebra.GroupWithZero.Nat

namespace CadenceUplift

section Tasks

variable (r : RuleSet)

theorem outcomes_tasksOf [CharacterNames] (xs : List Template) :
    (tasksOf r xs).map (·.outcome) = xs.map fun t => (attempt r t).1 := by
  unfold tasksOf
  rw [List.map_map]
  have hfst : (xs.zipIdx.map fun p => (attempt r p.1).1) = xs.map fun t => (attempt r t).1 := by
    conv => rhs; rw [← List.zipIdx_map_fst 0 xs, List.map_map]
    rfl
  exact hfst

/-- Tasks come in the order of the corpus. -/
theorem tasksOf_sorted [CharacterNames] (xs : List Template) : (tasksOf r xs).Pairwise fun a b => decide
    (a.index ≤ b.index) = true := by
  unfold tasksOf
  rw [List.pairwise_map]
  have hindex : (xs.zipIdx.map Prod.snd).Pairwise (· < ·) := by
    rw [List.zipIdx_map_snd]
    exact List.pairwise_lt_range'
  rw [List.pairwise_map] at hindex
  apply hindex.imp
  intro a b hab
  simpa using Nat.le_of_lt hab

theorem find?_zipIdx {α : Type} (xs : List α) (k i : Nat) :
    (xs.zipIdx k).find? (fun p => p.2 == k + i) = xs[i]?.map (·, k + i) := by
  induction xs generalizing k i with
  | nil => rfl
  | cons x xs ih =>
    rw [List.zipIdx_cons]
    cases i with
    | zero => simp
    | succ i =>
      have hne : (k == k + (i + 1)) = false := by simp
      have hrest := ih (k + 1) i
      have hshift : k + 1 + i = k + (i + 1) := by omega
      rw [hshift] at hrest
      rw [List.find?_cons, hne, hrest]
      rfl

/-- What becomes of a template does not depend on its neighbours. -/
theorem settled_tasksOf [CharacterNames] (xs : List Template) (t : Template) (i : Nat) :
    settled (tasksOf r xs) t i = (xs[i]?.map fun x => (attempt r x).1.migrated).getD t := by
  have hfind := find?_zipIdx xs 0 i
  rw [Nat.zero_add] at hfind
  have htask : (tasksOf r xs).find? (fun k => k.index == i) =
      xs[i]?.map fun x => ⟨i, (attempt r x).1, (attempt r x).2⟩ := by
    unfold tasksOf
    rw [List.find?_map]
    change (xs.zipIdx.find? fun p => p.2 == i).map _ = _
    rw [hfind, Option.map_map]
    rfl
  unfold settled
  rw [htask]
  cases xs[i]? <;> rfl

theorem errors_ofTasks (ks : List Task) (init : Records) :
    (ks.foldl (fun c k => c.append k.records) init).errors = init.errors ++ ks.flatMap (·.records.errors) := by
  induction ks generalizing init with
  | nil => simp
  | cons k ks ih =>
    rw [List.foldl_cons, ih, List.flatMap_cons, ← List.append_assoc]
    rfl

/-- There are as many errors as templates that needed migration and did not get it. -/
theorem length_errors [CharacterNames] (xs : List Template) :
    (Records.ofTasks (tasksOf r xs)).errors.length =
      ((xs.map fun t => (attempt r t).1).filter fun o => o.needed && !o.success).length := by
  have herrors : (Records.ofTasks (tasksOf r xs)).errors = (tasksOf r xs).flatMap (·.records.errors) :=
    errors_ofTasks _ _
  have htasks : (tasksOf r xs).flatMap (·.records.errors) = xs.flatMap fun t => (attempt r t).2.errors := by
    unfold tasksOf
    rw [List.flatMap_map]
    conv => rhs; rw [← List.zipIdx_map_fst 0 xs, List.flatMap_map]
  rw [herrors, htasks]
  clear herrors htasks
  induction xs with
  | nil => rfl
  | cons t xs ih =>
    rw [List.flatMap_cons, List.length_append, ih, attempt_errors, List.map_cons, List.filter_cons]
    split
    · rw [List.length_cons]
      omega
    · omega

end Tasks

/-- Every outcome is counted once. -/
theorem RunStatistics.ofOutcomes_total (os : List Outcome) :
    (ofOutcomes os).successful + (ofOutcomes os).failed + (ofOutcomes os).skipped = (ofOutcomes os).processed := by
  simp only [ofOutcomes]
  induction os with
  | nil => rfl
  | cons o os ih =>
    simp only [List.filter_cons, Outcome.accepted, List.length_cons] at ih ⊢
    cases o.needed <;> cases o.success <;> simp <;> omega

theorem sumOf_eq_sum (ns : List Nat) : sumOf ns = ns.sum := by
  induction ns with
  | nil => rfl
  | cons n ns ih => rw [sumOf, ih, List.sum_cons]

/-- What a run makes of a corpus: it processes the templates in front of the first request, each as if alone, swaps
in accepted uplifts only, and counts, records and backs up what its outcomes say. -/
structure RunResult.Intact [CharacterNames] (c : Session) (rules : RuleSet) (corpus : List Template)
    (requests : List Nat)
    (result : RunResult) : Prop where
  sources : result.outcomes.map (·.source) = corpus.take result.outcomes.length
  unasked : ∀ i < result.outcomes.length, i ∉ requests
  asked : result.outcomes.length < corpus.length → result.outcomes.length ∈ requests
  alone : ∀ (i : Nat) (t : Template) (o : Outcome), corpus[i]? = some t → result.outcomes[i]? = some o →
    ∃ one session, c.run [t] [] = .ok (one, session) ∧ one.outcomes = [o]
  needed : ∀ o ∈ result.outcomes, ∀ s, o.source.code = .text s → o.needed = isLegacy (codeOnly s.toList)
  aligned : result.migrated.length = corpus.length
  kept : ∀ (i : Nat) (t : Template), corpus[i]? = some t → (∀ o, result.outcomes[i]? = some o → o.accepted = false) →
    result.migrated[i]? = some t
  changed : ∀ (i : Nat) (t : Template) (o : Outcome), corpus[i]? = some t → result.outcomes[i]? = some o → o.accepted = true →
    ∃ t' u, result.migrated[i]? = some t' ∧ t.Modernizes rules t' u ∧ o.substitutions = u.total
  processed : result.statistics.processed = result.outcomes.length
  successful : result.statistics.successful = (result.outcomes.filter (·.accepted)).length
  skipped : result.statistics.skipped = (result.outcomes.filter fun o => !o.needed).length
  total : result.statistics.successful + result.statistics.failed + result.statistics.skipped =
    result.statistics.processed
  transformations :
    result.statistics.transformations = ((result.outcomes.filter (·.accepted)).map (·.substitutions)).sum
  errors : result.errors.length = result.statistics.failed
  success : result.success = true ↔ result.statistics.failed = 0
  backups : result.backups =
    if rules.options.backsUp then (result.outcomes.filter (·.accepted)).map (·.source) else []

section Run

variable [CharacterNames] {c : Session} {rules : RuleSet} {corpus : List Template} {n : Nat}

/-- The result of a run that processes the first templates of a corpus. -/
def runOver (rules : RuleSet) (corpus : List Template) (n : Nat) : RunResult :=
  .ofTasks rules corpus (tasksOf rules (corpus.take n))

theorem run_eq (h : c.ruleSet.usable = .ok rules) (corpus : List Template) (requests : List Nat) :
    ∃ session, c.run corpus requests = .ok (runOver rules corpus (handedOut requests 0 corpus).length, session) := by
  unfold Session.run runOver
  rw [h, ← handedOut_eq_take]
  exact ⟨_, rfl⟩

theorem outcomes_runOver : (runOver rules corpus n).outcomes = (corpus.take n).map fun t => (attempt rules t).1 := by
  have hsorted := tasksOf_sorted rules (corpus.take n)
  change ((tasksOf rules _).mergeSort fun a b => decide (a.index ≤ b.index)).map _ = _
  rw [List.mergeSort_of_pairwise hsorted, outcomes_tasksOf]

theorem outcome_runOver {i : Nat} {t : Template} (ht : corpus[i]? = some t) :
    (runOver rules corpus n).outcomes[i]? = if i < n then some (attempt rules t).1 else none := by
  rw [outcomes_runOver, List.getElem?_map, List.getElem?_take]
  split
  next => rw [ht]; rfl
  next => rfl

theorem outcome_of_runOver {i : Nat} {t : Template} {o : Outcome} (ht : corpus[i]? = some t)
    (ho : (runOver rules corpus n).outcomes[i]? = some o) : i < n ∧ (attempt rules t).1 = o := by
  rw [outcome_runOver ht] at ho
  split at ho
  next hi => exact ⟨hi, Option.some.inj ho⟩
  next => cases ho

theorem migrated_runOver {i : Nat} {t : Template} (ht : corpus[i]? = some t) :
    (runOver rules corpus n).migrated[i]? = some (if i < n then (attempt rules t).1.migrated else t) := by
  change (corpus.zipIdx.map fun p => settled (tasksOf rules (corpus.take n)) p.1 p.2)[i]? = _
  rw [List.getElem?_map, List.getElem?_zipIdx, ht]
  simp only [Option.map_some, settled_tasksOf, Nat.zero_add, List.getElem?_take]
  split
  next => rw [ht]; rfl
  next => rfl

theorem errors_runOver : (runOver rules corpus n).errors.length = (runOver rules corpus n).statistics.failed := by
  change (Records.ofTasks (tasksOf rules (corpus.take n))).errors.length =
    ((runOver rules corpus n).outcomes.filter fun o => o.needed && !o.success).length
  rw [outcomes_runOver, length_errors]

theorem success_runOver : (runOver rules corpus n).success = true ↔ (runOver rules corpus n).statistics.failed = 0 := by
  have herrors : (runOver rules corpus n).errors.length = _ := errors_runOver
  change ((runOver rules corpus n).statistics.failed == 0 && (runOver rules corpus n).errors.isEmpty) = true ↔ _
  rw [Bool.and_eq_true, beq_iff_eq, List.isEmpty_iff_length_eq_zero, herrors]
  exact and_self_iff

/-- Run integrity: with a usable rule set a run over any corpus ends, wherever it is asked to stop, and its result
is intact. -/
theorem run_intact (h : c.ruleSet.usable = .ok rules) (corpus : List Template) (requests : List Nat) :
    ∃ result session, c.run corpus requests = .ok (result, session) ∧ result.Intact c rules corpus requests := by
  obtain ⟨session, hrun⟩ := run_eq h corpus requests
  refine ⟨_, session, hrun, ?_⟩
  obtain ⟨hbefore, hat⟩ := handedOut_stops requests 0 corpus
  have hle : (handedOut requests 0 corpus).length ≤ corpus.length := by
    rw [handedOut_eq_take, List.length_take]
    exact Nat.min_le_right _ _
  generalize (handedOut requests 0 corpus).length = n at hbefore hat hle
  have hlength : (runOver rules corpus n).outcomes.length = n := by
    rw [outcomes_runOver, List.length_map, List.length_take]
    omega
  constructor
  · rw [hlength, outcomes_runOver, List.map_map]
    conv => rhs; rw [← List.map_id (corpus.take n)]
    apply List.map_congr_left
    intro t _
    exact attempt_source rules t
  · intro i hi
    rw [hlength] at hi
    simpa using hbefore i hi
  · intro hlt
    rw [hlength] at hlt ⊢
    simpa using hat hlt
  · intro i t o ht ho
    obtain ⟨_, rfl⟩ := outcome_of_runOver ht ho
    obtain ⟨session', hone⟩ := run_eq h [t] []
    exact ⟨_, session', hone, outcomes_runOver⟩
  · intro o ho s hs
    rw [outcomes_runOver] at ho
    obtain ⟨t, _, rfl⟩ := List.mem_map.mp ho
    rw [attempt_source] at hs
    exact attempt_needed rules t hs
  · change (corpus.zipIdx.map _).length = _
    simp
  · intro i t ht hnot
    rw [migrated_runOver ht]
    split
    next hi =>
      have hrejected := hnot (attempt rules t).1 (by rw [outcome_runOver ht, if_pos hi])
      rw [attempt_migrated rules t hrejected]
    next => rfl
  · intro i t o ht ho haccepted
    obtain ⟨hi, rfl⟩ := outcome_of_runOver ht ho
    obtain ⟨u, htotal, hmodern⟩ := attempt_accepted rules t haccepted
    exact ⟨_, u, by rw [migrated_runOver ht, if_pos hi], hmodern, htotal⟩
  · rfl
  · rfl
  · rfl
  · exact RunStatistics.ofOutcomes_total _
  · exact sumOf_eq_sum _
  · exact errors_runOver
  · exact success_runOver
  · rfl

end Run

/-- A template with nothing but an identifier, code and a description. -/
def Template.sample (id code description : String) : Template where
  id := id
  name := .text id
  description := .text description
  category := .text ""
  tags := []
  code := .text code
  author := .text ""
  downloads := 0
  featured := false

theorem run_intact_stopped :
    ({} : Session).ruleSet.usable = .ok {} ∧
      ∃ result session, ({} : Session).run
          [.sample "a" "pub fun f() \x7b\x7d" "", .sample "a" "pub var x: Int" "", .sample "b" "let y = 1" ""] [2] =
            .ok (result, session) ∧
        result.Intact {} {}
          [.sample "a" "pub fun f() \x7b\x7d" "", .sample "a" "pub var x: Int" "", .sample "b" "let y = 1" ""] [2] :=
  ⟨defaults_usable, run_intact (c := {}) defaults_usable _ _⟩

end CadenceUplift
