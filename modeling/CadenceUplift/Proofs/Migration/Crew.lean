import CadenceUplift.Proofs.Migration.Stability
import Mathlib.Data.List.Nodup
import Mathlib.Logic.Relation

namespace CadenceUplift

/-- A record of a run, in a log that has errors and warnings side by side. -/
inductive LogEntry where
  | error (e : ErrorRecord)
  | warning (w : WarningRecord)

namespace LogEntry

def error? : LogEntry → Option ErrorRecord
  | error e => some e
  | warning _ => none

def warning? : LogEntry → Option WarningRecord
  | error _ => none
  | warning w => some w

def file : LogEntry → String
  | error e => e.file
  | warning w => w.file

end LogEntry

namespace Records

/-- The entries of one task, as its worker makes them: an error first. -/
def entries (c : Records) : List LogEntry := c.errors.map .error ++ c.warnings.map .warning

/-- The records that a log holds. -/
def ofLog (log : List LogEntry) : Records := ⟨log.filterMap LogEntry.error?, log.filterMap LogEntry.warning?⟩

theorem ofLog_append (log log' : List LogEntry) : ofLog (log ++ log') = (ofLog log).append (ofLog log') := by
  simp only [ofLog, append, List.filterMap_append]

theorem ofLog_entries (c : Records) : ofLog c.entries = c := by
  have herrors : c.errors.filterMap (LogEntry.error? ∘ LogEntry.error) = c.errors := List.filterMap_some
  have hwarnings : c.warnings.filterMap (LogEntry.warning? ∘ LogEntry.warning) = c.warnings := List.filterMap_some
  have hnone : c.warnings.filterMap (LogEntry.error? ∘ LogEntry.warning) = [] := by
    simp [List.filterMap_eq_nil_iff, LogEntry.error?]
  have hnone' : c.errors.filterMap (LogEntry.warning? ∘ LogEntry.error) = [] := by
    simp [List.filterMap_eq_nil_iff, LogEntry.warning?]
  simp only [ofLog, entries, List.filterMap_append, List.filterMap_map, herrors, hwarnings, hnone, hnone',
    List.append_nil, List.nil_append]

theorem ofTasks_eq_ofLog (ks : List Task) : ofTasks ks = ofLog (ks.flatMap (·.records.entries)) := by
  have hfold (init : List LogEntry) : ks.foldl (fun c k => c.append k.records) (ofLog init) =
      ofLog (init ++ ks.flatMap (·.records.entries)) := by
    induction ks generalizing init with
    | nil => simp
    | cons k ks ih =>
      have hfirst : (ofLog init).append k.records = ofLog (init ++ k.records.entries) := by
        rw [ofLog_append, ofLog_entries]
      rw [List.foldl_cons, hfirst, ih, List.flatMap_cons, List.append_assoc]
  exact hfold []

end Records

def taskOf [CharacterNames] (r : RuleSet) (p : Template × Nat) : Task := ⟨p.2, (attempt r p.1).1, (attempt r p.1).2⟩

/-- A task that a worker is at, and the entries that it still has to make. -/
structure Job where
  task : Task
  owed : List LogEntry

def Job.start [CharacterNames] (r : RuleSet) (p : Template × Nat) : Job := ⟨taskOf r p, (taskOf r p).records.entries⟩

/-- A run in progress. -/
structure Crew where
  waiting : List (Template × Nat)
  active : List Job := []
  finished : List Task := []
  collected : List Task := []
  log : List LogEntry := []

namespace Crew

def start (corpus : List Template) : Crew := { waiting := corpus.zipIdx }

/-- All tasks are finished and collected. -/
def Done (crew : Crew) : Prop := crew.waiting = [] ∧ crew.active = [] ∧ crew.finished = []

/-- The result that a crew has collected. -/
def result (r : RuleSet) (corpus : List Template) (crew : Crew) : RunResult :=
  .assemble r corpus crew.collected (.ofLog crew.log)

/-- What may happen next. A template is taken while a worker is free; any active job may make its next entry, or be
finished when it has none to make; any finished task may be collected. -/
inductive Step [CharacterNames] (r : RuleSet) (workers : Nat) : Crew → Crew → Prop
  | take (crew : Crew) (p : Template × Nat) (rest : List (Template × Nat)) : crew.waiting = p :: rest →
      crew.active.length < workers →
      Step r workers crew { crew with waiting := rest, active := crew.active ++ [.start r p] }
  | record (crew : Crew) (before after : List Job) (task : Task) (e : LogEntry) (owed : List LogEntry) :
      crew.active = before ++ ⟨task, e :: owed⟩ :: after →
      Step r workers crew { crew with active := before ++ ⟨task, owed⟩ :: after, log := crew.log ++ [e] }
  | finish (crew : Crew) (before after : List Job) (task : Task) : crew.active = before ++ ⟨task, []⟩ :: after →
      Step r workers crew { crew with active := before ++ after, finished := crew.finished ++ [task] }
  | collect (crew : Crew) (before after : List Task) (task : Task) : crew.finished = before ++ task :: after →
      Step r workers crew { crew with finished := before ++ after, collected := crew.collected ++ [task] }

section Accounting

variable [CharacterNames] (r : RuleSet)

/-- The tasks that a crew ends with, were it to go on in order. -/
def tasks (crew : Crew) : List Task :=
  crew.collected ++ (crew.finished ++ (crew.active.map (·.task) ++ crew.waiting.map (taskOf r)))

/-- The entries that a crew ends with, were it to go on in order. -/
def entries (crew : Crew) : List LogEntry :=
  crew.log ++ (crew.active.flatMap (·.owed) ++ crew.waiting.flatMap fun p => (taskOf r p).records.entries)

/-- How many steps a crew has before it. -/
def load (crew : Crew) : Nat :=
  (crew.waiting.map fun p => (taskOf r p).records.entries.length + 3).sum +
    (crew.active.map (·.owed.length + 2)).sum + crew.finished.length

variable {r} {workers : Nat} {p q : Crew}

theorem Step.tasks_perm (h : Step r workers p q) : (q.tasks r).Perm (p.tasks r) := by
  cases h with
  | take x rest hwaiting _ => simp [tasks, hwaiting, Job.start]
  | record before after task e owed hactive => simp [tasks, hactive]
  | finish before after task hactive =>
    simp only [tasks, hactive, List.map_append, List.map_cons, List.append_assoc, List.singleton_append]
    apply List.Perm.append_left
    apply List.Perm.append_left
    exact List.perm_middle.symm
  | collect before after task hfinished =>
    simp only [tasks, hfinished, List.append_assoc, List.cons_append, List.nil_append]
    apply List.Perm.append_left
    exact List.perm_middle.symm

theorem Step.entries_perm (h : Step r workers p q) : (q.entries r).Perm (p.entries r) := by
  cases h with
  | take x rest hwaiting _ => simp [entries, hwaiting, Job.start]
  | record before after task e owed hactive =>
    simp only [entries, hactive, List.flatMap_append, List.flatMap_cons, List.append_assoc, List.cons_append,
      List.nil_append]
    apply List.Perm.append_left
    exact List.perm_middle.symm
  | finish before after task hactive => simp [entries, hactive]
  | collect before after task hfinished => simp [entries]

theorem Step.load_lt (h : Step r workers p q) : q.load r < p.load r := by
  cases h with
  | take x rest hwaiting _ =>
    simp only [load, hwaiting, Job.start, List.map_append, List.map_cons, List.map_nil, List.sum_append,
      List.sum_cons, List.sum_nil]
    omega
  | record before after task e owed hactive =>
    simp only [load, hactive, List.map_append, List.map_cons, List.sum_append, List.sum_cons, List.length_cons]
    omega
  | finish before after task hactive =>
    simp only [load, hactive, List.map_append, List.map_cons, List.sum_append, List.sum_cons, List.length_append,
      List.length_cons, List.length_nil]
    omega
  | collect before after task hfinished =>
    simp only [load, hfinished, List.length_append, List.length_cons]
    omega

end Accounting

section Runs

variable [CharacterNames] {r : RuleSet} {workers : Nat} {p q : Crew} {corpus : List Template}

theorem tasks_perm_of_run (h : Relation.ReflTransGen (Step r workers) p q) : (q.tasks r).Perm (p.tasks r) := by
  induction h with
  | refl => exact List.Perm.refl _
  | tail _ hstep ih => exact hstep.tasks_perm.trans ih

theorem entries_perm_of_run (h : Relation.ReflTransGen (Step r workers) p q) : (q.entries r).Perm (p.entries r) := by
  induction h with
  | refl => exact List.Perm.refl _
  | tail _ hstep ih => exact hstep.entries_perm.trans ih

/-- There is no run that goes on for ever. -/
theorem acc_step (p : Crew) : Acc (fun after before => Step r workers before after) p :=
  Subrelation.accessible (fun h => h.load_lt) ((measure (load r)).wf.apply p)

/-- While something is to be done, some worker can do it. -/
theorem exists_step (hworkers : 0 < workers) (h : ¬p.Done) : ∃ q, Step r workers p q := by
  cases hactive : p.active with
  | cons job jobs =>
    obtain ⟨task, owed⟩ := job
    cases owed with
    | nil => exact ⟨_, .finish p [] jobs task hactive⟩
    | cons e owed => exact ⟨_, .record p [] jobs task e owed hactive⟩
  | nil =>
    cases hwaiting : p.waiting with
    | cons x rest =>
      have hfree : p.active.length < workers := by
        rw [hactive]
        exact hworkers
      exact ⟨_, .take p x rest hwaiting hfree⟩
    | nil =>
      cases hfinished : p.finished with
      | cons task tasks => exact ⟨_, .collect p [] tasks task hfinished⟩
      | nil => exact absurd ⟨hwaiting, hactive, hfinished⟩ h

theorem tasks_start : (start corpus).tasks r = tasksOf r corpus := by
  simp only [tasks, start, List.map_nil, List.nil_append]
  rfl

theorem entries_start : (start corpus).entries r = (tasksOf r corpus).flatMap (·.records.entries) := by
  simp only [entries, start, List.flatMap_nil, List.nil_append, tasksOf, List.flatMap_map]
  rfl

theorem Done.collected_perm (hdone : q.Done) (h : Relation.ReflTransGen (Step r workers) (start corpus) q) :
    q.collected.Perm (tasksOf r corpus) := by
  obtain ⟨hwaiting, hactive, hfinished⟩ := hdone
  have hperm := tasks_perm_of_run h
  rw [tasks_start] at hperm
  simpa only [tasks, hwaiting, hactive, hfinished, List.map_nil, List.append_nil] using hperm

theorem Done.log_perm (hdone : q.Done) (h : Relation.ReflTransGen (Step r workers) (start corpus) q) :
    q.log.Perm ((tasksOf r corpus).flatMap (·.records.entries)) := by
  obtain ⟨hwaiting, hactive, _⟩ := hdone
  have hperm := entries_perm_of_run h
  rw [entries_start] at hperm
  simpa only [entries, hwaiting, hactive, List.flatMap_nil, List.append_nil] using hperm

end Runs

end Crew

section Assembly

variable [CharacterNames] {r : RuleSet} {corpus : List Template} {finished : List Task}

/-- A task is known by its place. -/
theorem tasksOf_index_inj {a b : Task} (ha : a ∈ tasksOf r corpus) (hb : b ∈ tasksOf r corpus)
    (h : a.index = b.index) : a = b := by
  have hplaces : (tasksOf r corpus).map (·.index) = List.range' 0 corpus.length := by
    rw [tasksOf, List.map_map]
    exact List.zipIdx_map_snd 0 corpus
  have hnodup : ((tasksOf r corpus).map (·.index)).Nodup := by
    rw [hplaces]
    exact List.nodup_range'
  exact List.inj_on_of_nodup_map hnodup ha hb h

/-- Sorted by their places, tasks are in the order of the corpus. -/
theorem mergeSort_tasks (h : finished.Perm (tasksOf r corpus)) :
    (finished.mergeSort fun a b => decide (a.index ≤ b.index)) = tasksOf r corpus := by
  have hsorted : (finished.mergeSort fun a b => decide (a.index ≤ b.index)).Pairwise
      fun a b => decide (a.index ≤ b.index) = true := by
    apply List.pairwise_mergeSort
    · intro a b c hab hbc
      simp only [decide_eq_true_eq] at hab hbc ⊢
      omega
    · intro a b
      simp only [Bool.or_eq_true, decide_eq_true_eq]
      omega
  have hperm := (List.mergeSort_perm finished fun a b => decide (a.index ≤ b.index)).trans h
  refine hperm.eq_of_pairwise ?_ hsorted (tasksOf_sorted r corpus)
  intro a b ha hb hab hba
  simp only [decide_eq_true_eq] at hab hba
  exact tasksOf_index_inj (hperm.mem_iff.mp ha) hb (by omega)

/-- What becomes of a template does not depend on the order of the tasks. -/
theorem settled_perm (h : finished.Perm (tasksOf r corpus)) (t : Template) (i : Nat) :
    settled finished t i = settled (tasksOf r corpus) t i := by
  have hfind : finished.find? (·.index == i) = (tasksOf r corpus).find? (·.index == i) := by
    cases hfinished : finished.find? (·.index == i) with
    | none =>
      rw [List.find?_eq_none] at hfinished
      symm
      rw [List.find?_eq_none]
      intro k hk
      exact hfinished k (h.mem_iff.mpr hk)
    | some a =>
      have ha := List.find?_some hfinished
      have hmem := h.mem_iff.mp (List.mem_of_find?_eq_some hfinished)
      cases htasks : (tasksOf r corpus).find? (·.index == i) with
      | none => exact absurd ha (List.find?_eq_none.mp htasks a hmem)
      | some b =>
        have hb := List.find?_some htasks
        have hindex : a.index = b.index := (beq_iff_eq.mp ha).trans (beq_iff_eq.mp hb).symm
        rw [tasksOf_index_inj hmem (List.mem_of_find?_eq_some htasks) hindex]
  unfold settled
  rw [hfind]

end Assembly

/-- Two results that differ in the order of their records at most. -/
structure RunResult.SameButOrder (a b : RunResult) : Prop where
  success : a.success = b.success
  cancelled : a.cancelled = b.cancelled
  migrated : a.migrated = b.migrated
  outcomes : a.outcomes = b.outcomes
  statistics : a.statistics = b.statistics
  backups : a.backups = b.backups
  errors : a.errors.Perm b.errors
  warnings : a.warnings.Perm b.warnings

/-- What a run comes to depends on which tasks and records there are, not on their order. -/
theorem RunResult.assemble_sameButOrder [CharacterNames] {r : RuleSet} {corpus : List Template} {finished : List Task}
    {log : List LogEntry} (hfinished : finished.Perm (tasksOf r corpus))
    (hlog : log.Perm ((tasksOf r corpus).flatMap (·.records.entries))) :
    (assemble r corpus finished (.ofLog log)).SameButOrder (ofTasks r corpus (tasksOf r corpus)) := by
  have hsorted := mergeSort_tasks hfinished
  have hsorted' := mergeSort_tasks (List.Perm.refl (tasksOf r corpus))
  have herrors : (Records.ofLog log).errors.Perm (Records.ofTasks (tasksOf r corpus)).errors := by
    rw [Records.ofTasks_eq_ofLog]
    exact hlog.filterMap _
  have hwarnings : (Records.ofLog log).warnings.Perm (Records.ofTasks (tasksOf r corpus)).warnings := by
    rw [Records.ofTasks_eq_ofLog]
    exact hlog.filterMap _
  have hempty : (Records.ofLog log).errors.isEmpty = (Records.ofTasks (tasksOf r corpus)).errors.isEmpty := by
    rw [Bool.eq_iff_iff, List.isEmpty_iff_length_eq_zero, List.isEmpty_iff_length_eq_zero, herrors.length_eq]
  constructor
  · simp only [assemble, ofTasks, hsorted, hsorted', hempty]
  · simp only [assemble, ofTasks, hfinished.length_eq]
  · simp only [assemble, ofTasks, settled_perm hfinished]
  · simp only [assemble, ofTasks, hsorted, hsorted']
  · simp only [assemble, ofTasks, hsorted, hsorted']
  · simp only [assemble, ofTasks, hsorted, hsorted']
  · exact herrors
  · exact hwarnings

/-- However many workers share a corpus and in whatever order they go on, they come to an end, are never stuck before
it, and end with what a single worker returns, up to the order of the records. -/
theorem crew_sameButOrder [CharacterNames] {c : Session} {rules : RuleSet} (h : c.ruleSet.usable = .ok rules)
    (corpus : List Template)
    {workers : Nat} (hworkers : 0 < workers) :
    ∃ alone session, c.run corpus [] = .ok (alone, session) ∧
      Acc (fun after before => Crew.Step rules workers before after) (.start corpus) ∧
      ∀ crew, Relation.ReflTransGen (Crew.Step rules workers) (.start corpus) crew →
        (¬crew.Done → ∃ next, Crew.Step rules workers crew next) ∧
          (crew.Done → (crew.result rules corpus).SameButOrder alone) := by
  obtain ⟨session, hrun, _⟩ := run_complete_eq h corpus
  refine ⟨_, session, hrun, Crew.acc_step _, ?_⟩
  intro crew hcrew
  refine ⟨Crew.exists_step hworkers, ?_⟩
  intro hdone
  unfold runOver
  rw [List.take_length]
  exact RunResult.assemble_sameButOrder (hdone.collected_perm hcrew) (hdone.log_perm hcrew)

theorem crew_sameButOrder_repeated :
    ({} : Session).ruleSet.usable = .ok {} ∧ 0 < 3 ∧
      ∃ alone session, ({} : Session).run
          [.sample "b" "pub fun f() \x7b" "", .sample "a" "pub var x: Int" "", .sample "b" "let y = 1" ""] [] =
            .ok (alone, session) ∧
        Acc (fun after before => Crew.Step {} 3 before after) (.start
          [.sample "b" "pub fun f() \x7b" "", .sample "a" "pub var x: Int" "", .sample "b" "let y = 1" ""]) ∧
        ∀ crew, Relation.ReflTransGen (Crew.Step {} 3) (.start
            [.sample "b" "pub fun f() \x7b" "", .sample "a" "pub var x: Int" "", .sample "b" "let y = 1" ""]) crew →
          (¬crew.Done → ∃ next, Crew.Step {} 3 crew next) ∧
            (crew.Done → (crew.result {}
              [.sample "b" "pub fun f() \x7b" "", .sample "a" "pub var x: Int" "",
                .sample "b" "let y = 1" ""]).SameButOrder alone) :=
  ⟨defaults_usable, by decide, crew_sameButOrder (c := {}) defaults_usable _ (by decide)⟩

end CadenceUplift
