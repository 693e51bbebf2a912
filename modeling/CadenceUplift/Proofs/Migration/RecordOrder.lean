import CadenceUplift.Proofs.Diagnostic.Brackets
import CadenceUplift.Proofs.Migration.Crew
import CadenceUplift.Proofs.Scan.ResultOrder

namespace CadenceUplift

section Places

variable {α : Type} (file : α → String) (line : α → Option Int)

/-- By file, then by line; what has no line comes first. -/
def placeOrder : α → α → Ordering := compareLex (compareOn file) (compareOn line)

def byPlace (xs : List α) : List α := xs.mergeSort fun a b => (placeOrder file line a b).isLE

instance : Std.TransCmp (placeOrder file line) :=
  inferInstanceAs (Std.TransCmp (compareLex (compareOn file) (compareOn line)))

theorem placeOrder_total (a b : α) : ((placeOrder file line a b).isLE || (placeOrder file line b a).isLE) = true := by
  have hswap : placeOrder file line b a = (placeOrder file line a b).swap := Std.OrientedCmp.eq_swap
  rw [hswap]
  cases placeOrder file line a b <;> rfl

variable {file line}

theorem file_eq_of_placeOrder {a b : α} (h : Tied (fun x y => (placeOrder file line x y).isLE) a b = true) :
    file a = file b := by
  obtain ⟨hab, hba⟩ := tied_iff.mp h
  have heq : placeOrder file line a b = .eq := Std.OrientedCmp.isLE_antisymm hab hba
  simp only [placeOrder, compareLex, Ordering.then_eq_eq] at heq
  exact Std.LawfulEqOrd.compare_eq_iff_eq.mp heq.1

theorem byPlace_eq_of_files {xs ys : List α}
    (h : ∀ f, xs.filter (fun x => file x == f) = ys.filter fun x => file x == f) :
    byPlace file line xs = byPlace file line ys := by
  refine mergeSort_eq_of_filter_key ?_ (placeOrder_total file line) (fun a b => file_eq_of_placeOrder) h
  intro a b c
  exact Std.TransCmp.isLE_trans

end Places

/-- The records of a file are those that the log has on it. -/
theorem filter_filterMap_log {β : Type} {part : LogEntry → Option β} {fileOf : β → String}
    (hpart : ∀ e x, part e = some x → fileOf x = e.file) (log : List LogEntry) (file : String) :
    (log.filterMap part).filter (fun x => fileOf x == file) = (log.filter (·.file == file)).filterMap part := by
  rw [List.filter_filterMap, List.filterMap_filter]
  congr 1
  funext e
  cases hx : part e with
  | none => simp
  | some x => rw [Option.filter_some, hpart e x hx]

theorem LogEntry.file_of_error? (e : LogEntry) (x : ErrorRecord) (h : e.error? = some x) : x.file = e.file := by
  cases e with
  | error y =>
    cases h
    rfl
  | warning y => cases h

theorem LogEntry.file_of_warning? (e : LogEntry) (x : WarningRecord) (h : e.warning? = some x) : x.file = e.file := by
  cases e with
  | error y => cases h
  | warning y =>
    cases h
    rfl

section Bearers

variable (r : RuleSet) (file : String)

def Concerns (es : List LogEntry) : Bool := es.any (·.file == file)

variable {file}

theorem filter_eq_nil_of_not_concerns {es : List LogEntry} (h : ¬Concerns file es = true) :
    es.filter (·.file == file) = [] := by
  simpa [Concerns] using h

variable (file)

/-- How many jobs, in hand or waiting, have an entry about the file to make. -/
def Crew.bearers [CharacterNames] (crew : Crew) : Nat :=
  crew.active.countP (fun job => Concerns file job.owed) +
    crew.waiting.countP fun p => Concerns file (taskOf r p).records.entries

variable {r file} {workers : Nat} {p q : Crew}

theorem Crew.Step.bearers_le [CharacterNames] (h : Step r workers p q) : q.bearers r file ≤ p.bearers r file := by
  cases h with
  | take x rest hwaiting _ =>
    simp only [bearers, hwaiting, Job.start, List.countP_append, List.countP_cons, List.countP_nil]
    omega
  | record before after task e owed hactive =>
    have hless : (if Concerns file owed = true then 1 else 0) ≤ if Concerns file (e :: owed) = true then 1 else 0 := by
      by_cases howed : Concerns file owed = true
      · have hmore : Concerns file (e :: owed) = true := by
          rw [Concerns, List.any_cons]
          exact Bool.or_eq_true_iff.mpr (.inr howed)
        rw [if_pos howed, if_pos hmore]
      · rw [if_neg howed]
        exact Nat.zero_le _
    simp only [bearers, hactive, List.countP_append, List.countP_cons]
    omega
  | finish before after task hactive =>
    simp only [bearers, hactive, List.countP_append, List.countP_cons]
    omega
  | collect before after task hfinished => exact Nat.le_refl _

/-- An entry about a file overtakes none about the same file, if only one job has any. -/
theorem Crew.Step.filter_entries [CharacterNames] (h : Step r workers p q) (hone : p.bearers r file ≤ 1) :
    (q.entries r).filter (·.file == file) = (p.entries r).filter (·.file == file) := by
  cases h with
  | take x rest hwaiting _ => simp [entries, hwaiting, Job.start]
  | finish before after task hactive => simp [entries, hactive]
  | collect before after task hfinished => rfl
  | record before after task e owed hactive =>
    simp only [entries, hactive, List.flatMap_append, List.flatMap_cons, List.filter_append, List.append_assoc,
      List.cons_append]
    by_cases he : (e.file == file) = true
    · have hconcerns : Concerns file (e :: owed) = true := by
        rw [Concerns, List.any_cons, he, Bool.true_or]
      have hbefore : before.countP (fun job => Concerns file job.owed) = 0 := by
        simp only [bearers, hactive, List.countP_append, List.countP_cons, hconcerns, if_true] at hone
        omega
      have hnone : (before.flatMap (·.owed)).filter (·.file == file) = [] := by
        rw [List.filter_flatMap, List.flatMap_eq_nil_iff]
        intro job hjob
        exact filter_eq_nil_of_not_concerns (List.countP_eq_zero.mp hbefore job hjob)
      simp [hnone, he]
    · simp [he]

theorem Crew.filter_entries_of_run [CharacterNames] (h : Relation.ReflTransGen (Step r workers) p q)
    (hone : p.bearers r file ≤ 1) :
    q.bearers r file ≤ 1 ∧ (q.entries r).filter (·.file == file) = (p.entries r).filter (·.file == file) := by
  induction h with
  | refl => exact ⟨hone, rfl⟩
  | tail _ hstep ih =>
    obtain ⟨hone', hsame⟩ := ih
    exact ⟨hstep.bearers_le.trans hone', (hstep.filter_entries hone').trans hsame⟩

end Bearers

section Logs

variable {r : RuleSet} {corpus : List Template} {workers : Nat} {crew : Crew} {file : String}

/-- Whatever an attempt records is about its template. -/
theorem file_of_mem_entries [CharacterNames] {t : Template} {e : LogEntry} (h : e ∈ (attempt r t).2.entries) :
    e.file = t.label := by
  unfold attempt at h
  split at h
  next =>
    cases List.mem_singleton.mp h
    rfl
  next o _ =>
    simp only [Records.entries, List.mem_append, List.mem_map] at h
    rcases h with ⟨x, hx, rfl⟩ | ⟨x, hx | ⟨n, _, rfl⟩, rfl⟩
    · split at hx
      next =>
        split at hx
        next => cases hx
        next =>
          cases List.mem_singleton.mp hx
          rfl
      next => cases hx
    · split at hx
      next =>
        obtain ⟨w, _, rfl⟩ := List.mem_map.mp hx
        rfl
      next => cases hx
    · rfl

/-- Only the templates with its label have records on a file. -/
theorem Crew.bearers_start_le [CharacterNames] : (start corpus).bearers r file ≤ corpus.countP (·.label == file) := by
  have hfst : corpus.zipIdx.countP (fun p => p.1.label == file) = corpus.countP (·.label == file) := by
    conv => rhs; rw [← List.zipIdx_map_fst 0 corpus, List.countP_map]
    rfl
  simp only [bearers, start, List.countP_nil, Nat.zero_add]
  rw [← hfst]
  apply List.countP_mono_left
  intro p _ hconcerns
  obtain ⟨e, he, hfile⟩ := List.any_eq_true.mp hconcerns
  rwa [file_of_mem_entries he] at hfile

/-- The log of a finished run has the records of a template in the order of its task. -/
theorem Crew.Done.filter_log [CharacterNames] (hdone : crew.Done)
    (h : Relation.ReflTransGen (Step r workers) (start corpus) crew)
    (hone : corpus.countP (·.label == file) ≤ 1) :
    crew.log.filter (·.file == file) =
      ((tasksOf r corpus).flatMap (·.records.entries)).filter (·.file == file) := by
  obtain ⟨hwaiting, hactive, _⟩ := hdone
  have hsame := (filter_entries_of_run h (bearers_start_le.trans hone)).2
  rw [entries_start] at hsame
  simpa only [entries, hwaiting, hactive, List.flatMap_nil, List.append_nil] using hsame

theorem countP_label_le_one (h : (corpus.map (·.id)).Nodup) (file : String) :
    corpus.countP (·.label == file) ≤ 1 := by
  have hinj : Function.Injective fun id : String => "template:" ++ id := by
    intro a b hab
    exact (String.append_right_inj _).mp hab
  have hlabels := List.nodup_iff_count_le_one.mp (h.map hinj) file
  rwa [List.map_map, List.count, List.countP_map] at hlabels

end Logs

section Races

variable [CharacterNames] (r : RuleSet)

/-- A worker may go through with its job while the others rest. -/
theorem Crew.run_job (workers : Nat) (crew : Crew) (before after : List Job) (task : Task) (owed : List LogEntry)
    (h : crew.active = before ++ ⟨task, owed⟩ :: after) :
    Relation.ReflTransGen (Step r workers) crew { crew with
      active := before ++ after, finished := crew.finished ++ [task], log := crew.log ++ owed } := by
  induction owed generalizing crew with
  | nil =>
    rw [List.append_nil]
    exact .single (.finish crew before after task h)
  | cons e owed ih =>
    have hrest := ih { crew with active := before ++ ⟨task, owed⟩ :: after, log := crew.log ++ [e] } rfl
    simp only [List.append_assoc, List.singleton_append] at hrest
    exact .head (.record crew before after task e owed h) hrest

/-- Two workers may finish two templates in either order. -/
theorem Crew.exists_runs_of_pair (s t : Template) :
    ∃ crew crew', Relation.ReflTransGen (Step r 2) (start [s, t]) crew ∧ crew.Done ∧
      Relation.ReflTransGen (Step r 2) (start [s, t]) crew' ∧ crew'.Done ∧
      crew.log = (attempt r s).2.entries ++ (attempt r t).2.entries ∧
      crew'.log = (attempt r t).2.entries ++ (attempt r s).2.entries := by
  have htaken : Relation.ReflTransGen (Step r 2) (start [s, t])
      { waiting := [], active := [.start r (s, 0), .start r (t, 1)] } :=
    .tail (.single (.take _ (s, 0) [(t, 1)] rfl (by simp [start]))) (.take _ (t, 1) [] rfl (by simp [start]))
  have hcollect (a b : Task) (log : List LogEntry) : Relation.ReflTransGen (Step r 2)
      { waiting := [], finished := [a, b], log := log } { waiting := [], collected := [a, b], log := log } :=
    .tail (.single (.collect _ [] [b] a rfl)) (.collect _ [] [] b rfl)
  refine ⟨{ waiting := [], collected := [taskOf r (s, 0), taskOf r (t, 1)], log := _ },
    { waiting := [], collected := [taskOf r (t, 1), taskOf r (s, 0)], log := _ },
    ?_, ⟨rfl, rfl, rfl⟩, ?_, ⟨rfl, rfl, rfl⟩, rfl, rfl⟩
  · have hfirst := run_job r 2 { waiting := [], active := [.start r (s, 0), .start r (t, 1)] } []
      [.start r (t, 1)] _ _ rfl
    have hsecond := run_job r 2
      { waiting := [], active := [.start r (t, 1)], finished := [taskOf r (s, 0)], log := (attempt r s).2.entries } []
      [] _ _ rfl
    exact (htaken.trans hfirst).trans (hsecond.trans (hcollect _ _ _))
  · have hfirst := run_job r 2 { waiting := [], active := [.start r (s, 0), .start r (t, 1)] }
      [.start r (s, 0)] [] _ _ rfl
    have hsecond := run_job r 2
      { waiting := [], active := [.start r (s, 0)], finished := [taskOf r (t, 1)], log := (attempt r t).2.entries } []
      [] _ _ rfl
    exact (htaken.trans hfirst).trans (hsecond.trans (hcollect _ _ _))

/-- With the starting rules, legacy code with brackets that do not match is rejected, and that is recorded. -/
theorem attempt_unbalanced {o : RunOptions} (hvalidates : o.validates = true) (hpreserves : o.preserves = true)
    {t : Template} {s : String} (hcode : t.code = .text s) (hlegacy : isLegacy (codeOnly s.toList) = true)
    (hbrackets : bracketErrors (codeOnly s.toList) ≠ []) :
    ∃ e, (attempt ⟨o, Rule.defaults⟩ t).2.errors = [e] ∧ e.file = t.label := by
  have hneeded : (attempt ⟨o, Rule.defaults⟩ t).1.needed = true := by rw [attempt_needed _ t hcode, hlegacy]
  have hsuccess : (attempt ⟨o, Rule.defaults⟩ t).1.success = false := by
    obtain ⟨e, he⟩ | hof := attempt_cases ⟨o, Rule.defaults⟩ t
    · rw [he]
      rfl
    · generalize (attempt ⟨o, Rule.defaults⟩ t).1 = out at hof hneeded
      cases hof with
      | skipped => cases hneeded
      | rejected _ _ _ _ _ _ hfailed => exact hfailed
      | accepted u _ _ _ _ _ _ hmodern hchecked =>
        obtain ⟨s', hs', hu, _⟩ := hmodern.code
        rw [hcode] at hs'
        cases hs'
        rw [uplift_eq, hpreserves] at hu
        obtain ⟨text, counts, notes⟩ := u
        obtain ⟨htext, _, _⟩ := Uplifted.mk.inj (Except.ok.inj hu)
        have herrors := (List.append_eq_nil_iff.mp (List.isEmpty_iff.mp (hchecked hvalidates))).2
        have hmessages := messages_afterSteps steps s.toList
        rw [htext, List.map_eq_nil_iff.mp herrors, List.map_nil] at hmessages
        exact absurd (List.map_eq_nil_iff.mp hmessages.symm) hbrackets
  have hlength := attempt_errors ⟨o, Rule.defaults⟩ t
  rw [hneeded, hsuccess] at hlength
  obtain ⟨e, he⟩ := List.length_eq_one_iff.mp hlength
  have hmem : .error e ∈ (attempt ⟨o, Rule.defaults⟩ t).2.entries := by simp [Records.entries, he]
  exact ⟨e, he, file_of_mem_entries hmem⟩

end Races

/-- Two results over a corpus that tell the same of each file: they have the same records, those of a template that
shares its label with no other in the same order, and all of them in the same order once they are sorted by file, then
line, if no two templates have one identifier. -/
structure RunResult.SameByFile (corpus : List Template) (a b : RunResult) : Prop where
  errors : a.errors.Perm b.errors
  warnings : a.warnings.Perm b.warnings
  errorsOf : ∀ file, corpus.countP (·.label == file) ≤ 1 →
    a.errors.filter (·.file == file) = b.errors.filter (·.file == file)
  warningsOf : ∀ file, corpus.countP (·.label == file) ≤ 1 →
    a.warnings.filter (·.file == file) = b.warnings.filter (·.file == file)
  sortedErrors : (corpus.map (·.id)).Nodup → byPlace (·.file) (·.line) a.errors = byPlace (·.file) (·.line) b.errors
  sortedWarnings : (corpus.map (·.id)).Nodup →
    byPlace (·.file) (·.line) a.warnings = byPlace (·.file) (·.line) b.warnings

/-- However two crews share a corpus, what they report is the same file by file. -/
theorem crews_sameByFile [CharacterNames] {rules : RuleSet} {corpus : List Template} {workers workers' : Nat}
    {crew crew' : Crew}
    (h : Relation.ReflTransGen (Crew.Step rules workers) (.start corpus) crew) (hdone : crew.Done)
    (h' : Relation.ReflTransGen (Crew.Step rules workers') (.start corpus) crew') (hdone' : crew'.Done) :
    (crew.result rules corpus).SameByFile corpus (crew'.result rules corpus) := by
  have hperm := (hdone.log_perm h).trans (hdone'.log_perm h').symm
  have hlog (file : String) (hone : corpus.countP (·.label == file) ≤ 1) :
      crew.log.filter (·.file == file) = crew'.log.filter (·.file == file) :=
    (hdone.filter_log h hone).trans (hdone'.filter_log h' hone).symm
  have herrors (file : String) (hone : corpus.countP (·.label == file) ≤ 1) :
      (crew.result rules corpus).errors.filter (·.file == file) =
        (crew'.result rules corpus).errors.filter (·.file == file) := by
    have hfilter (log : List LogEntry) := filter_filterMap_log LogEntry.file_of_error? log file
    exact (hfilter crew.log).trans ((congrArg _ (hlog file hone)).trans (hfilter crew'.log).symm)
  have hwarnings (file : String) (hone : corpus.countP (·.label == file) ≤ 1) :
      (crew.result rules corpus).warnings.filter (·.file == file) =
        (crew'.result rules corpus).warnings.filter (·.file == file) := by
    have hfilter (log : List LogEntry) := filter_filterMap_log LogEntry.file_of_warning? log file
    exact (hfilter crew.log).trans ((congrArg _ (hlog file hone)).trans (hfilter crew'.log).symm)
  constructor
  · exact hperm.filterMap _
  · exact hperm.filterMap _
  · exact herrors
  · exact hwarnings
  · intro hids
    exact byPlace_eq_of_files fun file => herrors file (countP_label_le_one hids file)
  · intro hids
    exact byPlace_eq_of_files fun file => hwarnings file (countP_label_le_one hids file)

/-- Two templates that are rejected, not in the order of their names. -/
def rejectedPair : List Template := [.sample "b" "pub fun f() \x7b" "", .sample "a" "pub fun f() \x7b" ""]

theorem crews_sameByFile_raced :
    ∃ crew crew', Relation.ReflTransGen (Crew.Step {} 2) (.start rejectedPair) crew ∧ crew.Done ∧
      Relation.ReflTransGen (Crew.Step {} 2) (.start rejectedPair) crew' ∧ crew'.Done ∧
      (crew.result {} rejectedPair).SameByFile rejectedPair (crew'.result {} rejectedPair) := by
  obtain ⟨crew, crew', h, hdone, h', hdone', _⟩ := Crew.exists_runs_of_pair {}
    (.sample "b" "pub fun f() \x7b" "") (.sample "a" "pub fun f() \x7b" "")
  exact ⟨crew, crew', h, hdone, h', hdone', crews_sameByFile h hdone h' hdone'⟩

/-- Errors are listed as they come up: two runs of one crew over one corpus list them differently. -/
theorem crews_list_errors_differently :
    ({} : RuleSet).usable = .ok {} ∧
      ∃ crew crew', Relation.ReflTransGen (Crew.Step {} 2) (.start rejectedPair) crew ∧ crew.Done ∧
        Relation.ReflTransGen (Crew.Step {} 2) (.start rejectedPair) crew' ∧ crew'.Done ∧
        (crew.result {} rejectedPair).errors ≠ (crew'.result {} rejectedPair).errors := by
  obtain ⟨crew, crew', h, hdone, h', hdone', hlog, hlog'⟩ := Crew.exists_runs_of_pair {}
    (.sample "b" "pub fun f() \x7b" "") (.sample "a" "pub fun f() \x7b" "")
  refine ⟨defaults_usable, crew, crew', h, hdone, h', hdone', ?_⟩
  have hlegacy : isLegacy (codeOnly "pub fun f() \x7b".toList) = true := by decide +kernel
  have hbrackets : bracketErrors (codeOnly "pub fun f() \x7b".toList) ≠ [] := by decide +kernel
  have hone (id : String) := attempt_unbalanced (o := {}) rfl rfl (t := .sample id "pub fun f() \x7b" "") rfl hlegacy
    hbrackets
  obtain ⟨b, hb, hbfile⟩ := hone "b"
  obtain ⟨a, ha, hafile⟩ := hone "a"
  have herrors (log : List LogEntry) (first second : Records) (hlog : log = first.entries ++ second.entries) :
      (Records.ofLog log).errors = first.errors ++ second.errors := by
    rw [hlog, Records.ofLog_append, Records.ofLog_entries, Records.ofLog_entries]
    rfl
  intro hsame
  have hlists : (Records.ofLog crew.log).errors = (Records.ofLog crew'.log).errors := hsame
  rw [herrors _ _ _ hlog, herrors _ _ _ hlog', ha, hb] at hlists
  have hhead : b = a := (List.cons.inj hlists).1
  rw [hhead, hafile] at hbfile
  exact absurd hbfile (by decide)

end CadenceUplift
