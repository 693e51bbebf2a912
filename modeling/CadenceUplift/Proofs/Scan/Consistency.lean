import CadenceUplift.Scan.Report
import CadenceUplift.Proofs.Scan.Workers
import Mathlib.Algebra.BigOperators.Group.List.Lemmas
import Mathlib.Algebra.GroupWithZero.Nat
import Mathlib.Data.Finset.Dedup
import Mathlib.Data.Finset.Card
import Mathlib.Data.String.Basic

namespace CadenceUplift

/-- The more urgent finding comes first, then the one of stronger impact; those alike in both come by file, line,
column, kind and matched text. -/
def Finding.Precedes (a b : Finding) : Prop :=
  b.severity.rank < a.severity.rank ∨ b.severity.rank = a.severity.rank ∧
    (b.impact.rank < a.impact.rank ∨ b.impact.rank = a.impact.rank ∧
      (a.site.file < b.site.file ∨ a.site.file = b.site.file ∧
        (a.site.line < b.site.line ∨ a.site.line = b.site.line ∧
          (a.site.column < b.site.column ∨ a.site.column = b.site.column ∧
            (a.construct.name < b.construct.name ∨ a.construct.name = b.construct.name ∧ a.matched ≤ b.matched)))))

/-- A result that reports the given findings, in order and with the right numbers. -/
structure ScanResult.Consistent (r : ScanResult) (fs : List Finding) : Prop where
  complete : r.findings.Perm fs
  ordered : r.findings.Pairwise Finding.Precedes
  total : r.toFields.lookup "total_patterns_found" = some (.int r.findings.length)
  constructs : ∀ name count, (name, count) ∈ r.byConstruct ↔
    0 < count ∧ count = r.findings.countP fun f => f.construct.name == name
  constructs_sum : (r.byConstruct.map (·.2)).sum = r.findings.length
  severities : ∀ severity count, (severity, count) ∈ r.bySeverity ↔
    0 < count ∧ count = r.findings.countP fun f => f.severity == severity
  severities_sum : (r.bySeverity.map (·.2)).sum = r.findings.length
  files : r.filesWithFindings = (r.findings.map (·.site.file)).toFinset.card

section Order

theorem Finding.order_isLE_iff (a b : Finding) : (a.order b).isLE = true ↔ a.Precedes b := by
  have hle (x y : String) : (compare x y).isLE = true ↔ x ≤ y := Std.LawfulBCmp.isLE_iff_le
  simp only [Finding.order, Finding.Precedes, Ordering.isLE_then_iff_or, compare_lt_iff_lt, Std.compare_eq_iff_eq, hle]

theorem pairwise_inResultOrder (fs : List Finding) : (inResultOrder fs).Pairwise Finding.Precedes := by
  have hsorted : (inResultOrder fs).Pairwise fun a b => (a.order b).isLE = true :=
    List.pairwise_mergeSort (fun _ _ _ => Std.TransCmp.isLE_trans) Finding.order_total fs
  exact hsorted.imp fun h => (Finding.order_isLE_iff _ _).mp h

theorem inResultOrder_perm (fs : List Finding) : (inResultOrder fs).Perm fs := List.mergeSort_perm _ _

end Order

section Counts

theorem eraseDups_concat (names : List String) (name : String) :
    (names ++ [name]).eraseDups = if name ∈ names then names.eraseDups else names.eraseDups ++ [name] := by
  rw [List.eraseDups_append]
  split
  next h => simp [List.removeAll, h]
  next h => simp [List.removeAll, h, List.eraseDups_cons]

theorem nodup_eraseDups (names : List String) : names.eraseDups.Nodup := by
  induction names using List.reverseRecOn with
  | nil => exact List.nodup_nil
  | append_singleton names name ih =>
    rw [eraseDups_concat]
    split
    · exact ih
    next h =>
      have hnot : name ∉ names.eraseDups := mt List.mem_eraseDups.mp h
      rw [← List.concat_eq_append]
      exact ih.concat hnot

/-- One more of a name adds to its count, and a new name is counted once. -/
theorem tally_map {names : List String} (hnodup : names.Nodup) (count : String → Nat) (name : String) :
    tally (names.map fun n => (n, count n)) name =
      if name ∈ names then names.map fun n => (n, count n + if name = n then 1 else 0)
      else (names.map fun n => (n, count n)) ++ [(name, 1)] := by
  induction names with
  | nil => rfl
  | cons n names ih =>
    obtain ⟨hn, hnames⟩ := List.nodup_cons.mp hnodup
    rw [List.map_cons, tally, ih hnames]
    by_cases h : n = name
    · subst h
      have hothers : ∀ m ∈ names, n ≠ m := fun m hm => (ne_of_mem_of_not_mem hm hn).symm
      simp only [if_true, List.mem_cons, true_or, List.map_cons, List.cons.injEq, true_and]
      refine List.map_congr_left ?_
      intro m hm
      simp [hothers m hm]
    · have hmem : name ∈ n :: names ↔ name ∈ names := by simp [Ne.symm h]
      rw [if_neg h]
      by_cases hname : name ∈ names
      · rw [if_pos hname, if_pos (hmem.mpr hname), List.map_cons, if_neg (Ne.symm h), Nat.add_zero]
      · rw [if_neg hname, if_neg (mt hmem.mp hname), List.cons_append]

theorem tallies_eq (names : List String) : tallies names = names.eraseDups.map fun n => (n, names.count n) := by
  induction names using List.reverseRecOn with
  | nil => rfl
  | append_singleton names name ih =>
    have hsteps : tallies (names ++ [name]) = tally (tallies names) name := List.foldl_concat ..
    have hcount (n : String) : (names ++ [name]).count n = names.count n + if name = n then 1 else 0 := by
      rw [List.count_append, List.count_singleton']
    rw [hsteps, ih, tally_map (nodup_eraseDups names), eraseDups_concat]
    by_cases h : name ∈ names
    · rw [if_pos (List.mem_eraseDups.mpr h), if_pos h]
      simp only [hcount]
    · have hothers : ∀ n ∈ names.eraseDups, name ≠ n := by
        rintro n hn rfl
        exact h (List.mem_eraseDups.mp hn)
      rw [if_neg (mt List.mem_eraseDups.mp h), if_neg h, List.map_append]
      refine congrArg₂ (· ++ ·) (List.map_congr_left ?_) ?_
      · intro n hn
        rw [hcount, if_neg (hothers n hn), Nat.add_zero]
      · simp [hcount, List.count_eq_zero_of_not_mem h]

theorem sortedTallies_perm (names : List String) :
    (sortedTallies names).Perm (names.eraseDups.map fun n => (n, names.count n)) := by
  rw [← tallies_eq]
  exact List.mergeSort_perm _ _

theorem mem_sortedTallies {names : List String} {name : String} {count : Nat} :
    (name, count) ∈ sortedTallies names ↔ 0 < count ∧ count = names.count name := by
  rw [(sortedTallies_perm names).mem_iff, List.mem_map]
  constructor
  · rintro ⟨n, hn, h⟩
    obtain ⟨rfl, rfl⟩ := Prod.mk.inj h
    exact ⟨List.count_pos_iff.mpr (List.mem_eraseDups.mp hn), rfl⟩
  · rintro ⟨hpos, rfl⟩
    exact ⟨name, List.mem_eraseDups.mpr (List.count_pos_iff.mp hpos), rfl⟩

theorem sum_sortedTallies (names : List String) : ((sortedTallies names).map (·.2)).sum = names.length := by
  have hdedup : names.eraseDups.Perm names.dedup :=
    (List.perm_ext_iff_of_nodup (nodup_eraseDups names) names.nodup_dedup).mpr fun n => by simp
  calc ((sortedTallies names).map (·.2)).sum
      = ((names.eraseDups.map fun n => (n, names.count n)).map (·.2)).sum :=
        ((sortedTallies_perm names).map _).sum_eq
    _ = (names.dedup.map fun n => names.count n).sum := by
        rw [List.map_map]
        exact (hdedup.map _).sum_eq
    _ = names.length := List.sum_map_count_dedup_eq_length names

theorem length_eraseDups (names : List String) : names.eraseDups.length = names.toFinset.card := by
  rw [← List.toFinset_card_of_nodup (nodup_eraseDups names)]
  refine congrArg Finset.card (Finset.ext fun n => ?_)
  rw [List.mem_toFinset, List.mem_toFinset, List.mem_eraseDups]

end Counts

section Severities

theorem countSeverity_eq (s : Severity) (fs : List Finding) :
    countSeverity s fs = fs.countP fun f => f.severity == s := List.countP_eq_length_filter.symm

/-- The severities in use that findings have, with how many have them. -/
def severityCounts (fs : List Finding) : List (Severity × Nat) :=
  Severity.ranked.filterMap fun s =>
    match countSeverity s fs with
    | 0 => none
    | n => some (s, n)

variable {fs : List Finding}

theorem mem_severityCounts (hranked : ∀ f ∈ fs, f.severity ∈ Severity.ranked) {s : Severity} {count : Nat} :
    (s, count) ∈ severityCounts fs ↔ 0 < count ∧ count = fs.countP fun f => f.severity == s := by
  rw [severityCounts, List.mem_filterMap, ← countSeverity_eq]
  constructor
  · rintro ⟨s', _, h⟩
    split at h
    next => cases h
    next hne =>
      obtain ⟨rfl, rfl⟩ := Prod.mk.inj (Option.some.inj h)
      exact ⟨Nat.pos_of_ne_zero hne, rfl⟩
  · rintro ⟨hpos, rfl⟩
    obtain ⟨f, hf⟩ := List.exists_mem_of_length_pos hpos
    obtain ⟨hf, hs⟩ := List.mem_filter.mp hf
    refine ⟨s, beq_iff_eq.mp hs ▸ hranked f hf, ?_⟩
    split
    next hzero => omega
    next => rfl

theorem sum_severityCounts (hranked : ∀ f ∈ fs, f.severity ∈ Severity.ranked) :
    ((severityCounts fs).map (·.2)).sum = fs.length := by
  have hsum (ss : List Severity) :
      ((ss.filterMap fun s => match countSeverity s fs with | 0 => none | n => some (s, n)).map (·.2)).sum =
        (ss.map fun s => countSeverity s fs).sum := by
    induction ss with
    | nil => rfl
    | cons s ss ih =>
      rw [List.map_cons, List.sum_cons, ← ih, List.filterMap_cons]
      cases h : countSeverity s fs with
      | zero => simp
      | succ n => simp
  rw [severityCounts, hsum]
  clear hsum
  induction fs with
  | nil => rfl
  | cons f fs ih =>
    obtain ⟨hf, hrest⟩ := List.forall_mem_cons.mp hranked
    have hsum := ih hrest
    simp only [Severity.ranked, List.map_cons, List.map_nil, List.sum_cons, List.sum_nil, countSeverity_eq,
      List.countP_cons, List.length_cons, List.mem_cons, List.not_mem_nil, or_false] at hsum hf ⊢
    rcases hf with hf | hf | hf <;> simp [hf] <;> omega

end Severities

theorem consistent_buildResult {fs : List Finding} (hranked : ∀ f ∈ fs, f.severity ∈ Severity.ranked)
    (filesScanned suppressed : Int) (failedFiles : List String) :
    (buildResult fs filesScanned suppressed failedFiles).Consistent fs := by
  have hperm := inResultOrder_perm fs
  have hsorted : ∀ f ∈ inResultOrder fs, f.severity ∈ Severity.ranked := fun f hf => hranked f (hperm.mem_iff.mp hf)
  refine ⟨hperm, pairwise_inResultOrder fs, rfl, ?_, ?_, fun _ _ => mem_severityCounts hsorted,
    sum_severityCounts hsorted, length_eraseDups _⟩
  · intro name count
    have hcount : ((inResultOrder fs).map (·.construct.name)).count name =
        (inResultOrder fs).countP fun f => f.construct.name == name := List.countP_map
    exact hcount ▸ mem_sortedTallies
  · have hsum := sum_sortedTallies ((inResultOrder fs).map (·.construct.name))
    rwa [List.length_map] at hsum

section Findings

theorem severity_mem_of_mem_scanText {policy : Policy} {s : List Char} {path : String} {isCadence : Option Bool}
    {f : Finding} (h : f ∈ (scanText policy s path isCadence).findings) : f.severity ∈ Severity.ranked := by
  have hdetectors : ∀ d ∈ Legacy.detectors, d.severity ∈ Severity.ranked := by decide
  obtain ⟨d, hd, m, _, rfl, _⟩ := exists_of_mem_scanText h
  simp only [Subject.sighting]
  cases (Subject.ofText s path isCadence).setting m with
  | none => exact hdetectors d hd
  | some setting => simp [Legacy.Detector.finding, Severity.ranked]

/-- The findings in the files of a tree that a plan wants and that can be read. -/
def ScanPlan.treeFindings (sc : ScanPlan) (t : FileTree) (root : Path) : List Finding :=
  (sc.collect t root).flatMap fun f =>
    match t.readText (entryPath root f).text with
    | .ok s => (scanText sc.policy s ("/".intercalate f) none).findings
    | .error _ => []

/-- The paths of the files of a tree that a plan wants and that cannot be read. -/
def ScanPlan.unreadable (sc : ScanPlan) (t : FileTree) (root : Path) : List String :=
  ((sc.collect t root).filter fun f => (t.readText (entryPath root f).text).toOption.isNone).map ("/".intercalate ·)

/-- The findings in the code of templates. -/
def ScanPlan.corpusFindings (sc : ScanPlan) (ts : List Template) : List Finding :=
  ts.flatMap fun t =>
    match t.code with
    | .text s => (scanText sc.policy s.toList t.label (some true)).findings
    | _ => []

/-- The scans of the code of templates, one for each. -/
def ScanPlan.Scans (sc : ScanPlan) (ts : List Template) (scans : List TextScan) : Prop :=
  List.Forall₂ (fun t scan => ∃ code, t.code = .text code ∧
    scan = scanText sc.policy code.toList t.label (some true)) ts scans

end Findings

/-- What a scan of a tree that is not stopped may end with: a result, and the errors that were recorded on the way. A
single worker takes the files in order, several finish them as it happens. -/
inductive ScanPlan.EndsWith (sc : ScanPlan) (t : FileTree) (root : String) : ScanResult → List ErrorRecord → Prop
  | alone {s : TreeScan} : sc.scan t root = .ok s → sc.workers = 1 → EndsWith sc t root s.result s.errors
  | shared {s : TreeScan} {finished : List FileScan} : sc.scan t root = .ok s → sc.workers ≠ 1 →
      Relation.ReflTransGen (Pool.Step (sc.scanAt t (Path.ofString root)))
        ⟨sc.collect t (Path.ofString root), []⟩ ⟨[], finished⟩ →
      EndsWith sc t root (resultOf (sc.arrange finished)) (finished.filterMap (·.error?))

/-- A result and errors that say what came of each file of a tree. -/
structure ScanPlan.AccountsFor (sc : ScanPlan) (t : FileTree) (root : Path) (r : ScanResult)
    (errors : List ErrorRecord) : Prop where
  consistent : r.Consistent (sc.treeFindings t root)
  files : r.filesScanned + r.failedFiles.length = (sc.collect t root).length
  failed : r.failedFiles.Perm (sc.unreadable t root)
  failed_sorted : r.failedFiles.Pairwise (· ≤ ·)
  reported : (errors.map (·.file)).Perm r.failedFiles
  critical : ∀ e ∈ errors, e.category = "system" ∧ e.severity = "critical"

section Trees

variable (sc : ScanPlan) (t : FileTree) (root : Path)

theorem flatMap_findings_scanAt :
    ((sc.collect t root).map (sc.scanAt t root)).flatMap (·.findings) = sc.treeFindings t root := by
  rw [List.flatMap_map, ScanPlan.treeFindings]
  refine congrArg List.flatten (List.map_congr_left ?_)
  intro f _
  simp only [ScanPlan.scanAt, FileScan.findings]
  cases t.readText (ScanPlan.entryPath root f).text <;> rfl

theorem map_path_unread :
    (((sc.collect t root).map (sc.scanAt t root)).filter fun f => !f.readable).map (·.path) = sc.unreadable t root := by
  rw [List.filter_map, List.map_map, ScanPlan.unreadable]
  refine congrArg₂ List.map rfl (List.filter_congr ?_)
  intro f _
  simp only [Function.comp, ScanPlan.scanAt, FileScan.readable]
  cases t.readText (ScanPlan.entryPath root f).text <;> rfl

theorem map_file_errors (scans : List FileScan) :
    (scans.filterMap (·.error?)).map (·.file) = (scans.filter fun f => !f.readable).map (·.path) := by
  induction scans with
  | nil => rfl
  | cons f scans ih =>
    cases h : f.outcome with
    | error e =>
      have herror : f.error? = some (.system f.path e.message) := by rw [FileScan.error?, h]
      have hunread : f.readable = false := by rw [FileScan.readable, h]; rfl
      rw [List.filterMap_cons_some herror, List.filter_cons_of_pos (by simp [hunread]), List.map_cons, List.map_cons,
        ih]
      rfl
    | ok scan =>
      have herror : f.error? = none := by rw [FileScan.error?, h]
      have hread : f.readable = true := by rw [FileScan.readable, h]; rfl
      rw [List.filterMap_cons_none herror, List.filter_cons_of_neg (by simp [hread]), ih]

theorem critical_errors {scans : List FileScan} :
    ∀ e ∈ scans.filterMap (·.error?), e.category = "system" ∧ e.severity = "critical" := by
  intro e he
  obtain ⟨f, _, herror⟩ := List.mem_filterMap.mp he
  rw [FileScan.error?] at herror
  split at herror
  next =>
    obtain rfl := Option.some.inj herror
    exact ⟨rfl, rfl⟩
  next => cases herror

theorem severity_mem_treeFindings : ∀ f ∈ sc.treeFindings t root, f.severity ∈ Severity.ranked := by
  intro f hf
  obtain ⟨file, _, hf⟩ := List.mem_flatMap.mp hf
  split at hf
  next => exact severity_mem_of_mem_scanText hf
  next => cases hf

/-- The scans of all files, in any order, account for the tree. -/
theorem accountsFor_walk {finished : List FileScan}
    (hperm : finished.Perm ((sc.collect t root).map (sc.scanAt t root))) :
    sc.AccountsFor t root (resultOf ((sc.collect t root).map (sc.scanAt t root))) (finished.filterMap (·.error?)) := by
  have hfindings := flatMap_findings_scanAt sc t root
  have hunread := map_path_unread sc t root
  have hlength := (sc.collect t root).length_map (f := sc.scanAt t root)
  have herrors := ((hperm.filter fun f => !f.readable).map (·.path))
  generalize (sc.collect t root).map (sc.scanAt t root) = scans at hfindings hunread hlength herrors
  have hfailed : (resultOf scans).failedFiles.Perm (sc.unreadable t root) := hunread ▸ List.mergeSort_perm _ _
  refine ⟨?_, ?_, hfailed, pairwise_mergeSort_names _, ?_, critical_errors⟩
  · rw [← hfindings]
    exact consistent_buildResult (hfindings ▸ severity_mem_treeFindings sc t root) _ _ _
  · have hsplit := scans.length_eq_length_filter_add FileScan.readable
    rw [hfailed.length_eq, ← hunread, List.length_map, ← hlength, hsplit]
    rfl
  · rw [map_file_errors]
    rw [hunread] at herrors
    exact herrors.trans hfailed.symm

variable {sc t} {root : String}

/-- However many workers there are, a scan that ends accounts for the tree. -/
theorem ScanPlan.EndsWith.accountsFor {r : ScanResult} {errors : List ErrorRecord} (h : sc.EndsWith t root r errors) :
    sc.AccountsFor t (Path.ofString root) r errors := by
  cases h with
  | @alone s h _ =>
    have herrors : s.errors =
        ((sc.collect t (Path.ofString root)).map (sc.scanAt t (Path.ofString root))).filterMap (·.error?) := by
      rw [eq_scanFiles_of_scan h]
      rfl
    rw [result_of_scan h, herrors]
    exact accountsFor_walk sc t _ (List.Perm.refl _)
  | shared h _ hrun =>
    have hperm := Pool.perm_of_run hrun
    simp only [Pool.scans, List.map_nil, List.append_nil, List.nil_append] at hperm
    rw [resultOf_arrange_run hrun]
    exact accountsFor_walk sc t _ hperm

theorem ScanPlan.exists_endsWith (hroot : t.isDirectory (Path.ofString root) = true)
    (hfault : sc.fault? t (Path.ofString root) = none) : ∃ r errors, sc.EndsWith t root r errors := by
  obtain ⟨s, hs⟩ := exists_scan hroot hfault
  by_cases hworkers : sc.workers = 1
  · exact ⟨_, _, .alone hs hworkers⟩
  · exact ⟨_, _, .shared hs hworkers (Pool.run_in_order _ [])⟩

end Trees

section Templates

variable (sc : ScanPlan)

variable {sc} in
theorem ScanPlan.Scans.flatMap_findings {ts : List Template} {scans : List TextScan} (h : sc.Scans ts scans) :
    scans.flatMap (·.findings) = sc.corpusFindings ts := by
  rw [ScanPlan.corpusFindings]
  induction h with
  | nil => rfl
  | cons hscan _ ih =>
    obtain ⟨code, hcode, rfl⟩ := hscan
    rw [List.flatMap_cons, List.flatMap_cons, ih, hcode]

theorem scanOne_eq_ok_iff {t : Template} {scan : TextScan} : sc.scanOne t = .ok scan ↔
    ∃ code, t.code = .text code ∧ scan = scanText sc.policy code.toList t.label (some true) := by
  rw [ScanPlan.scanOne]
  cases t.code <;> simp [eq_comm]

theorem mapM_scanOne_eq_ok_iff {ts : List Template} {scans : List TextScan} :
    ts.mapM sc.scanOne = .ok scans ↔ sc.Scans ts scans := by
  simp only [ScanPlan.Scans, ← scanOne_eq_ok_iff]
  induction ts generalizing scans with
  | nil => cases scans <;> simp [pure, Except.pure]
  | cons t ts ih =>
    rw [List.mapM_cons]
    cases hone : sc.scanOne t with
    | error e => cases scans <;> simp [bind, Except.bind, hone]
    | ok scan =>
      cases hrest : ts.mapM sc.scanOne with
      | error e => cases scans <;> simp [bind, Except.bind, ← ih, hone, hrest]
      | ok rest => cases scans <;> simp [bind, Except.bind, pure, Except.pure, ← ih, hone, hrest]

theorem exists_scans {ts : List Template} (htext : ∀ t ∈ ts, t.code.isText = true) : ∃ scans, sc.Scans ts scans := by
  induction ts with
  | nil => exact ⟨[], .nil⟩
  | cons t ts ih =>
    obtain ⟨ht, hrest⟩ := List.forall_mem_cons.mp htext
    obtain ⟨scans, hscans⟩ := ih hrest
    cases hcode : t.code with
    | text code => exact ⟨_, .cons ⟨code, hcode, rfl⟩ hscans⟩
    | _ =>
      rw [hcode] at ht
      cases ht

theorem severity_mem_corpusFindings (ts : List Template) :
    ∀ f ∈ sc.corpusFindings ts, f.severity ∈ Severity.ranked := by
  intro f hf
  obtain ⟨t, _, hf⟩ := List.mem_flatMap.mp hf
  split at hf
  next => exact severity_mem_of_mem_scanText hf
  next => cases hf

theorem exists_scanCorpus {ts : List Template} (htext : ∀ t ∈ ts, t.code.isText = true) :
    ∃ r, sc.scanCorpus ts = .ok r ∧ r.Consistent (sc.corpusFindings ts) ∧ r.filesScanned = ts.length ∧
      r.failedFiles = [] := by
  obtain ⟨scans, hscans⟩ := exists_scans sc htext
  refine ⟨buildResult (scans.flatMap (·.findings)) ts.length (sumOf (scans.map (·.suppressed))) [], ?_, ?_, rfl, rfl⟩
  · rw [ScanPlan.scanCorpus, (mapM_scanOne_eq_ok_iff sc).mpr hscans]
    rfl
  · rw [hscans.flatMap_findings]
    exact consistent_buildResult (severity_mem_corpusFindings sc ts) _ _ _

end Templates

/-- A scan of a directory that is not stopped ends, with any number of workers, unless its walk breaks off. However it
ends, its result reports the findings of all files that could be read, in order and with the right numbers; the files
read and the files that could not be read are together the files it was to read, the latter are listed in ascending
order, and for each of them one critical error has been recorded. A scan of templates ends with a result of this kind as
well. -/
theorem scan_consistent (sc : ScanPlan) :
    (∀ (t : FileTree) (root : String), t.isDirectory (Path.ofString root) = true →
      (sc.fault? t (Path.ofString root) = none → ∃ r errors, sc.EndsWith t root r errors) ∧
        ∀ r errors, sc.EndsWith t root r errors → sc.AccountsFor t (Path.ofString root) r errors) ∧
      ∀ ts : List Template, (∀ t ∈ ts, t.code.isText = true) →
        ∃ r, sc.scanCorpus ts = .ok r ∧ r.Consistent (sc.corpusFindings ts) ∧ r.filesScanned = ts.length ∧
          r.failedFiles = [] := by
  constructor
  · intro t root hroot
    exact ⟨ScanPlan.exists_endsWith hroot, fun r errors h => h.accountsFor⟩
  · intro ts htext
    exact exists_scanCorpus sc htext

/-- Two workers, with one file that is no text. -/
theorem scan_consistent_unreadable :
    let sc : ScanPlan := { workers := 2 }
    let t : FileTree := { entries := [("a.cdc", .file [112, 117, 98, 32, 102, 117, 110]), ("b.cdc", .file [255])] }
    t.isDirectory (Path.ofString ".") = true ∧ sc.fault? t (Path.ofString ".") = none ∧
      (∃ r errors, sc.EndsWith t "." r errors ∧ r.failedFiles = ["b.cdc"] ∧ errors.map (·.file) = ["b.cdc"] ∧
        r.filesScanned = 1 ∧ r.findings.length = 1) ∧
      ∃ r, sc.scanCorpus [{ (default : Template) with code := .text "pub fun" }] = .ok r ∧ r.filesScanned = 1 := by
  intro sc t
  have hroot : t.isDirectory (Path.ofString ".") = true := by decide +kernel
  have hfault : sc.fault? t (Path.ofString ".") = none := by decide +kernel
  have hunreadable : sc.unreadable t (Path.ofString ".") = ["b.cdc"] := by decide +kernel
  have hfiles : (sc.collect t (Path.ofString ".")).length = 2 := by decide +kernel
  have hfindings : (sc.treeFindings t (Path.ofString ".")).length = 1 := by decide +kernel
  obtain ⟨htrees, htemplates⟩ := scan_consistent sc
  obtain ⟨hends, hall⟩ := htrees t "." hroot
  obtain ⟨r, errors, hends⟩ := hends hfault
  have haccounts := hall r errors hends
  have hfailed : r.failedFiles = ["b.cdc"] := List.perm_singleton.mp (hunreadable ▸ haccounts.failed)
  have hreported : errors.map (·.file) = ["b.cdc"] := List.perm_singleton.mp (hfailed ▸ haccounts.reported)
  have hscanned := haccounts.files
  rw [hfailed, hfiles, List.length_singleton] at hscanned
  refine ⟨hroot, hfault, ⟨r, errors, hends, hfailed, hreported, by omega, ?_⟩, ?_⟩
  · rw [haccounts.consistent.complete.length_eq, hfindings]
  · obtain ⟨r, hr, _, hscanned, _⟩ := htemplates [{ (default : Template) with code := .text "pub fun" }] (by
      simp [Value.isText])
    exact ⟨r, hr, hscanned⟩

end CadenceUplift
