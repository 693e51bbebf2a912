import CadenceUplift.Scan.Session
import CadenceUplift.Proofs.Scan.ResultOrder
import CadenceUplift.Proofs.Scan.Selection
import Mathlib.Logic.Relation

namespace CadenceUplift

/-- Scans that know the file they are of: what they find is in it, and they are all there is to say about it. -/
structure Filed (scans : List FileScan) : Prop where
  own : ∀ f ∈ scans, ∀ x ∈ f.findings, x.site.file = f.path
  one : ∀ f ∈ scans, ∀ g ∈ scans, f.path = g.path → f = g

section Results

variable {scans scans' : List FileScan}

theorem Filed.of_perm (h : Filed scans) (hperm : scans'.Perm scans) : Filed scans' where
  own f hf := h.own f (hperm.mem_iff.mp hf)
  one f hf g hg := h.one f (hperm.mem_iff.mp hf) g (hperm.mem_iff.mp hg)

/-- The findings in a file are those of its scans. -/
theorem Filed.filter_findings (h : Filed scans) (file : String) :
    (scans.flatMap (·.findings)).filter (fun x => x.site.file == file) =
      (scans.filter fun f => f.path == file).flatMap (·.findings) := by
  induction scans with
  | nil => rfl
  | cons f scans ih =>
    have hrest := ih ⟨fun g hg => h.own g (List.mem_cons_of_mem _ hg),
      fun g hg g' hg' => h.one g (List.mem_cons_of_mem _ hg) g' (List.mem_cons_of_mem _ hg')⟩
    have hown := h.own f List.mem_cons_self
    rw [List.flatMap_cons, List.filter_append, hrest]
    by_cases hf : f.path = file
    · have hall : f.findings.filter (fun x => x.site.file == file) = f.findings := by
        apply List.filter_eq_self.mpr
        intro x hx
        rw [hown x hx, hf]
        exact beq_self_eq_true file
      rw [List.filter_cons_of_pos (by simpa using hf), List.flatMap_cons, hall]
    · have hnone : f.findings.filter (fun x => x.site.file == file) = [] := by
        apply List.filter_eq_nil_iff.mpr
        intro x hx
        rw [hown x hx]
        simpa using hf
      rw [List.filter_cons_of_neg (by simpa using hf), hnone, List.nil_append]

/-- The scans of one file are copies of one scan, so their order does not matter. -/
theorem Filed.filter_perm (h : Filed scans) (hperm : scans'.Perm scans) (file : String) :
    (scans'.filter fun f => f.path == file) = scans.filter fun f => f.path == file := by
  have hany (l : List FileScan) : l.Pairwise fun _ _ => True := List.pairwise_of_forall fun _ _ => trivial
  refine (hperm.filter fun f => f.path == file).eq_of_pairwise ?_ (hany _) (hany _)
  intro f g hf hg _ _
  obtain ⟨hf, hpath⟩ := List.mem_filter.mp hf
  obtain ⟨hg, hpath'⟩ := List.mem_filter.mp hg
  have hsame : f.path = g.path := (beq_iff_eq.mp hpath).trans (beq_iff_eq.mp hpath').symm
  exact h.one f (hperm.mem_iff.mp hf) g hg hsame

/-- The order in which files are taken up does not show in the result. -/
theorem Filed.resultOf_perm (h : Filed scans) (hperm : scans'.Perm scans) : resultOf scans' = resultOf scans := by
  have hfindings : inResultOrder (scans'.flatMap (·.findings)) = inResultOrder (scans.flatMap (·.findings)) := by
    apply inResultOrder_eq_of_files
    intro file
    rw [h.filter_findings, (h.of_perm hperm).filter_findings, h.filter_perm hperm]
  have hcount : (scans'.filter (·.readable)).length = (scans.filter (·.readable)).length :=
    (hperm.filter _).length_eq
  have hsuppressed : sumOf (scans'.map (·.suppressed)) = sumOf (scans.map (·.suppressed)) := sumOf_perm (hperm.map _)
  have hfailed := mergeSort_names ((hperm.filter fun f => !f.readable).map (·.path))
  simp only [resultOf, buildResult]
  rw [hfindings, hcount, hsuppressed, hfailed]

end Results

section Files

variable (sc : ScanPlan) (t : FileTree) (root : Path)

theorem collect_ne_nil : ∀ f ∈ sc.collect t root, f ≠ [] := by
  intro f hf
  obtain ⟨e, he, rfl⟩ := List.mem_map.mp hf
  have hmet := (List.mem_filter.mp he).1
  unfold ScanPlan.met at hmet
  split at hmet
  next =>
    obtain ⟨path, hpath, hat, _⟩ := (mem_metAmong _ _ _).mp hmet
    rw [hpath, List.nil_append]
    exact hat.ne_nil
  next => cases hmet

variable {sc t root}

/-- A file is found by its path from the scanned root, so equal paths lead to the same file. -/
theorem text_entryPath {f g : List String} (hf : f ≠ []) (hg : g ≠ []) (h : "/".intercalate f = "/".intercalate g) :
    (ScanPlan.entryPath root f).text = (ScanPlan.entryPath root g).text := by
  have htext {f : List String} (hf : f ≠ []) :
      (ScanPlan.entryPath root f).text = root.root ++ "/".intercalate (root.parts ++ f) := by
    have hparts : (root.parts ++ f).isEmpty = false := by simp [hf]
    simp [Path.text, ScanPlan.entryPath, hparts]
  rw [htext hf, htext hg]
  by_cases hroot : root.parts = []
  · rw [hroot, List.nil_append, List.nil_append, h]
  · rw [String.intercalate_append_of_ne_nil hroot hf, String.intercalate_append_of_ne_nil hroot hg, h]

theorem scanAt_eq_of_path {f g : List String} (hf : f ≠ []) (hg : g ≠ [])
    (h : (sc.scanAt t root f).path = (sc.scanAt t root g).path) : sc.scanAt t root f = sc.scanAt t root g := by
  have hpath : "/".intercalate f = "/".intercalate g := h
  simp only [ScanPlan.scanAt]
  rw [hpath, text_entryPath hf hg hpath]

/-- Every finding of a text is in the file that the text is scanned as. -/
theorem file_of_mem_scanText {policy : Policy} {s : List Char} {path : String} {isCadence : Option Bool} {x : Finding}
    (h : x ∈ (scanText policy s path isCadence).findings) : x.site.file = path := by
  obtain ⟨d, _, m, _, rfl, _⟩ := exists_of_mem_scanText h
  rw [Subject.sighting, d.site_finding]
  rfl

theorem filed_collect : Filed ((sc.collect t root).map (sc.scanAt t root)) where
  own := by
    intro f hf x hx
    obtain ⟨relative, _, rfl⟩ := List.mem_map.mp hf
    simp only [FileScan.findings, ScanPlan.scanAt] at hx ⊢
    cases hread : t.readText (ScanPlan.entryPath root relative).text with
    | error e => simp [hread, Except.map, Except.toOption] at hx
    | ok s =>
      simp only [hread, Except.map, Except.toOption, Option.map_some, Option.getD_some] at hx
      exact file_of_mem_scanText hx
  one := by
    intro f hf g hg hpath
    obtain ⟨relative, hrelative, rfl⟩ := List.mem_map.mp hf
    obtain ⟨relative', hrelative', rfl⟩ := List.mem_map.mp hg
    exact scanAt_eq_of_path (collect_ne_nil sc t root _ hrelative) (collect_ne_nil sc t root _ hrelative') hpath

end Files

/-- Files that have been handed out and are not finished, and the scans of the others as they were finished. -/
structure Pool where
  pending : List (List String)
  finished : List FileScan

namespace Pool

/-- Some worker finishes one of the files. -/
inductive Step (scan : List String → FileScan) : Pool → Pool → Prop
  | finish (before after : List (List String)) (file : List String) (finished : List FileScan) :
      Step scan ⟨before ++ file :: after, finished⟩ ⟨before ++ after, finished ++ [scan file]⟩

variable {scan : List String → FileScan} {p q : Pool}

/-- The scans that a pool ends with, were it to finish its files in order. -/
def scans (scan : List String → FileScan) (p : Pool) : List FileScan := p.finished ++ p.pending.map scan

theorem Step.perm (h : Step scan p q) : (q.scans scan).Perm (p.scans scan) := by
  cases h with
  | finish before after file finished =>
    simp only [scans, List.map_append, List.map_cons, List.append_assoc, List.singleton_append]
    exact (List.perm_middle.symm).append_left finished

/-- Whatever the workers do, no scan is lost and none is made twice. -/
theorem perm_of_run (h : Relation.ReflTransGen (Step scan) p q) : (q.scans scan).Perm (p.scans scan) := by
  induction h with
  | refl => exact List.Perm.refl _
  | tail _ hstep ih => exact hstep.perm.trans ih

/-- The workers may finish the files in the order in which they were handed out. -/
theorem run_in_order (files : List (List String)) (finished : List FileScan) :
    Relation.ReflTransGen (Step scan) ⟨files, finished⟩ ⟨[], finished ++ files.map scan⟩ := by
  induction files generalizing finished with
  | nil =>
    rw [List.map_nil, List.append_nil]
  | cons file files ih =>
    have hrest := ih (finished ++ [scan file])
    rw [List.append_assoc, List.singleton_append] at hrest
    exact .head (.finish [] files file finished) hrest

end Pool

/-- What a scan of a tree may return: an error, or the result of its files. A single worker takes them in order,
several finish them as it happens. -/
inductive ScanPlan.Returns (sc : ScanPlan) (t : FileTree) (root : String) : Except ScanError ScanResult → Prop
  | refused {e : ScanError} : sc.scan t root = .error e → Returns sc t root (.error e)
  | alone {s : TreeScan} : sc.scan t root = .ok s → sc.workers = 1 → Returns sc t root (.ok s.result)
  | shared {s : TreeScan} {finished : List FileScan} : sc.scan t root = .ok s → sc.workers ≠ 1 →
      Relation.ReflTransGen (Pool.Step (sc.scanAt t (Path.ofString root)))
        ⟨sc.collect t (Path.ofString root), []⟩ ⟨[], finished⟩ →
      Returns sc t root (.ok (resultOf (sc.arrange finished)))

theorem arrange_perm (sc : ScanPlan) (finished : List FileScan) : (sc.arrange finished).Perm finished := by
  unfold ScanPlan.arrange
  split
  · exact List.Perm.refl _
  · exact List.mergeSort_perm _ _

/-- A scan of a directory ends unless its walk breaks off. -/
theorem exists_scan {sc : ScanPlan} {t : FileTree} {root : String} (hroot : t.isDirectory (Path.ofString root) = true)
    (hfault : sc.fault? t (Path.ofString root) = none) : ∃ s, sc.scan t root = .ok s := by
  obtain ⟨real, entries, hfound⟩ := FileTree.isDirectory_iff.mp hroot
  have hnone : t.rootFault? root = none := by rw [FileTree.rootFault?, hfound]
  rw [ScanPlan.scan_eq, hnone, ScanPlan.walk, hfault]
  exact ⟨_, rfl⟩

/-- A scan is refused by its root or by the walk from there, and otherwise gives what comes of its files in the order
of the walk. -/
theorem scan_eq_of_walk (sc : ScanPlan) (t : FileTree) (root : String) :
    sc.scan t root =
      match t.rootFault? root with
      | some e => .error e
      | none =>
        match sc.fault? t (Path.ofString root) with
        | some e => .error (.file e)
        | none => .ok (sc.scanFiles t (Path.ofString root) (sc.collect t (Path.ofString root))) := by
  rw [ScanPlan.scan_eq, ScanPlan.walk]
  cases t.rootFault? root with
  | some e => rfl
  | none => cases sc.fault? t (Path.ofString root) <;> rfl

theorem eq_scanFiles_of_scan {sc : ScanPlan} {t : FileTree} {root : String} {s : TreeScan}
    (h : sc.scan t root = .ok s) : s = sc.scanFiles t (Path.ofString root) (sc.collect t (Path.ofString root)) := by
  rw [scan_eq_of_walk] at h
  split at h
  next => cases h
  next =>
    split at h
    next => cases h
    next => exact (Except.ok.inj h).symm

theorem result_of_scan {sc : ScanPlan} {t : FileTree} {root : String} {s : TreeScan} (h : sc.scan t root = .ok s) :
    s.result = resultOf ((sc.collect t (Path.ofString root)).map (sc.scanAt t (Path.ofString root))) := by
  rw [eq_scanFiles_of_scan h]
  exact filed_collect.resultOf_perm (arrange_perm sc _)

theorem map_result_scan (sc : ScanPlan) (t : FileTree) (root : String) :
    (sc.scan t root).map TreeScan.result =
      match t.rootFault? root with
      | some e => .error e
      | none =>
        match sc.fault? t (Path.ofString root) with
        | some e => .error (.file e)
        | none => .ok (resultOf ((sc.collect t (Path.ofString root)).map (sc.scanAt t (Path.ofString root)))) := by
  rw [scan_eq_of_walk]
  cases t.rootFault? root with
  | some e => rfl
  | none =>
    cases sc.fault? t (Path.ofString root) with
    | some e => rfl
    | none => exact congrArg Except.ok (filed_collect.resultOf_perm (arrange_perm sc _))

theorem scan_workers (sc : ScanPlan) (t : FileTree) (root : String) (w : Nat) :
    (({ sc with workers := w }).scan t root).map TreeScan.result = (sc.scan t root).map TreeScan.result := by
  rw [map_result_scan, map_result_scan]
  rfl

/-- A pool that has finished the files of a tree has the result of the walk. -/
theorem resultOf_arrange_run {sc : ScanPlan} {t : FileTree} {root : Path} {finished : List FileScan}
    (h : Relation.ReflTransGen (Pool.Step (sc.scanAt t root)) ⟨sc.collect t root, []⟩ ⟨[], finished⟩) :
    resultOf (sc.arrange finished) = resultOf ((sc.collect t root).map (sc.scanAt t root)) := by
  have hperm := Pool.perm_of_run h
  simp only [Pool.scans, List.map_nil, List.append_nil, List.nil_append] at hperm
  exact filed_collect.resultOf_perm ((arrange_perm sc finished).trans hperm)

/-- However many workers there are and in whatever order they finish, a scan returns what it returns with one worker. -/
theorem returns_iff_alone (sc : ScanPlan) (t : FileTree) (root : String) (workers : Nat)
    (result : Except ScanError ScanResult) :
    ({ sc with workers := workers }).Returns t root result ↔
      result = (({ sc with workers := 1 }).scan t root).map TreeScan.result := by
  rw [scan_workers sc t root 1, ← scan_workers sc t root workers]
  generalize { sc with workers := workers } = sc
  constructor
  · intro h
    cases h with
    | refused h =>
      rw [h]
      rfl
    | alone h _ =>
      rw [h]
      rfl
    | shared h _ hrun =>
      rw [h, resultOf_arrange_run hrun, ← result_of_scan h]
      rfl
  · rintro rfl
    cases h : sc.scan t root with
    | error e => exact .refused h
    | ok s =>
      by_cases hworkers : sc.workers = 1
      · exact .alone h hworkers
      · have hrun : Relation.ReflTransGen (Pool.Step (sc.scanAt t (Path.ofString root)))
            ⟨sc.collect t (Path.ofString root), []⟩
            ⟨[], [] ++ (sc.collect t (Path.ofString root)).map (sc.scanAt t (Path.ofString root))⟩ :=
          Pool.run_in_order _ []
        have hreturns := ScanPlan.Returns.shared h hworkers hrun
        rw [resultOf_arrange_run hrun, ← result_of_scan h] at hreturns
        exact hreturns

end CadenceUplift
