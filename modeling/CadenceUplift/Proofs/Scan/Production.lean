import CadenceUplift.Proofs.Scan.Workers

namespace CadenceUplift

/-- The sighting is in a file that scans of production code read. -/
def Sighting.inProduction (y : Sighting) : Bool := !hasFragment y.finding.site.file productionExcludes

/-- The sightings in a file under a root; none when it could not be read. -/
def FileTree.sightingsAt (t : FileTree) (root : Path) (relative : List String) : List Sighting :=
  match t.readText (ScanPlan.entryPath root relative).text with
  | .ok s => (Subject.ofText s ("/".intercalate relative) none).sightings
  | .error _ => []

/-- Sightings in the order of the results that show their findings. -/
def sortSightings (ys : List Sighting) : List Sighting := ys.mergeSort fun a b => (a.finding.order b.finding).isLE

/-- The sightings in all files that a plan wants, in the order of results. -/
def ScanPlan.sightings (sc : ScanPlan) (t : FileTree) (root : String) : List Sighting :=
  sortSightings ((sc.collect t (Path.ofString root)).flatMap (t.sightingsAt (Path.ofString root)))

theorem map_finding_sortSightings (ys : List Sighting) :
    (sortSightings ys).map (·.finding) = inResultOrder (ys.map (·.finding)) :=
  List.map_mergeSort fun _ _ _ _ => rfl

theorem filter_sortSightings (p : Sighting → Bool) (ys : List Sighting) :
    (sortSightings ys).filter p = sortSightings (ys.filter p) :=
  filter_mergeSort (fun _ _ _ => Std.TransCmp.isLE_trans) (fun a b => Finding.order_total a.finding b.finding) p ys

section Files

variable (sc : ScanPlan) (policy : Policy) (more : List String) (t : FileTree) (root : Path)

theorem picks_more (relative : List String) (n : Node) :
    ({ sc with policy := policy, excludePaths := sc.excludePaths ++ more }).picks t root relative n =
      (sc.picks t root relative n && !hasFragment ("/".intercalate relative) more) := by
  cases n with
  | file content =>
    simp only [ScanPlan.picks, ScanPlan.wants, hasFragment, List.any_append, Bool.not_or, Bool.and_assoc]
  | link target =>
    simp only [ScanPlan.picks, ScanPlan.wants, hasFragment, List.any_append, Bool.not_or, Bool.and_assoc]
  | dir entries => rfl

/-- A plan that leaves out more paths reads the files of the others, in the same order. -/
theorem collect_more :
    ({ sc with policy := policy, excludePaths := sc.excludePaths ++ more }).collect t root =
      (sc.collect t root).filter fun f => !hasFragment ("/".intercalate f) more := by
  have hmet : ({ sc with policy := policy, excludePaths := sc.excludePaths ++ more }).met t root = sc.met t root := rfl
  simp only [ScanPlan.collect, hmet, picks_more, List.filter_map, List.filter_filter]
  refine congrArg₂ List.map rfl (List.filter_congr ?_)
  intro e _
  exact Bool.and_comm _ _

end Files

section Sightings

variable {t : FileTree} {root : Path} {relative : List String} {y : Sighting}

/-- A sighting is that of some detector at a match in the text of its file. -/
theorem exists_of_mem_sightingsAt (h : y ∈ t.sightingsAt root relative) :
    ∃ s, ∃ d : Legacy.Detector, ∃ m, y = (Subject.ofText s ("/".intercalate relative) none).sighting d m := by
  unfold FileTree.sightingsAt at h
  split at h
  next s _ =>
    obtain ⟨d, _, hmatch⟩ := List.mem_flatMap.mp h
    obtain ⟨m, _, rfl⟩ := List.mem_map.mp hmatch
    exact ⟨s, d, m, rfl⟩
  next => cases h

theorem file_of_mem_sightingsAt (h : y ∈ t.sightingsAt root relative) : y.finding.site.file = "/".intercalate relative := by
  obtain ⟨s, d, m, rfl⟩ := exists_of_mem_sightingsAt h
  simp only [Subject.sighting]
  cases (Subject.ofText s ("/".intercalate relative) none).setting m <;> rfl

/-- What is seen outside production code is a suggestion of low impact. -/
theorem downgraded_of_mem_sightingsAt (h : y ∈ t.sightingsAt root relative) (hsetting : y.setting.isSome = true) :
    y.finding.severity = .suggestion ∧ y.finding.impact = .low := by
  obtain ⟨s, d, m, rfl⟩ := exists_of_mem_sightingsAt h
  simp only [Subject.sighting] at hsetting ⊢
  cases hplace : (Subject.ofText s ("/".intercalate relative) none).setting m with
  | none =>
    rw [hplace] at hsetting
    cases hsetting
  | some place => exact ⟨rfl, rfl⟩

/-- Leaving out files leaves out their sightings. -/
theorem flatMap_sightingsAt_filter (files : List (List String)) :
    (files.filter fun f => !hasFragment ("/".intercalate f) productionExcludes).flatMap (t.sightingsAt root) =
      (files.flatMap (t.sightingsAt root)).filter Sighting.inProduction := by
  induction files with
  | nil => rfl
  | cons f files ih =>
    have hfile : ∀ y ∈ t.sightingsAt root f, y.inProduction = !hasFragment ("/".intercalate f) productionExcludes := by
      intro y hy
      rw [Sighting.inProduction, file_of_mem_sightingsAt hy]
    rw [List.flatMap_cons, List.filter_append, ← ih, List.filter_congr hfile]
    cases h : hasFragment ("/".intercalate f) productionExcludes <;> simp [h]

end Sightings

section Results

variable (sc : ScanPlan) (t : FileTree) (root : Path)

theorem select_append (policy : Policy) (xs ys : List Sighting) :
    (policy.select (xs ++ ys)).findings = (policy.select xs).findings ++ (policy.select ys).findings ∧
      (policy.select (xs ++ ys)).suppressed = (policy.select xs).suppressed + (policy.select ys).suppressed := by
  cases policy <;> simp [Policy.select]

theorem scanAt_select (relative : List String) :
    (sc.scanAt t root relative).findings = (sc.policy.select (t.sightingsAt root relative)).findings ∧
      (sc.scanAt t root relative).suppressed = (sc.policy.select (t.sightingsAt root relative)).suppressed := by
  simp only [FileScan.findings, FileScan.suppressed, ScanPlan.scanAt, FileTree.sightingsAt]
  cases t.readText (ScanPlan.entryPath root relative).text with
  | error e => cases sc.policy <;> exact ⟨rfl, rfl⟩
  | ok s => exact ⟨rfl, rfl⟩

/-- The policy may be applied to the sightings of all files at once. -/
theorem resultOf_select (files : List (List String)) :
    (resultOf (files.map (sc.scanAt t root))).findings =
        inResultOrder (sc.policy.select (files.flatMap (t.sightingsAt root))).findings ∧
      (resultOf (files.map (sc.scanAt t root))).suppressed =
        (sc.policy.select (files.flatMap (t.sightingsAt root))).suppressed := by
  have hall : (files.map (sc.scanAt t root)).flatMap (·.findings) =
        (sc.policy.select (files.flatMap (t.sightingsAt root))).findings ∧
      sumOf ((files.map (sc.scanAt t root)).map (·.suppressed)) =
        (sc.policy.select (files.flatMap (t.sightingsAt root))).suppressed := by
    induction files with
    | nil => cases sc.policy <;> exact ⟨rfl, rfl⟩
    | cons f files ih =>
      have hown := scanAt_select sc t root f
      have hsplit := select_append sc.policy (t.sightingsAt root f) (files.flatMap (t.sightingsAt root))
      rw [List.flatMap_cons, hsplit.1, hsplit.2, ← hown.1, ← hown.2, ← ih.1, ← ih.2]
      exact ⟨rfl, rfl⟩
  exact ⟨congrArg inResultOrder hall.1, congrArg Nat.cast hall.2⟩

theorem resultOf_downgrade (hpolicy : sc.policy = .downgrade) (files : List (List String)) :
    (resultOf (files.map (sc.scanAt t root))).findings =
        (sortSightings (files.flatMap (t.sightingsAt root))).map (·.finding) ∧
      (resultOf (files.map (sc.scanAt t root))).suppressed = 0 := by
  have hselect := resultOf_select sc t root files
  rw [hpolicy] at hselect
  refine ⟨hselect.1.trans ?_, hselect.2⟩
  rw [map_finding_sortSightings]
  rfl

theorem resultOf_discard (hpolicy : sc.policy = .discard) (files : List (List String)) :
    (resultOf (files.map (sc.scanAt t root))).findings =
        ((sortSightings (files.flatMap (t.sightingsAt root))).filter (·.setting.isNone)).map (·.finding) ∧
      (resultOf (files.map (sc.scanAt t root))).suppressed =
        ((sortSightings (files.flatMap (t.sightingsAt root))).filter (·.setting.isSome)).length := by
  have hselect := resultOf_select sc t root files
  have hperm := List.mergeSort_perm (files.flatMap (t.sightingsAt root)) fun a b => (a.finding.order b.finding).isLE
  rw [hpolicy] at hselect
  refine ⟨hselect.1.trans ?_, hselect.2.trans (congrArg Nat.cast (hperm.filter _).length_eq.symm)⟩
  rw [filter_sortSightings, map_finding_sortSightings]
  rfl

end Results

/-- What a scan of production code, with result `p`, has of the `seen` sightings that the general scan with result `g`
shows. -/
structure ProductionOf (seen : List Sighting) (g p : ScanResult) : Prop where
  shown : g.findings = seen.map (·.finding)
  undropped : g.suppressed = 0
  kept : p.findings = (seen.filter fun y => y.setting.isNone && y.inProduction).map (·.finding)
  dropped : p.suppressed = (seen.filter fun y => y.setting.isSome && y.inProduction).length
  downgraded : ∀ y ∈ seen, y.setting.isSome = true → y.finding.severity = .suggestion ∧ y.finding.impact = .low

section Returns

variable {sc : ScanPlan} {t : FileTree} {root : String}

theorem exists_returns {s : TreeScan} (h : sc.scan t root = .ok s) : ∃ r, sc.Returns t root (.ok r) := by
  by_cases hworkers : sc.workers = 1
  · exact ⟨_, .alone h hworkers⟩
  · exact ⟨_, .shared h hworkers (Pool.run_in_order _ [])⟩

/-- Whatever the workers do, a scan returns the result of its files in the order of the walk. -/
theorem result_of_returns {r : ScanResult} (h : sc.Returns t root (.ok r)) :
    r = resultOf ((sc.collect t (Path.ofString root)).map (sc.scanAt t (Path.ofString root))) := by
  cases h with
  | alone h _ => exact result_of_scan h
  | shared _ _ hrun => exact resultOf_arrange_run hrun

/-- Whether a scan is refused is up to the directories that its walk enters, not to the files it reads there. -/
theorem scan_ok_or_refused (sc sc' : ScanPlan) (hdirs : sc.excludeDirs = sc'.excludeDirs) (t : FileTree)
    (root : String) :
    (∃ e, sc.scan t root = .error e ∧ sc'.scan t root = .error e) ∨
      (∃ s, sc.scan t root = .ok s) ∧ ∃ s, sc'.scan t root = .ok s := by
  have hfault : sc'.fault? t (Path.ofString root) = sc.fault? t (Path.ofString root) := by
    rw [ScanPlan.fault?, ScanPlan.fault?, ScanPlan.met, ScanPlan.met, hdirs]
  rw [scan_eq_of_walk, scan_eq_of_walk, hfault]
  cases t.rootFault? root with
  | some e => exact .inl ⟨e, rfl, rfl⟩
  | none =>
    cases sc.fault? t (Path.ofString root) with
    | some e => exact .inl ⟨_, rfl, rfl⟩
    | none => exact .inr ⟨⟨_, rfl⟩, _, rfl⟩

end Returns

theorem productionOf_resultOf {sc sc' : ScanPlan} (hpolicy : sc.policy = .downgrade) (t : FileTree) (root : String)
    (hsc' : sc' = { sc with policy := .discard, excludePaths := sc.excludePaths ++ productionExcludes }) :
    ProductionOf (sc.sightings t root)
      (resultOf ((sc.collect t (Path.ofString root)).map (sc.scanAt t (Path.ofString root))))
      (resultOf ((sc'.collect t (Path.ofString root)).map (sc'.scanAt t (Path.ofString root)))) := by
  have hseen : sortSightings ((sc'.collect t (Path.ofString root)).flatMap (t.sightingsAt (Path.ofString root))) =
      (sc.sightings t root).filter Sighting.inProduction := by
    rw [hsc', collect_more, flatMap_sightingsAt_filter, ← filter_sortSightings]
    rfl
  have hpolicy' : sc'.policy = .discard := by rw [hsc']
  obtain ⟨hshown, hundropped⟩ := resultOf_downgrade sc t (Path.ofString root) hpolicy (sc.collect t (Path.ofString root))
  obtain ⟨hkept, hdropped⟩ := resultOf_discard sc' t (Path.ofString root) hpolicy' (sc'.collect t (Path.ofString root))
  rw [hseen, List.filter_filter] at hkept hdropped
  refine ⟨hshown, hundropped, hkept, hdropped, ?_⟩
  intro y hy hsetting
  have hmem := (List.mergeSort_perm _ _).mem_iff.mp hy
  obtain ⟨relative, _, hfile⟩ := List.mem_flatMap.mp hmem
  exact downgraded_of_mem_sightingsAt hfile hsetting

/-- A general scan and a scan of production code with the same options are refused alike. Otherwise both return,
whatever their workers do, and the second reports the findings of the first, in the same order, that are in files it
reads and in production code. -/
theorem production_scan_restricts (extensions excludeDirs excludePaths : List String) (workers : Nat) (t : FileTree)
    (root : String) :
    let general := ScanPlan.general extensions excludeDirs excludePaths workers
    let production := ScanPlan.production extensions excludeDirs excludePaths workers
    (∃ e, general.scan t root = .error e ∧ production.scan t root = .error e) ∨
      (∃ g, general.Returns t root (.ok g)) ∧ (∃ p, production.Returns t root (.ok p)) ∧
        ∀ g p, general.Returns t root (.ok g) → production.Returns t root (.ok p) →
          ProductionOf (general.sightings t root) g p := by
  intro general production
  rcases scan_ok_or_refused general production rfl t root with hrefused | ⟨⟨s, hs⟩, s', hs'⟩
  · exact .inl hrefused
  · refine .inr ⟨exists_returns hs, exists_returns hs', ?_⟩
    intro g p hg hp
    rw [result_of_returns hg, result_of_returns hp]
    exact productionOf_resultOf rfl t root rfl

/-- Code with a comment behind it, and a document. -/
def mixedTree : FileTree :=
  { entries := [("a.cdc", .file ("pub let a = 1 // pub let".toUTF8.toList)),
      ("docs", .dir [("b.md", .file ("pub let b = 2".toUTF8.toList))])] }

theorem production_scan_restricts_mixed :
    ∃ g p, (ScanPlan.general [".cdc", ".md"] [] [] 2).Returns mixedTree "." (.ok g) ∧
      (ScanPlan.production [".cdc", ".md"] [] [] 2).Returns mixedTree "." (.ok p) ∧
      ProductionOf ((ScanPlan.general [".cdc", ".md"] [] [] 2).sightings mixedTree ".") g p := by
  have hroot : mixedTree.isDirectory (Path.ofString ".") = true := by decide +kernel
  have hfault : (ScanPlan.general [".cdc", ".md"] [] [] 2).fault? mixedTree (Path.ofString ".") = none := by
    decide +kernel
  obtain ⟨s, hs⟩ := exists_scan hroot hfault
  rcases production_scan_restricts [".cdc", ".md"] [] [] 2 mixedTree "." with ⟨e, he, _⟩ | ⟨⟨g, hg⟩, ⟨p, hp⟩, hall⟩
  · rw [hs] at he
    cases he
  · exact ⟨g, p, hg, hp, hall g p hg hp⟩

end CadenceUplift
