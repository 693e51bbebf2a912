import CadenceUplift.Interactive.Check
import CadenceUplift.Proofs.Matching.Link
import CadenceUplift.Proofs.Uplift.Defaults
import Mathlib.Algebra.GroupWithZero.Nat

namespace CadenceUplift

open Text Pattern

/-- Distinct constructs are rewritten one after another as if each were rewritten alone. -/
theorem loadOfSteps_targets {us : List Target} (h : us.Nodup) (skipLiterals : Bool) (s : List Char) :
    loadOfSteps skipLiterals (us.map .target) s = (us.map fun u => (Step.target u).load skipLiterals s).sum := by
  induction us generalizing s with
  | nil => rfl
  | cons t us ih =>
    obtain ⟨hnot, hus⟩ := List.nodup_cons.mp h
    have hrest : (us.map fun u => (Step.target u).load skipLiterals ((Step.target t).after skipLiterals s)) =
        us.map fun u => (Step.target u).load skipLiterals s := by
      apply List.map_congr_left
      intro u hu
      have hne : u ≠ t := fun hut => hnot (hut ▸ hu)
      exact Target.load_after_other hne skipLiterals s
    rw [List.map_cons, loadOfSteps, ih hus, hrest, List.map_cons, List.sum_cons]

/-- The matches of a detector outside literals that can be changed mechanically. -/
def Legacy.Detector.fixes (d : Legacy.Detector) (s : List Char) : Nat :=
  (matchesOutside d.pattern s.toArray (literalIndex s)).countP fun M =>
    isFixable d.construct (String.ofList (M.text s.toArray))

/-- The replacements that the findings of a construct stand for. -/
def fixesOf (s : List Char) (k : Construct) : Nat :=
  (Legacy.detectors.map fun d => if d.construct = k then d.fixes s else 0).sum

section Detectors

variable {d : Legacy.Detector} {s : List Char}

theorem pathSetting_input : pathSetting inputName = none := by decide +kernel

theorem sighting_setting (M : Match) :
    ((Subject.ofText s inputName (some true)).sighting d M).setting.isNone = !(literalIndex s).covers M.start := by
  have hsetting : (Subject.ofText s inputName (some true)).setting M = _ := Subject.setting_ofText rfl M
  rw [Subject.sighting, hsetting, pathSetting_input]
  cases (literalIndex s).covers M.start <;> rfl

theorem sighting_construct (x : Subject) (M : Match) : (x.sighting d M).finding.construct = d.construct :=
  d.construct_finding _ _ _

theorem sighting_fixable (M : Match) :
    ((Subject.ofText s inputName (some true)).sighting d M).finding.fixable =
      isFixable d.construct (String.ofList (M.text s.toArray)) := by
  rw [Finding.fixable, sighting_construct, Subject.sighting, d.matched_finding]
  rfl

/-- Findings are counted detector by detector. -/
theorem countP_legacyFindings (k : Construct) (s : List Char) :
    (legacyFindings s).countP (fun f => decide (f.construct = k) && f.fixable) =
      fixesOf s k := by
  have hperm : (legacyFindings s).Perm (scanText .discard s inputName (some true)).findings :=
    List.mergeSort_perm _ _
  rw [hperm.countP_eq]
  change ((Subject.sightings _).filter _ |>.map _).countP _ = _
  rw [List.countP_map, List.countP_filter, Subject.sightings, List.countP_flatMap, fixesOf]
  congr 1
  apply List.map_congr_left
  intro d _
  change ((d.pattern.allMatches s.toArray).map _).countP _ = _
  rw [List.countP_map]
  by_cases hk : d.construct = k
  · rw [if_pos hk, Legacy.Detector.fixes, matchesOutside, List.countP_filter]
    apply List.countP_congr
    intro M _
    simp only [Function.comp_apply, sighting_construct, sighting_fixable, sighting_setting, hk, decide_true,
      Bool.true_and]
  · rw [if_neg hk, List.countP_eq_zero]
    intro M _
    simp [Function.comp_apply, sighting_construct, hk]

theorem fixes_of_noLink (hd : d.construct.fixPass?.isSome) (h : NoLink d.pattern) :
    d.fixes s = (matchesOutside d.pattern s.toArray (literalIndex s)).length := by
  rw [Legacy.Detector.fixes, List.countP_eq_length]
  intro M hM
  have hnone := h s M (List.mem_of_mem_filter hM)
  simp [isFixable, hd, hnone]

theorem fixes_link (h : d.pattern = Legacy.link) : d.fixes s = 0 := by
  rw [Legacy.Detector.fixes, List.countP_eq_zero, h]
  intro M hM
  have hsome := link_again (List.mem_of_mem_filter hM)
  simp [isFixable, Option.isNone_eq_false_iff.mpr hsome]

end Detectors

/-- The places of some constructs outside literals. -/
def loadsOf (s : List Char) (us : List Target) : Nat := (us.map fun u => (Step.target u).load true s).sum

section Passes

variable (s : List Char)

theorem fixes_target {d : Legacy.Detector} {u : Target} (hd : d.construct.fixPass?.isSome)
    (hp : d.pattern = u.pattern) (hn : NoLink d.pattern) : d.fixes s = (Step.target u).load true s := by
  rw [fixes_of_noLink hd hn, hp]
  rfl

/-- The two patterns of conformance lists match in the same places. -/
theorem fixes_conformance {d : Legacy.Detector} (hd : d.construct.fixPass?.isSome)
    (hp : d.pattern = Legacy.conformanceList) : d.fixes s = (Step.target .conformance).load true s := by
  have hbody := body_reads.length_matchesOutside body_finds s true
  have hload : (Step.target .conformance).load true s = _ := Target.load_eq_hits .conformance s
  rw [fixes_of_noLink hd (hp ▸ body_noLink), hp, hload]
  exact hbody

theorem member_noLink (m : AccountMember) : NoLink (Target.member m).pattern := by
  refine (Target.rewrites (ε := Unit) (.member m)).toReads.noLink ?_
  intro ps c hat
  obtain ⟨w, hw, hps, _⟩ := hat
  have hname : w = m.name := List.mem_singleton.mp hw
  refine ⟨textOf (memberPieces m.name), [], by simp [hps, hname], ?_⟩
  cases m <;> decide

theorem load_pass [CharacterNames] {us : List Target} (c : Category) (h : us.Nodup)
    (hsteps : stepsOf (.text c.name) = us.map .target) {o : RunOptions} (ho : o.preserves = true) :
    ∃ once, (RuleSet.mk o Rule.defaults).upliftPass (.text c.name) s = .ok once ∧
      once.count = loadsOf s us := by
  refine ⟨_, upliftPass_eq o _ s, ?_⟩
  change loadOfSteps _ _ _ = _
  rw [hsteps, ho, loadOfSteps_targets h, loadsOf]

theorem load_function_pass [CharacterNames] {o : RunOptions} (ho : o.preserves = true) :
    ∃ once, (RuleSet.mk o Rule.defaults).upliftPass (.text Category.function.name) s = .ok once ∧
      once.count = Step.getter.load true s := by
  have hsteps : stepsOf (.text Category.function.name) = [.getter] := by decide +kernel
  refine ⟨_, upliftPass_eq o _ s, ?_⟩
  change loadOfSteps _ _ _ = _
  rw [hsteps, ho]
  rfl

theorem fixesOf_keyword : fixesOf s .pubKeyword = loadsOf s [.keyword true, .keyword false] := by
  simp only [fixesOf, loadsOf, Legacy.detectors, Legacy.storageDetector, List.map_cons, List.map_nil, reduceCtorEq,
    if_true, if_false, List.sum_cons, List.sum_nil]
  rw [fixes_target s (u := .keyword false) rfl rfl (keyword_noLink false),
    fixes_target s (u := .keyword true) rfl rfl (keyword_noLink true)]
  omega

theorem fixesOf_storage :
    fixesOf s .storageApi =
      loadsOf s [.member .save, .member .load, .member .borrow, .member .copy, .member .getCapability] := by
  simp only [fixesOf, loadsOf, Legacy.detectors, Legacy.storageDetector, List.map_cons, List.map_nil, reduceCtorEq,
    if_true, if_false, List.sum_cons, List.sum_nil]
  rw [fixes_target s (u := .member .save) rfl rfl (member_noLink .save), fixes_link rfl,
    fixes_target s (u := .member .borrow) rfl rfl (member_noLink .borrow),
    fixes_target s (u := .member .getCapability) rfl rfl (member_noLink .getCapability),
    fixes_target s (u := .member .load) rfl rfl (member_noLink .load),
    fixes_target s (u := .member .copy) rfl rfl (member_noLink .copy)]
  omega

theorem fixesOf_conformance : fixesOf s .interfaceConformance = loadsOf s [.conformance] := by
  simp only [fixesOf, loadsOf, Legacy.detectors, Legacy.storageDetector, List.map_cons, List.map_nil, reduceCtorEq,
    if_true, if_false, List.sum_cons, List.sum_nil]
  rw [fixes_conformance s rfl rfl]
  omega

theorem fixesOf_getter : fixesOf s .functionSignature = Step.getter.load true s := by
  simp only [fixesOf, Legacy.detectors, Legacy.storageDetector, List.map_cons, List.map_nil, reduceCtorEq,
    if_true, if_false, List.sum_cons, List.sum_nil]
  rw [fixes_of_noLink rfl getter_noLink]
  change 0 + (0 + (0 + (0 + (0 + (0 + (0 + (0 + (0 + (Step.getter.load true s + (0 + 0)))))))))) = _
  omega

end Passes

/-- With the starting rules and literals left alone, the pass for a construct replaces as often as there are
findings of the construct that can be changed mechanically. -/
theorem upliftPass_count_eq_findings [CharacterNames] (o : RunOptions) (ho : o.preserves = true)
    (k : Construct) (c : Category)
    (hk : k.fixPass? = some c) (s : List Char) :
    ∃ once, (RuleSet.mk o Rule.defaults).upliftPass (.text c.name) s = .ok once ∧
      once.count = (legacyFindings s).countP fun f => decide (f.construct = k) && f.fixable := by
  rw [countP_legacyFindings]
  cases k with
  | pubKeyword =>
    obtain rfl : Category.accessModifier = c := Option.some.inj hk
    rw [fixesOf_keyword]
    exact load_pass s .accessModifier (by decide) (by decide +kernel) ho
  | interfaceConformance =>
    obtain rfl : Category.interface = c := Option.some.inj hk
    rw [fixesOf_conformance]
    exact load_pass s .interface (by decide) (by decide +kernel) ho
  | storageApi =>
    obtain rfl : Category.storage = c := Option.some.inj hk
    rw [fixesOf_storage]
    exact load_pass s .storage (by decide) (by decide +kernel) ho
  | functionSignature =>
    obtain rfl : Category.function = c := Option.some.inj hk
    rw [fixesOf_getter]
    exact load_function_pass s ho
  | importStatement => cases hk
  | other name => cases hk

theorem upliftPass_count_eq_findings_storage :
    ({} : RunOptions).preserves = true ∧ Construct.storageApi.fixPass? = some .storage ∧
      ∃ once, (RuleSet.mk {} Rule.defaults).upliftPass (.text Category.storage.name)
          "account.save(a)\naccount.link<T>(b)".toList = .ok once ∧
        once.count = (legacyFindings "account.save(a)\naccount.link<T>(b)".toList).countP fun f =>
          decide (f.construct = .storageApi) && f.fixable :=
  ⟨rfl, rfl, upliftPass_count_eq_findings {} rfl .storageApi .storage rfl _⟩

end CadenceUplift
