import CadenceUplift.Interactive.Modernize
import CadenceUplift.Proofs.Detection.Agreement
import CadenceUplift.Proofs.Uplift.Idempotence
import Mathlib.Data.List.Flatten

namespace CadenceUplift

/-- A text after the passes that a modernization chooses, and a line on each that replaced something. -/
def rewriteFor [CharacterNames] (r : RuleSet) (o : ModernizeOptions) (s : List Char) : Except UpliftError
    (List Char × List String) :=
  runFixes { r with options := { r.options with preserveComments := .bool o.preserveComments } }
    (passesFor o (legacyFindings s)) s

section Rewriting

variable [CharacterNames] {r : RuleSet} {o : ModernizeOptions} {s done : List Char} {applied : List String}

/-- Comments or not, a modernization comes to the same text in front of them, and its outcome differs in nothing
else. -/
theorem modernize_of_rewriteFor (h : rewriteFor r o s = .ok (done, applied)) :
    ∃ m : Modernized, m.text = done ∧ ∀ comments, modernize r { o with addComments := comments } s =
      .ok { m with text := if comments && done != s then addExplanations s done (legacyFindings s) else done } := by
  have hrun (comments : Bool) : modernize r { o with addComments := comments } s = (rewriteFor r o s >>= _) := rfl
  rw [h] at hrun
  exact ⟨⟨done, applied, _, _, _⟩, rfl, hrun⟩

theorem modernize_of_error {e : UpliftError} (h : rewriteFor r o s = .error e) (comments : Bool) :
    modernize r { o with addComments := comments } s = .error e := by
  have hrun : modernize r { o with addComments := comments } s = (rewriteFor r o s >>= _) := rfl
  rw [hrun, h]
  rfl

theorem exists_of_rewriteFor_text {text : List Char} (h : (rewriteFor r o s).toOption.map (·.1) = some text) :
    ∃ applied, rewriteFor r o s = .ok (text, applied) := by
  cases hdone : rewriteFor r o s with
  | error e =>
    rw [hdone] at h
    cases h
  | ok rewritten =>
    obtain ⟨done, applied⟩ := rewritten
    rw [hdone] at h
    obtain rfl : done = text := Option.some.inj h
    exact ⟨applied, rfl⟩

theorem rewriteFor_unchanged (h : passesFor o (legacyFindings s) = []) : rewriteFor r o s = .ok (s, []) := by
  rw [rewriteFor, h]
  rfl

end Rewriting

section Findings

variable {s : List Char} {f : Finding}

theorem legacyFindings_eq_singleton (h : (scanText .discard s inputName (some true)).findings = [f]) :
    legacyFindings s = [f] := by
  rw [legacyFindings, h, sortByPlace, List.mergeSort_singleton]

/-- A finding is that of some detector at one of its matches outside literals. -/
theorem exists_of_mem_legacyFindings (hf : f ∈ legacyFindings s) :
    ∃ d ∈ Legacy.detectors, ∃ M ∈ matchesOutside d.pattern s.toArray (literalIndex s),
      f = ((Subject.ofText s inputName (some true)).sighting d M).finding ∧ f.severity = d.severity ∧
        f.suggestedFix = d.suggestedFix := by
  have hscan : f ∈ (scanText .discard s inputName (some true)).findings := List.mem_mergeSort.mp hf
  obtain ⟨d, hd, M, hM, rfl, hsetting⟩ := exists_of_mem_scanText hscan
  have hnone := hsetting rfl
  have hcovers : (literalIndex s).covers M.start = false := by
    have hplace := sighting_setting (s := s) (d := d) M
    rw [Subject.sighting, hnone] at hplace
    simpa using hplace.symm
  refine ⟨d, hd, M, List.mem_filter.mpr ⟨hM, by simp [hcovers]⟩, rfl, ?_⟩
  rw [Subject.sighting, hnone]
  exact ⟨rfl, rfl⟩

theorem exists_detector_of_fixable (hf : f ∈ legacyFindings s) (hfixable : f.fixable = true) :
    ∃ d ∈ Legacy.detectors, f.severity = d.severity ∧ d.fixes s ≠ 0 := by
  obtain ⟨d, hd, M, hM, rfl, hseverity, _⟩ := exists_of_mem_legacyFindings hf
  rw [sighting_fixable] at hfixable
  exact ⟨d, hd, hseverity, Nat.pos_iff_ne_zero.mp (List.countP_pos_iff.mpr ⟨M, hM, hfixable⟩)⟩

/-- Each match of a detector outside literals is a finding. -/
theorem mem_legacyFindings_of_match {d : Legacy.Detector} (hd : d ∈ Legacy.detectors) {M : Match}
    (hM : M ∈ matchesOutside d.pattern s.toArray (literalIndex s)) :
    ((Subject.ofText s inputName (some true)).sighting d M).finding ∈ legacyFindings s := by
  obtain ⟨hM, hcovers⟩ := List.mem_filter.mp hM
  have hplace : ((Subject.ofText s inputName (some true)).sighting d M).setting.isNone = true := by
    rw [sighting_setting]
    exact hcovers
  apply List.mem_mergeSort.mpr
  apply List.mem_map.mpr
  refine ⟨_, List.mem_filter.mpr ⟨?_, hplace⟩, rfl⟩
  exact List.mem_flatMap.mpr ⟨d, hd, List.mem_map.mpr ⟨M, hM, rfl⟩⟩

theorem exists_fixable_of_detector {d : Legacy.Detector} (hd : d ∈ Legacy.detectors) (hfixes : d.fixes s ≠ 0) :
    ∃ f ∈ legacyFindings s, f.fixable = true ∧ f.construct = d.construct ∧ f.severity = d.severity := by
  obtain ⟨M, hM, hfixable⟩ := List.countP_pos_iff.mp (Nat.pos_of_ne_zero hfixes)
  have hplace : ((Subject.ofText s inputName (some true)).sighting d M).setting.isNone = true := by
    rw [sighting_setting]
    exact (List.mem_filter.mp hM).2
  have hnone : (Subject.ofText s inputName (some true)).setting M = none := Option.isNone_iff_eq_none.mp hplace
  refine ⟨_, mem_legacyFindings_of_match hd hM, ?_, sighting_construct _ M, ?_⟩
  · rw [sighting_fixable]
    exact hfixable
  · rw [Subject.sighting, hnone]
    rfl

/-- A detector looks for the same places as a step of its pass, for places that no pass changes, or for what
is never fixed unasked. -/
theorem detectors_fixes : ∀ d ∈ Legacy.detectors,
    (∃ u, d.construct.fixPass? = some (Step.target u).category ∧ ∀ s, d.fixes s = (Step.target u).load true s) ∨
      (∀ s, d.fixes s = 0) ∨ d.severity = .suggestion := by
  simp only [Legacy.detectors, List.forall_mem_cons]
  refine ⟨.inl ⟨.keyword false, rfl, fun s => fixes_target s rfl rfl (keyword_noLink false)⟩,
    .inl ⟨.keyword true, rfl, fun s => fixes_target s rfl rfl (keyword_noLink true)⟩,
    .inl ⟨.member .save, rfl, fun s => fixes_target s rfl rfl (member_noLink .save)⟩,
    .inr (.inl fun s => fixes_link rfl),
    .inl ⟨.member .borrow, rfl, fun s => fixes_target s rfl rfl (member_noLink .borrow)⟩,
    .inl ⟨.member .getCapability, rfl, fun s => fixes_target s rfl rfl (member_noLink .getCapability)⟩,
    .inl ⟨.member .load, rfl, fun s => fixes_target s rfl rfl (member_noLink .load)⟩,
    .inl ⟨.member .copy, rfl, fun s => fixes_target s rfl rfl (member_noLink .copy)⟩,
    .inl ⟨.conformance, rfl, fun s => fixes_conformance s rfl rfl⟩,
    .inr (.inr trivial), .inr (.inr trivial), List.forall_mem_nil _⟩

end Findings

section Passes

theorem runFixes_eq [CharacterNames] (o : RunOptions) (cs : List Category) (s : List Char) :
    ∃ applied, runFixes (RuleSet.mk o Rule.defaults) cs s = .ok (afterSteps o.preserves (stepsOfAll cs) s, applied) := by
  induction cs generalizing s with
  | nil => exact ⟨[], rfl⟩
  | cons c cs ih =>
    obtain ⟨applied, hrest⟩ := ih (afterSteps o.preserves (stepsOf (.text c.name)) s)
    rw [runFixes, upliftPass_eq, afterSteps_stepsOfAll_cons]
    change ∃ applied, (runFixes _ cs (afterSteps o.preserves (stepsOf (.text c.name)) s) >>= _) = _
    rw [hrest]
    exact ⟨_, rfl⟩

theorem rewriteFor_eq [CharacterNames] (options : RunOptions) (o : ModernizeOptions) (s : List Char) :
    ∃ applied, rewriteFor ⟨options, Rule.defaults⟩ o s =
      .ok (afterSteps o.preserveComments (stepsOfAll (passesFor o (legacyFindings s))) s, applied) :=
  runFixes_eq { options with preserveComments := .bool o.preserveComments } _ s

theorem target_mem_stepsOf (u : Target) : Step.target u ∈ stepsOf (.text (Step.target u).category.name) := by
  cases u with
  | keyword b => cases b <;> decide +kernel
  | conformance => decide +kernel
  | member m => cases m <;> decide +kernel

theorem stepsOfAll_filter_pairwise (p : Category → Bool) :
    (stepsOfAll (Category.ordered.filter p)).Pairwise fun st _ => st ≠ .getter := by
  have hsub : (stepsOfAll (Category.ordered.filter p)).Sublist steps := by
    rw [← stepsOfAll_ordered]
    exact List.filter_sublist.flatMap _
  exact steps_pairwise.sublist hsub

/-- The pass of a finding that is to be fixed is among those chosen. -/
theorem mem_passesFor {o : ModernizeOptions} {fs : List Finding} {c : Category} :
    c ∈ passesFor o fs ↔ ∃ f ∈ fs, (f.fixable && o.enables f.severity) = true ∧ f.construct.fixPass? = some c := by
  have hordered : c ∈ Category.ordered := by cases c <;> decide
  simp only [passesFor, List.mem_filter, hordered, true_and, List.contains_iff_mem, List.mem_filterMap]
  constructor
  · rintro ⟨f, ⟨hf, hwanted⟩, hc⟩
    exact ⟨f, hf, by rwa [Bool.and_comm] at hwanted, hc⟩
  · rintro ⟨f, hf, hwanted, hc⟩
    exact ⟨f, ⟨hf, by rwa [Bool.and_comm]⟩, hc⟩

/-- The passes chosen for a text leave nothing to fix. -/
theorem settled_of_passesFor (o : ModernizeOptions) (s : List Char) :
    ∀ f ∈ legacyFindings (afterSteps true (stepsOfAll (passesFor o (legacyFindings s))) s),
      (f.fixable && o.enables f.severity) = false := by
  intro f hf
  by_contra hleft
  obtain ⟨hfixable, henabled⟩ : f.fixable = true ∧ o.enables f.severity = true := by simpa using hleft
  obtain ⟨d, hd, hseverity, hfixes⟩ := exists_detector_of_fixable hf hfixable
  rcases detectors_fixes d hd with ⟨u, hpass, hload⟩ | hnever | hsuggestion
  · rw [hload] at hfixes
    apply hfixes
    by_cases hchosen : (Step.target u).category ∈ passesFor o (legacyFindings s)
    · apply afterSteps_settled (stepsOfAll_filter_pairwise _)
      exact List.mem_flatMap.mpr ⟨_, hchosen, target_mem_stepsOf u⟩
    · apply Target.load_afterSteps_zero
      rw [← hload]
      by_contra hold
      obtain ⟨g, hg, hgfixable, hconstruct, hgseverity⟩ := exists_fixable_of_detector hd hold
      apply hchosen
      refine mem_passesFor.mpr ⟨g, hg, ?_, by rw [hconstruct, hpass]⟩
      rw [hgfixable, hgseverity, ← hseverity, henabled]
      rfl
  · exact hfixes (hnever _)
  · rw [hseverity, hsuggestion] at henabled
    simp [ModernizeOptions.enables] at henabled

end Passes

/-- With the starting rules and comments left alone, a modernization ends, and its text (the one that comments are
added to, if they are asked for) has no finding left that can be changed mechanically and is of a severity to fix.
A second one leaves that text as it is. -/
theorem modernize_fixes_enabled [CharacterNames] (options : RunOptions) (fixCritical fixWarnings : Bool)
    (s : List Char) :
    ∃ m, modernize ⟨options, Rule.defaults⟩ ⟨fixCritical, fixWarnings, true, false⟩ s = .ok m ∧
      (∃ explained, modernize ⟨options, Rule.defaults⟩ ⟨fixCritical, fixWarnings, true, true⟩ s = .ok explained ∧
        explained.text = if m.text = s then s else addExplanations s m.text (legacyFindings s)) ∧
      (∀ f ∈ legacyFindings m.text,
        (f.fixable && ModernizeOptions.enables ⟨fixCritical, fixWarnings, true, false⟩ f.severity) = false) ∧
      ∃ again, modernize ⟨options, Rule.defaults⟩ ⟨fixCritical, fixWarnings, true, false⟩ m.text = .ok again ∧
        again.text = m.text := by
  let o : ModernizeOptions := ⟨fixCritical, fixWarnings, true, false⟩
  obtain ⟨applied, hdone⟩ := rewriteFor_eq options o s
  have hsettled := settled_of_passesFor o s
  generalize afterSteps true (stepsOfAll (passesFor o (legacyFindings s))) s = done at hdone hsettled
  have hnone : passesFor o (legacyFindings done) = [] := by
    apply List.eq_nil_iff_forall_not_mem.mpr
    intro c hc
    obtain ⟨f, hf, hwanted, _⟩ := mem_passesFor.mp hc
    rw [hsettled f hf] at hwanted
    cases hwanted
  obtain ⟨m, rfl, hm⟩ := modernize_of_rewriteFor hdone
  obtain ⟨m', hm', hagain⟩ := modernize_of_rewriteFor (rewriteFor_unchanged hnone)
  refine ⟨m, hm false, ⟨_, hm true, ?_⟩, hsettled, _, hagain false, rfl⟩
  by_cases hs : m.text = s <;> simp [hs]

end CadenceUplift
