import CadenceUplift.Proofs.Interactive.Modernization
import CadenceUplift.Proofs.Matching.Import
import CadenceUplift.Proofs.Matching.Latent
import CadenceUplift.Proofs.Matching.Places
import CadenceUplift.Proofs.Uplift.LineEnds

namespace CadenceUplift

open Text Pattern Scanner

section Shares

theorem roundDiv_mul_left (a : Nat) {b : Nat} (hb : 0 < b) : Binary64.roundDiv (b * a) b = a := by
  rw [Binary64.roundDiv, Nat.mul_div_cancel_left a hb, Nat.mul_mod_right]
  simp [hb]

/-- The quotient of a number by itself is one. -/
theorem nearest_self {n : Nat} (hn : 0 < n) : Binary64.nearest n n = ⟨Nat.pow 2 52, -52⟩ := by
  have hscale : Binary64.scaleDown n n (-52) = (n * Nat.pow 2 52, n) := rfl
  have hexponent : Binary64.exponentOf n n = -52 := by
    have hguess : ((n.log2 : Int) - n.log2 - 52) = -52 := by omega
    have hdiv : n * Nat.pow 2 52 / n = Nat.pow 2 52 := Nat.mul_div_cancel_left _ hn
    simp only [Binary64.exponentOf, hguess, hscale, hdiv, Nat.lt_irrefl, if_false]
    decide
  have hround : Binary64.roundDiv (n * Nat.pow 2 52) n = Nat.pow 2 52 := roundDiv_mul_left _ hn
  have hne : Nat.pow 2 52 ≠ Nat.pow 2 53 := by decide
  simp only [Binary64.nearest, Nat.pos_iff_ne_zero.mp hn, if_false, hexponent, hscale, hround, hne]

theorem ofModernization_full (n : Nat) : Confidence.ofModernization n (0 : Nat) = .full := by
  cases n with
  | zero => rfl
  | succ n =>
    have htotal : ((n + 1 : Nat) : Int) + (0 : Nat) = (n + 1 : Nat) := Int.add_zero _
    have hzero : ((n + 1 : Nat) : Int) ≠ 0 := by omega
    have hpos : ¬((n + 1 : Nat) : Int) * (n + 1 : Nat) ≤ 0 := by
      rw [not_le]
      exact Int.mul_pos (by omega) (by omega)
    simp only [Confidence.ofModernization, htotal, hzero, hpos, if_false, Int.natAbs_natCast, nearest_self n.succ_pos]
    decide

end Shares

/-- The confidence of a modernization, by the findings before and after it. -/
theorem confidence_of_rewriteFor [CharacterNames] {r : RuleSet} {o : ModernizeOptions} {s done : List Char}
    {applied : List String}
    (h : rewriteFor r o s = .ok (done, applied)) {m : Modernized} (hm : modernize r o s = .ok m) :
    m.confidence = .ofModernization ((legacyFindings s).length - (legacyFindings done).length : Nat)
      (legacyFindings done).length := by
  have hrun : modernize r o s = (rewriteFor r o s >>= _) := rfl
  rw [hrun, h] at hm
  cases Except.ok.inj hm
  rfl

section Findings

variable {s : List Char}

/-- A detector looks for what a step changes, or for links, getters or imports. -/
theorem detectors_kinds : ∀ d ∈ Legacy.detectors,
    (∃ u, ∀ s, (matchesOutside d.pattern s.toArray (literalIndex s)).length = (Step.target u).load true s) ∨
      (d.pattern = Legacy.link ∧ d.construct = .storageApi) ∨
      (d.pattern = Legacy.getter ∧ d.construct = .functionSignature) ∨
      (d.pattern = Legacy.importFromAddress ∧ d.construct = .importStatement) := by
  intro d hd
  simp only [Legacy.detectors, List.mem_cons, List.not_mem_nil, or_false] at hd
  rcases hd with rfl | rfl | rfl | rfl | rfl | rfl | rfl | rfl | rfl | rfl | rfl
  · exact .inl ⟨.keyword false, fun _ => rfl⟩
  · exact .inl ⟨.keyword true, fun _ => rfl⟩
  · exact .inl ⟨.member .save, fun _ => rfl⟩
  · exact .inr (.inl ⟨rfl, rfl⟩)
  · exact .inl ⟨.member .borrow, fun _ => rfl⟩
  · exact .inl ⟨.member .getCapability, fun _ => rfl⟩
  · exact .inl ⟨.member .load, fun _ => rfl⟩
  · exact .inl ⟨.member .copy, fun _ => rfl⟩
  · refine .inl ⟨.conformance, fun s => ?_⟩
    rw [Target.load_eq_hits]
    exact body_reads.length_matchesOutside body_finds s true
  · exact .inr (.inr (.inl ⟨rfl, rfl⟩))
  · exact .inr (.inr (.inr ⟨rfl, rfl⟩))

theorem severity_of_getter :
    ∀ d ∈ Legacy.detectors, d.construct = .functionSignature → d.severity = .suggestion := by
  simp [Legacy.detectors, Legacy.storageDetector]

/-- Where a step has something to change, there is a finding that its pass would fix. -/
theorem exists_fixable_of_load {u : Target} (h : (Step.target u).load true s ≠ 0) :
    ∃ f ∈ legacyFindings s, f.fixable = true ∧ f.construct.fixPass? = some (Step.target u).category := by
  obtain ⟨k, us, hcount, hu, hpass⟩ : ∃ k us, fixesOf s k = loadsOf s us ∧ u ∈ us ∧
      k.fixPass? = some (Step.target u).category := by
    cases u with
    | keyword b => exact ⟨_, _, fixesOf_keyword s, by cases b <;> simp, rfl⟩
    | conformance => exact ⟨_, _, fixesOf_conformance s, by simp, rfl⟩
    | member a => exact ⟨_, _, fixesOf_storage s, by cases a <;> simp, rfl⟩
  have hpos : 0 < loadsOf s us :=
    List.sum_pos_iff_exists_pos_nat.mpr ⟨_, List.mem_map_of_mem hu, Nat.pos_of_ne_zero h⟩
  rw [← hcount, ← countP_legacyFindings] at hpos
  obtain ⟨f, hf, hkind⟩ := List.countP_pos_iff.mp hpos
  obtain ⟨hk, hfixable⟩ : f.construct = k ∧ f.fixable = true := by simpa using hkind
  exact ⟨f, hf, hfixable, hk ▸ hpass⟩

end Findings

section Remaining

variable {o : ModernizeOptions} {s : List Char}

/-- The passes that a modernization chooses change constructs piece by piece; getters it leaves alone. -/
theorem target_of_mem_passesFor {st : Step} (hst : st ∈ stepsOfAll (passesFor o (legacyFindings s))) :
    ∃ u, st = .target u := by
  obtain ⟨c, hc, hmem⟩ := List.mem_flatMap.mp hst
  cases st with
  | target u => exact ⟨u, rfl⟩
  | getter =>
    have hfunction : c = .function := by
      have hsame := (List.mem_filter.mp hmem).2
      cases c <;> first | rfl | exact absurd hsame (by decide +kernel)
    obtain ⟨f, hf, hwanted, hpass⟩ := mem_passesFor.mp hc
    obtain ⟨d, hd, M, _, rfl, hseverity, _⟩ := exists_of_mem_legacyFindings hf
    rw [sighting_construct, hfunction] at hpass
    have hconstruct : d.construct = .functionSignature := by
      cases hd : d.construct <;> rw [hd] at hpass <;> first | rfl | cases hpass
    rw [hseverity, severity_of_getter d hd hconstruct] at hwanted
    simp [ModernizeOptions.enables] at hwanted

/-- If all findings are to be fixed, the chosen passes leave nothing for any step to change. -/
theorem load_of_passesFor (hall : ∀ f ∈ legacyFindings s, (f.fixable && o.enables f.severity) = true) (u : Target) :
    (Step.target u).load true (afterSteps true (stepsOfAll (passesFor o (legacyFindings s))) s) = 0 := by
  by_cases hchosen : (Step.target u).category ∈ passesFor o (legacyFindings s)
  · apply afterSteps_settled (stepsOfAll_filter_pairwise _)
    exact List.mem_flatMap.mpr ⟨_, hchosen, target_mem_stepsOf u⟩
  · apply Target.load_afterSteps_zero
    by_contra hload
    obtain ⟨f, hf, _, hpass⟩ := exists_fixable_of_load hload
    exact hchosen (mem_passesFor.mpr ⟨f, hf, hall f hf, hpass⟩)

/-- What no rewrite of a construct brings about, none of their steps do. -/
theorem hits_afterSteps {State : Type} {B : Scanner State}
    (hB : ∀ (t : Target) {ts ts' : List Lexeme} {n : Nat}, Edited t.Edit ts ts' n → hits B Lexeme.piece ts' ≠ 0 →
      hits B Lexeme.piece ts ≠ 0)
    {ss : List Step} (hss : ∀ st ∈ ss, ∃ u, st = .target u) {s : List Char}
    (h : hits B Lexeme.piece (lexemes true (afterSteps true ss s)) ≠ 0) : hits B Lexeme.piece (lexemes true s) ≠ 0 := by
  induction ss generalizing s with
  | nil => exact h
  | cons st ss ih =>
    obtain ⟨⟨u, rfl⟩, hrest⟩ := List.forall_mem_cons.mp hss
    have hafter := ih hrest h
    obtain ⟨n, hpass⟩ := u.pass_after true s
    have hedited := hpass.edited
    rw [← u.edit_eq] at hedited
    exact hB u hedited hafter

theorem imports_eq_nil_iff (s : List Char) : matchesOutside Legacy.importFromAddress s.toArray (literalIndex s) = [] ↔
    hits importScanner Lexeme.piece (lexemes true s) = 0 := by
  have hcount := import_reads.length_matchesOutside import_finds s true
  rw [← List.length_eq_zero_iff]
  change (matchesOutside _ _ (skipIndex true s)).length = 0 ↔ _
  rw [hcount]
  rfl

/-- What is found after the chosen passes was latent before. -/
theorem latent_of_remaining (hall : ∀ f ∈ legacyFindings s, (f.fixable && o.enables f.severity) = true) :
    ∀ f ∈ legacyFindings (afterSteps true (stepsOfAll (passesFor o (legacyFindings s))) s),
      (f.construct = .functionSignature ∧ standsInCode latentGetter s = true) ∨
        (f.construct = .storageApi ∧ f.fixable = false ∧ standsInCode latentLink s = true) := by
  intro f hf
  have hsteps : ∀ st ∈ stepsOfAll (passesFor o (legacyFindings s)), ∃ u, st = .target u :=
    fun st hst => target_of_mem_passesFor hst
  obtain ⟨d, hd, M, hM, rfl, _⟩ := exists_of_mem_legacyFindings hf
  rw [sighting_construct, sighting_fixable]
  rcases detectors_kinds d hd with ⟨u, hu⟩ | ⟨hlink, hconstruct⟩ | ⟨hgetter, hconstruct⟩ | ⟨himport, hconstruct⟩
  · have hload := load_of_passesFor hall u
    rw [← hu, List.length_eq_zero_iff] at hload
    rw [hload] at hM
    cases hM
  · right
    rw [hlink] at hM
    have hnew := hits_of_match link_encloses.opens link_regular link_advances link_accepts_of_match hM
    have hold := hits_afterSteps (fun t _ _ _ h => (link_foretold t h).hits) hsteps hnew
    refine ⟨hconstruct, ?_, standsInCode_of_hits link_encloses.opens rfl latentLink_complete hold⟩
    have hagain := link_again (List.mem_of_mem_filter hM)
    simp [isFixable, Option.isNone_eq_false_iff.mpr hagain]
  · left
    rw [hgetter] at hM
    have hnew := hits_of_match latent_encloses.opens getter_reads.regular getter_reads.advances ?_ hM
    · have hold := hits_afterSteps (fun t _ _ _ h => (latent_foretold_edited t h).hits) hsteps hnew
      exact ⟨hconstruct, standsInCode_of_hits latent_encloses.opens rfl latentGetter_complete hold⟩
    · intro a u N hN
      obtain ⟨ha, _, _, r, hu, ⟨rfl, g, rfl⟩, _⟩ := getter_reads.sound hN
      exact ⟨ha, hu ▸ g.latent r⟩
  · -- An import would be one of the old text, where all that is found is to be fixed.
    exfalso
    rw [himport] at hM
    have hnew := mt (imports_eq_nil_iff _).mpr (List.ne_nil_of_mem hM)
    have hold := hits_afterSteps (fun t _ _ _ h => (import_hits_edited t h).trans_ne) hsteps hnew
    obtain ⟨N, hN⟩ := List.exists_mem_of_ne_nil _ (mt (imports_eq_nil_iff s).mp hold)
    rw [← himport] at hN
    have hwanted := hall _ (mem_legacyFindings_of_match hd hN)
    rw [sighting_fixable, hconstruct] at hwanted
    cases hwanted

/-- Where whatever is found is to be fixed, the starting rules fix it all. What is found in the new text is a getter
or a link call that was there before and that no detector could see: it stood behind a keyword that is now an access
modifier, or had line ends in its brackets. The confidence takes these from the number fixed, so it is full if there
are none. -/
theorem modernize_leaves_latent [CharacterNames] (options : RunOptions) (fixCritical fixWarnings : Bool)
    (s : List Char)
    (hall : ∀ f ∈ legacyFindings s,
      (f.fixable && ModernizeOptions.enables ⟨fixCritical, fixWarnings, true, false⟩ f.severity) = true) :
    ∃ m : Modernized,
      (∀ comments, modernize ⟨options, Rule.defaults⟩ ⟨fixCritical, fixWarnings, true, comments⟩ s = .ok { m with
        text := if comments && m.text != s then addExplanations s m.text (legacyFindings s) else m.text }) ∧
      m.confidence = .ofModernization ((legacyFindings s).length - (legacyFindings m.text).length : Nat)
        (legacyFindings m.text).length ∧
      (∀ f ∈ legacyFindings m.text, (f.construct = .functionSignature ∧ standsInCode latentGetter s = true) ∨
        (f.construct = .storageApi ∧ f.fixable = false ∧ standsInCode latentLink s = true)) ∧
      (standsInCode latentGetter s = false → standsInCode latentLink s = false →
        legacyFindings m.text = [] ∧ m.confidence = .full) := by
  let o : ModernizeOptions := ⟨fixCritical, fixWarnings, true, false⟩
  obtain ⟨applied, hdone⟩ := rewriteFor_eq options o s
  have hlatent := latent_of_remaining (o := o) hall
  change ∀ f ∈ legacyFindings (afterSteps o.preserveComments _ s), _ at hlatent
  generalize afterSteps o.preserveComments (stepsOfAll (passesFor o (legacyFindings s))) s = done at hdone hlatent
  obtain ⟨m, rfl, hm⟩ := modernize_of_rewriteFor hdone
  have hconfidence := confidence_of_rewriteFor hdone (hm false)
  refine ⟨m, hm, hconfidence, hlatent, ?_⟩
  intro hgetter hlink
  have hnone : legacyFindings m.text = [] := by
    apply List.eq_nil_iff_forall_not_mem.mpr
    intro f hf
    rcases hlatent f hf with ⟨_, hstands⟩ | ⟨_, _, hstands⟩
    · exact absurd (hgetter.symm.trans hstands) Bool.false_ne_true
    · exact absurd (hlink.symm.trans hstands) Bool.false_ne_true
  refine ⟨hnone, hconfidence.trans ?_⟩
  rw [hnone]
  exact ofModernization_full _

theorem modernize_leaves_latent_keyword :
    (∀ f ∈ legacyFindings "pub var a: Int".toList,
      (f.fixable && ModernizeOptions.enables ⟨true, false, true, false⟩ f.severity) = true) ∧
    ∃ m, modernize ⟨{}, Rule.defaults⟩ ⟨true, false, true, false⟩ "pub var a: Int".toList = .ok m ∧
      legacyFindings m.text = [] ∧ m.confidence = .full := by
  have hfindings : (scanText .discard "pub var a: Int".toList inputName (some true)).findings =
      [⟨.pubKeyword, "pub ", ⟨inputName, 1, 1, "pub var a: Int"⟩, .critical, "Legacy pub keyword found",
        "Replace with access(all) or appropriate access modifier", .high⟩] := by decide +kernel
  have hlegacy := legacyFindings_eq_singleton hfindings
  have hall : ∀ f ∈ legacyFindings "pub var a: Int".toList,
      (f.fixable && ModernizeOptions.enables ⟨true, false, true, false⟩ f.severity) = true := by
    rw [hlegacy]
    decide +kernel
  obtain ⟨m, hm, _, _, hfull⟩ := modernize_leaves_latent {} true false "pub var a: Int".toList hall
  exact ⟨hall, m, hm false, hfull (by decide +kernel) (by decide +kernel)⟩

/-- A getter behind `pub` is found once the keyword is an access modifier: the one finding of this text is fixed, and
the confidence is the least there is. -/
theorem confidence_drops_behind_pub :
    (∃ f, legacyFindings "pub fun getA(): Int \x7b\x7d".toList = [f] ∧
      (f.fixable && ModernizeOptions.enables ⟨true, false, true, false⟩ f.severity) = true) ∧
    ∃ m, modernize ⟨{}, Rule.defaults⟩ ⟨true, false, true, false⟩ "pub fun getA(): Int \x7b\x7d".toList = .ok m ∧
      m.text = "access(all) fun getA(): Int \x7b\x7d".toList ∧ m.confidence = ⟨10⟩ ∧ m.confidence ≠ .full := by
  have hfindings : (scanText .discard "pub fun getA(): Int \x7b\x7d".toList inputName (some true)).findings =
      [⟨.pubKeyword, "pub ", ⟨inputName, 1, 1, "pub fun getA(): Int \x7b\x7d"⟩, .critical, "Legacy pub keyword found",
        "Replace with access(all) or appropriate access modifier", .high⟩] := by decide +kernel
  have hlegacy := legacyFindings_eq_singleton hfindings
  have htext : (rewriteFor ⟨{}, Rule.defaults⟩ ⟨true, false, true, false⟩
      "pub fun getA(): Int \x7b\x7d".toList).toOption.map (·.1) =
      some "access(all) fun getA(): Int \x7b\x7d".toList := by
    rw [rewriteFor, hlegacy]
    decide +kernel
  have hremaining : (legacyFindings "access(all) fun getA(): Int \x7b\x7d".toList).length = 1 := by
    rw [legacyFindings, sortByPlace, List.length_mergeSort]
    decide +kernel
  obtain ⟨applied, hdone⟩ := exists_of_rewriteFor_text htext
  obtain ⟨m, hnew, hm⟩ := modernize_of_rewriteFor hdone
  rw [← hnew] at hdone hm
  have hconfidence : m.confidence = ⟨10⟩ := by
    rw [confidence_of_rewriteFor hdone (hm false), hnew, hlegacy, hremaining]
    rfl
  refine ⟨⟨_, hlegacy, by decide⟩, m, hm false, hnew, hconfidence, ?_⟩
  rw [hconfidence]
  decide

end Remaining

end CadenceUplift
