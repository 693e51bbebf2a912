import CadenceUplift.Proofs.Uplift.Failures
import CadenceUplift.Proofs.Uplift.Idempotence

namespace CadenceUplift

namespace RuleSet

variable [CharacterNames]

/-- The passes whose text differs from the text before them, up to the first that fails. -/
def changedPasses (r : RuleSet) : List Category → List Char → List Category
  | [], _ => []
  | c :: rest, s =>
    match r.upliftPass (.text c.name) s with
    | .error _ => []
    | .ok next => if next.text = s then r.changedPasses rest s else c :: r.changedPasses rest next.text

/-- In the uplift of a text, the pass of a category is run on one text and leaves another. -/
def Passes (r : RuleSet) (cs : List Category) (s : List Char) (c : Category) (before : List Char)
    (once : Replaced) : Prop :=
  ∃ earlier later counts, cs = earlier ++ c :: later ∧ r.runPasses earlier s = .ok (before, counts) ∧
    r.upliftPass (.text c.name) before = .ok once

/-- Some rule of a category has something to replace when its turn comes. -/
def Finds (r : RuleSet) (c : Category) (before : List Char) : Prop :=
  ∃ earlier rule later mid, r.byCategory (.text c.name) = earlier ++ rule :: later ∧
    applyRules r.options.preserves earlier ⟨before, 0⟩ = .ok mid ∧ rule.Meets r.options.preserves mid.text

/-- No pass finds anything in a text that it has just left. -/
def Settles (r : RuleSet) : Prop :=
  ∀ (c : Category) (s : List Char) (once : Replaced), r.upliftPass (.text c.name) s = .ok once →
    r.upliftPass (.text c.name) once.text = .ok ⟨once.text, 0⟩

end RuleSet

section Applying

variable [CharacterNames] {r : Rule} {skipLiterals : Bool} {s : List Char} {next : Replaced}

/-- A rule that can be applied splices in what each of its matches becomes. -/
theorem Rule.exists_of_apply (h : r.apply s skipLiterals = .ok next) :
    ∃ p news, r.compile = .ok p ∧
      rewriteAll (replace p r.replacement) s.toArray
        (matchesOutside p.pattern s.toArray (skipIndex skipLiterals s)) = .ok news ∧
      next = ⟨splice s.toArray 0 news, (matchesOutside p.pattern s.toArray (skipIndex skipLiterals s)).length⟩ := by
  obtain ⟨p, hp, h⟩ := bind_eq_ok h
  obtain ⟨news, hnews, h⟩ := bind_eq_ok h
  exact ⟨p, news, hp, hnews, (Except.ok.inj h).symm⟩

theorem Rule.meets_iff_of_apply (h : r.apply s skipLiterals = .ok next) :
    r.Meets skipLiterals s ↔ 0 < next.count := by
  obtain ⟨p, news, hp, _, rfl⟩ := Rule.exists_of_apply h
  simp [Meets, hp, List.length_pos_iff]

theorem Rule.text_of_apply (h : r.apply s skipLiterals = .ok next) (hzero : next.count = 0) : next.text = s := by
  obtain ⟨p, news, hp, hnews, rfl⟩ := Rule.exists_of_apply h
  have hnil : news = [] := by
    have hlen := congrArg List.length (rewriteAll_start hnews)
    rw [List.length_map] at hlen
    exact List.eq_nil_of_length_eq_zero (hlen.trans hzero)
  simp [hnil, splice]

variable {rules : List Rule} {done last : Replaced}

theorem applyRules_count_le (h : applyRules skipLiterals rules done = .ok last) : done.count ≤ last.count := by
  induction rules generalizing done with
  | nil => cases h; exact Nat.le_refl _
  | cons r rules ih =>
    obtain ⟨next, _, hrest⟩ := bind_eq_ok h
    exact Nat.le_trans (Nat.le_add_right _ _) (ih hrest)

/-- Rules that replace nothing leave a text as it is. -/
theorem applyRules_text (h : applyRules skipLiterals rules done = .ok last) (hcount : last.count = done.count) :
    last.text = done.text := by
  induction rules generalizing done with
  | nil => cases h; rfl
  | cons r rules ih =>
    obtain ⟨next, hnext, hrest⟩ := bind_eq_ok h
    have hle := applyRules_count_le hrest
    dsimp only at hle
    have hzero : next.count = 0 := by omega
    have hsame := Rule.text_of_apply hnext hzero
    rw [ih hrest (by dsimp only; omega)]
    exact hsame

/-- Rules replace something exactly when one of them, in its turn, has something to replace. -/
theorem applyRules_count_lt_iff (h : applyRules skipLiterals rules done = .ok last) :
    done.count < last.count ↔ ∃ earlier rule later mid, rules = earlier ++ rule :: later ∧
      applyRules skipLiterals earlier done = .ok mid ∧ rule.Meets skipLiterals mid.text := by
  constructor
  · intro hlt
    induction rules generalizing done with
    | nil => cases h; exact absurd hlt (Nat.lt_irrefl _)
    | cons r rules ih =>
      obtain ⟨next, hnext, hrest⟩ := bind_eq_ok h
      by_cases hfirst : 0 < next.count
      · exact ⟨[], r, rules, done, rfl, rfl, (Rule.meets_iff_of_apply hnext).mpr hfirst⟩
      · obtain ⟨earlier, rule, later, mid, rfl, hmid, hmeets⟩ := ih hrest (by dsimp only; omega)
        refine ⟨r :: earlier, rule, later, mid, rfl, ?_, hmeets⟩
        rw [applyRules, hnext]
        exact hmid
  · rintro ⟨earlier, rule, later, mid, rfl, hmid, hmeets⟩
    rw [applyRules_append, hmid] at h
    obtain ⟨next, hnext, hrest⟩ := bind_eq_ok (show applyRules skipLiterals (rule :: later) mid = .ok last from h)
    have hbefore := applyRules_count_le hmid
    have hafter := applyRules_count_le hrest
    have hrule := (Rule.meets_iff_of_apply hnext).mp hmeets
    dsimp only at hafter
    omega

end Applying

section Naming

variable [CharacterNames] {r : RuleSet} {cs : List Category} {s final : List Char} {counts : List (Category × Nat)}

theorem RuleSet.exists_of_runPasses_cons {c : Category} (h : r.runPasses (c :: cs) s = .ok (final, counts)) :
    ∃ once counts', r.upliftPass (.text c.name) s = .ok once ∧ r.runPasses cs once.text = .ok (final, counts') ∧
      counts = (c, once.count) :: counts' := by
  obtain ⟨once, hfirst, hrest⟩ := bind_eq_ok h
  obtain ⟨⟨final', counts'⟩, hcounts, hall⟩ := bind_eq_ok hrest
  cases hall
  exact ⟨once, counts', hfirst, hcounts, rfl⟩

theorem RuleSet.categories_of_runPasses (h : r.runPasses cs s = .ok (final, counts)) : counts.map (·.1) = cs := by
  induction cs generalizing s counts with
  | nil => cases h; rfl
  | cons c cs ih =>
    obtain ⟨once, counts', _, hcounts, rfl⟩ := RuleSet.exists_of_runPasses_cons h
    rw [List.map_cons, ih hcounts]

theorem RuleSet.Passes.upliftPass {c : Category} {before : List Char} {once : Replaced}
    (h : r.Passes cs s c before once) : r.upliftPass (.text c.name) before = .ok once := by
  obtain ⟨_, _, _, _, _, hpass⟩ := h
  exact hpass

theorem RuleSet.passes_cons {c c' : Category} {once once' : Replaced} {before : List Char}
    (hfirst : r.upliftPass (.text c.name) s = .ok once) (h : r.Passes cs once.text c' before once') :
    r.Passes (c :: cs) s c' before once' := by
  obtain ⟨earlier, later, counts, rfl, hrun, hpass⟩ := h
  refine ⟨c :: earlier, later, (c, once.count) :: counts, rfl, ?_, hpass⟩
  rw [runPasses, hfirst]
  change (r.runPasses earlier once.text >>= _) = _
  rw [hrun]
  rfl

/-- Each of different passes is run on some text, and the count beside its category is that of its replacements. -/
theorem RuleSet.exists_pass (h : r.runPasses cs s = .ok (final, counts)) (hdistinct : cs.Nodup) {c : Category}
    (hc : c ∈ cs) : ∃ before once, r.Passes cs s c before once ∧
      ∀ n, (c, n) ∈ counts ↔ n = once.count := by
  induction cs generalizing s counts with
  | nil => cases hc
  | cons d cs ih =>
    obtain ⟨once, counts', hfirst, hcounts, rfl⟩ := RuleSet.exists_of_runPasses_cons h
    obtain ⟨hnew, hdistinct⟩ := List.nodup_cons.mp hdistinct
    by_cases hcd : c = d
    · subst hcd
      have hlater : ∀ n, (c, n) ∉ counts' := by
        intro n hn
        have hmem := List.mem_map_of_mem (f := (·.1)) hn
        rw [RuleSet.categories_of_runPasses hcounts] at hmem
        exact hnew hmem
      exact ⟨s, once, ⟨[], cs, [], rfl, rfl, hfirst⟩, by simp [hlater]⟩
    · have hin : c ∈ cs := (List.mem_cons.mp hc).resolve_left hcd
      obtain ⟨before, once', hpass, hcount⟩ := ih hcounts hdistinct hin
      exact ⟨before, once', RuleSet.passes_cons hfirst hpass, by simp [hcd, hcount]⟩

theorem RuleSet.finds_iff {c : Category} {once : Replaced} (h : r.upliftPass (.text c.name) s = .ok once) :
    0 < once.count ↔ r.Finds c s :=
  applyRules_count_lt_iff h

theorem RuleSet.upliftPass_text {category : Value} {once : Replaced} (h : r.upliftPass category s = .ok once)
    (hzero : once.count = 0) : once.text = s :=
  applyRules_text h hzero

/-- A pass that would find nothing in what it leaves has replaced something exactly when the text changed. -/
theorem RuleSet.upliftPass_settled {category : Value} {once : Replaced} (h : r.upliftPass category s = .ok once)
    (hsettled : r.upliftPass category once.text = .ok ⟨once.text, 0⟩) : 0 < once.count ↔ once.text ≠ s := by
  constructor
  · intro hpos hsame
    rw [hsame, h] at hsettled
    obtain rfl := Except.ok.inj hsettled
    exact absurd hpos (Nat.lt_irrefl 0)
  · intro hne
    by_contra hnot
    exact hne (RuleSet.upliftPass_text h (by omega))

/-- The passes with replacements include those that change the text, in their order. -/
theorem RuleSet.changedPasses_sublist (h : r.runPasses cs s = .ok (final, counts)) :
    (r.changedPasses cs s).Sublist ((counts.filter fun c => decide (0 < c.2)).map (·.1)) := by
  induction cs generalizing s counts with
  | nil => cases h; exact .slnil
  | cons c cs ih =>
    obtain ⟨once, counts', hfirst, hcounts, rfl⟩ := RuleSet.exists_of_runPasses_cons h
    have hlater := ih hcounts
    rw [changedPasses, hfirst]
    dsimp only
    split
    next hsame =>
      rw [hsame] at hlater
      rw [List.filter_cons]
      split
      · exact hlater.cons _
      · exact hlater
    next hne =>
      have hpos : 0 < once.count := Nat.pos_of_ne_zero fun hzero => hne (RuleSet.upliftPass_text hfirst hzero)
      rw [List.filter_cons, if_pos (decide_eq_true hpos)]
      exact hlater.cons_cons _

/-- Where every pass settles, the passes with replacements are those that change the text. -/
theorem RuleSet.changedPasses_eq (hsettles : r.Settles) (h : r.runPasses cs s = .ok (final, counts)) :
    (counts.filter fun c => decide (0 < c.2)).map (·.1) = r.changedPasses cs s := by
  induction cs generalizing s counts with
  | nil => cases h; rfl
  | cons c cs ih =>
    obtain ⟨once, counts', hfirst, hcounts, rfl⟩ := RuleSet.exists_of_runPasses_cons h
    have hlater := ih hcounts
    have hcount := RuleSet.upliftPass_settled hfirst (hsettles c s once hfirst)
    rw [changedPasses, hfirst]
    dsimp only
    split
    next hsame =>
      have hzero : ¬0 < once.count := fun hpos => hcount.mp hpos hsame
      rw [List.filter_cons, if_neg (by simpa using hzero), hlater, hsame]
    next hne =>
      rw [List.filter_cons, if_pos (decide_eq_true (hcount.mpr hne)), List.map_cons, hlater]

end Naming

section Starting

variable {o : RunOptions}

/-- Each pass of the starting rules leaves nothing that it looks for. -/
theorem settles_defaults [CharacterNames] : (RuleSet.mk o Rule.defaults).Settles := by
  intro c s once h
  rw [upliftPass_eq] at h
  obtain rfl := Except.ok.inj h
  have hpairwise : (stepsOf (.text c.name)).Pairwise fun st _ => st ≠ .getter := steps_pairwise.filter _
  obtain ⟨hafter, hload⟩ := steps_unchanged (afterSteps_settled hpairwise o.preserves s)
  dsimp only
  rw [upliftPass_eq, hafter, hload]

/-- No step undoes what an earlier one did: in a text that ends as it was, there was nothing to find. -/
theorem load_zero_of_same {s : List Char} (h : afterSteps o.preserves steps s = s) :
    ∀ st ∈ steps, st.load o.preserves s = 0 := by
  have hsettled := afterSteps_settled steps_pairwise o.preserves s
  rwa [h] at hsettled

theorem counts_zero_of_same [CharacterNames] {s : List Char} {u : Uplifted}
    (h : (RuleSet.mk o Rule.defaults).uplift s = .ok u)
    (hsame : u.text = s) : u.counts = Category.ordered.map (·, 0) := by
  rw [uplift_eq] at h
  obtain rfl := Except.ok.inj h
  dsimp only at hsame ⊢
  exact loadsOfPasses_zero (load_zero_of_same hsame)

end Starting

/-- A pass is named exactly when one of its rules, in its turn, has something to replace. Every pass that changes
the text is named; the others are named only if they would find something in their own result. So a rule set whose
passes settle names exactly the passes that change the text, and the names listed for a text and its uplift are
theirs; with the starting rules, also when the two are the same. -/
theorem activePasses_of_changed [CharacterNames] {r : RuleSet} {s : List Char} {u : Uplifted}
    (h : r.uplift s = .ok u) :
    (∀ c, ∃ before once, r.Passes Category.ordered s c before once ∧
      (c ∈ u.activePasses ↔ r.Finds c before) ∧
      (once.text ≠ before → c ∈ u.activePasses) ∧
      (r.upliftPass (.text c.name) once.text = .ok ⟨once.text, 0⟩ →
        (c ∈ u.activePasses ↔ once.text ≠ before))) ∧
    (r.changedPasses Category.ordered s).Sublist u.activePasses ∧
    (r.Settles → u.activePasses = r.changedPasses Category.ordered s ∧
      appliedNames u = (r.changedPasses Category.ordered s).map Category.transformationName ∧
      (u.text ≠ s → replayedNames r s u.text = .ok (appliedNames u))) ∧
    (r.rules = Rule.defaults → r.Settles ∧ replayedNames r s u.text = .ok (appliedNames u)) := by
  have huplift := h
  obtain ⟨⟨final, counts⟩, hrun, hall⟩ := bind_eq_ok h
  obtain rfl := Except.ok.inj hall
  have hreplayed : final ≠ s → replayedNames r s final = .ok (appliedNames ⟨final, counts, manualSteps s⟩) := by
    intro hne
    rw [replayedNames, if_neg (Ne.symm hne), huplift]
    rfl
  refine ⟨?_, RuleSet.changedPasses_sublist hrun, ?_, ?_⟩
  · intro c
    have hmem : c ∈ Category.ordered := by cases c <;> decide
    obtain ⟨before, once, hpass, hcount⟩ := RuleSet.exists_pass hrun (by decide) hmem
    have hactive : c ∈ Uplifted.activePasses ⟨final, counts, manualSteps s⟩ ↔ 0 < once.count := by
      simp [Uplifted.activePasses, hcount]
    have honce := hpass.upliftPass
    refine ⟨before, once, hpass, hactive.trans (RuleSet.finds_iff honce), ?_, ?_⟩
    · intro hne
      exact hactive.mpr (Nat.pos_of_ne_zero fun hzero => hne (RuleSet.upliftPass_text honce hzero))
    · intro hsettled
      exact hactive.trans (RuleSet.upliftPass_settled honce hsettled)
  · intro hsettles
    have hnamed : Uplifted.activePasses ⟨final, counts, manualSteps s⟩ = r.changedPasses Category.ordered s :=
      RuleSet.changedPasses_eq hsettles hrun
    exact ⟨hnamed, by rw [appliedNames, hnamed], hreplayed⟩
  · intro hdefaults
    obtain ⟨o, rules⟩ := r
    obtain rfl : rules = Rule.defaults := hdefaults
    refine ⟨settles_defaults, ?_⟩
    by_cases hsame : final = s
    · have hzero : counts = Category.ordered.map (·, 0) := counts_zero_of_same huplift hsame
      rw [replayedNames, if_pos hsame.symm, appliedNames, Uplifted.activePasses, hzero]
      rfl
    · exact hreplayed hsame

theorem activePasses_of_changed_pub :
    ∃ u, (RuleSet.mk {} Rule.defaults).uplift "pub var a: Int".toList = .ok u ∧ u.activePasses = [.accessModifier] ∧
      (RuleSet.mk {} Rule.defaults).changedPasses Category.ordered "pub var a: Int".toList = [.accessModifier] := by
  have h := uplift_eq {} "pub var a: Int".toList
  have hcounts : loadsOfPasses true Category.ordered "pub var a: Int".toList =
      [(.accessModifier, 1), (.interface, 0), (.storage, 0), (.function, 0), (.imports, 0)] := by decide +kernel
  have hactive : ((loadsOfPasses true Category.ordered "pub var a: Int".toList).filter fun c =>
      decide (0 < c.2)).map (·.1) = [.accessModifier] := by
    rw [hcounts]
    rfl
  have hnamed := (activePasses_of_changed h).2.2.1 settles_defaults
  exact ⟨_, h, hactive, hnamed.1.symm.trans hactive⟩

/-- A rule that writes what it finds. -/
def keepRule : Rule := .make "a" "a" "Keep a" .imports

/-- A pass that writes what it finds is named, and leaves the text as it was. -/
theorem kept_text_is_named :
    (RuleSet.ofRule keepRule).usable = .ok (RuleSet.ofRule keepRule) ∧
      ((RuleSet.ofRule keepRule).uplift ['a']).toOption.map (fun u => (u.text, u.activePasses)) =
        some (['a'], [.imports]) ∧
      (RuleSet.ofRule keepRule).changedPasses Category.ordered ['a'] = [] := by
  have hsound : keepRule.Sound :=
    ⟨by decide, by decide, exists_ok_of_toBool (by decide +kernel), by decide, by decide⟩
  exact ⟨usable_ofRule hsound, by decide +kernel, by decide +kernel⟩

end CadenceUplift
