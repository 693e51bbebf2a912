import CadenceUplift.Proofs.Lexeme.Pass
import CadenceUplift.Proofs.Migration.Outcome
import CadenceUplift.Proofs.Rule.Usable

namespace CadenceUplift

open Pattern

/-- The rule's replacement can be written for matches of its pattern: a template refers to groups that are there. -/
def Rule.replaces [CharacterNames] (r : Rule) : Bool :=
  match r.compile, r.replacement with
  | .ok p, .template (.text template) => (p.parseTemplate template).toBool
  | .ok _, .function _ => true
  | _, _ => false

/-- The rule has something to replace in the text. -/
def Rule.Meets [CharacterNames] (r : Rule) (skipLiterals : Bool) (s : List Char) : Prop :=
  ∃ p, r.compile = .ok p ∧ matchesOutside p.pattern s.toArray (skipIndex skipLiterals s) ≠ []

/-- The rules in the order of an uplift: pass after pass. -/
def RuleSet.inOrder (r : RuleSet) (cs : List Category) : List Rule :=
  cs.flatMap fun c => r.byCategory (.text c.name)

section Checked

variable [CharacterNames]

theorem violations_of_usable {r : RuleSet} (h : r.usable = .ok r) : RuleSet.ruleViolations 1 [] r.rules = .ok [] := by
  have hnone : r.violations = .ok [] := by
    unfold RuleSet.usable at h
    split at h
    next hv => exact hv
    next => cases h
    next => cases h
  obtain ⟨found, hfound, hall⟩ := bind_eq_ok hnone
  have hempty := List.append_eq_nil_iff.mp (Except.ok.inj hall)
  rw [hfound, hempty.2]

theorem violations_of_ruleViolations {rules : List Rule} {index : Nat} {seen : List (Value × Nat)}
    (h : RuleSet.ruleViolations index seen rules = .ok []) : ∀ r ∈ rules, ∃ i, r.violations i = .ok [] := by
  induction rules generalizing index seen with
  | nil => simp
  | cons r rules ih =>
    obtain ⟨own, hown, hrest⟩ := bind_eq_ok h
    have hsplit : own = [] ∧ ∃ seen', RuleSet.ruleViolations (index + 1) seen' rules = .ok [] := by
      dsimp only at hrest
      split at hrest
      · obtain ⟨others, hothers, hlist⟩ := bind_eq_ok hrest
        obtain ⟨rfl, rfl⟩ := List.append_eq_nil_iff.mp (Except.ok.inj hlist)
        exact ⟨rfl, seen, hothers⟩
      · split at hrest
        · cases hrest
        · split at hrest
          · obtain ⟨others, hothers, hlist⟩ := bind_eq_ok hrest
            have hnil := List.append_eq_nil_iff.mp (Except.ok.inj hlist)
            cases hnil.2
          · obtain ⟨others, hothers, hlist⟩ := bind_eq_ok hrest
            obtain ⟨rfl, rfl⟩ := List.append_eq_nil_iff.mp (Except.ok.inj hlist)
            exact ⟨rfl, _, hothers⟩
    obtain ⟨rfl, seen', htail⟩ := hsplit
    intro x hx
    rcases List.mem_cons.mp hx with rfl | hx
    · exact ⟨index, hown⟩
    · exact ih htail x hx

theorem Rule.compile_of_violations {r : Rule} {index : Nat} (htext : r.pattern.isText = true)
    (h : r.violations index = .ok []) : ∃ p, r.compile = .ok p := by
  obtain ⟨found, hfound, hall⟩ := bind_eq_ok h
  obtain ⟨hfirst, rfl⟩ := List.append_eq_nil_iff.mp (Except.ok.inj hall)
  have hmissing : r.missingParts = [] := List.map_eq_nil_iff.mp (List.append_eq_nil_iff.mp hfirst).1
  have hgiven : r.pattern.truthy = true := by
    by_contra hempty
    have hblank : CadenceUplift.isMissing r.pattern = true := by
      cases hp : r.pattern with
      | text source =>
        rw [hp] at hempty
        obtain rfl : source = "" := by simpa [Value.truthy] using hempty
        rfl
      | _ => rw [hp] at htext; cases htext
    rw [missingParts, hblank] at hmissing
    cases hmissing
  unfold patternViolations at hfound
  rw [hgiven] at hfound
  simp only [Bool.not_true, Bool.false_eq_true, ↓reduceIte] at hfound
  cases hp : r.compile with
  | ok p => exact ⟨p, rfl⟩
  | error e =>
    rw [hp] at hfound
    cases e with
    | pattern e =>
      dsimp only at hfound
      split at hfound
      · cases hfound
      · cases hfound
    | notPattern v => cases hfound
    | notTemplate v => cases hfound
    | notKey v => cases hfound

/-- The rules of a usable set whose patterns are texts can all be read. -/
theorem compile_of_usable {r : RuleSet} (h : r.usable = .ok r) {rule : Rule} (hmem : rule ∈ r.rules)
    (htext : rule.pattern.isText = true) : ∃ p, rule.compile = .ok p := by
  obtain ⟨i, hi⟩ := violations_of_ruleViolations (violations_of_usable h) rule hmem
  exact rule.compile_of_violations htext hi

end Checked

section Applying

theorem exists_ok_of_toBool {ε α : Type} {x : Except ε α} (h : x.toBool = true) : ∃ a, x = .ok a := by
  cases x with
  | error e => cases h
  | ok a => exact ⟨a, rfl⟩

theorem bind_eq_error_iff {ε α β : Type} {x : Except ε α} {f : α → Except ε β} :
    (∃ e, (x >>= f) = .error e) ↔ (∃ e, x = .error e) ∨ ∃ a, x = .ok a ∧ ∃ e, f a = .error e := by
  cases x with
  | error e => exact ⟨fun _ => .inl ⟨e, rfl⟩, fun _ => ⟨e, rfl⟩⟩
  | ok a =>
    constructor
    · intro h
      exact .inr ⟨a, rfl, h⟩
    · rintro (⟨e, he⟩ | ⟨b, hb, h⟩)
      · cases he
      · cases hb
        exact h

theorem rewriteAll_eq_error_iff {ε : Type} {f : Match → Array Char → Except ε (List Char)} {t : Array Char}
    {ms : List Match} :
    (∃ e, rewriteAll f t ms = .error e) ↔ ∃ M ∈ ms, ∃ e, f M t = .error e := by
  unfold rewriteAll
  induction ms with
  | nil => simp [pure, Except.pure]
  | cons M ms ih =>
    rw [List.mapM_cons, List.exists_mem_cons_iff]
    cases hM : f M t with
    | error e => exact ⟨fun _ => .inl ⟨e, rfl⟩, fun _ => ⟨e, rfl⟩⟩
    | ok new =>
      change (∃ e, ((ms.mapM fun m => do return (m, ← f m t)) >>= fun news => .ok ((M, new) :: news)) = .error e) ↔ _
      rw [bind_eq_error_iff, ih]
      simp

theorem Rule.replace_eq_error_iff [CharacterNames] {r : Rule} {p : Compiled} (hp : r.compile = .ok p)
    (M : Match) (t : Array Char) :
    (∃ e, replace p r.replacement M t = .error e) ↔ r.replaces = false := by
  unfold replaces
  rw [hp]
  cases hr : r.replacement with
  | function f => simp [replace]
  | template v =>
    cases v with
    | text template =>
      simp only [replace, Compiled.expand]
      cases ht : p.parseTemplate template with
      | ok parts => simp [Except.toBool, Except.mapError, bind, Except.bind, pure, Except.pure]
      | error e => simp [Except.toBool, Except.mapError, bind, Except.bind]
    | _ => simp [replace]

/-- A rule that reads fails on a text exactly when it meets something there that it cannot replace. -/
theorem Rule.apply_eq_error_iff [CharacterNames] {r : Rule} {p : Compiled} (hp : r.compile = .ok p) (s : List Char)
    (skipLiterals : Bool) :
    (∃ e, r.apply s skipLiterals = .error e) ↔ r.Meets skipLiterals s ∧ r.replaces = false := by
  have happly : r.apply s skipLiterals =
      (rewriteAll (replace p r.replacement) s.toArray
        (matchesOutside p.pattern s.toArray (skipIndex skipLiterals s)) >>= fun news =>
        .ok ⟨splice s.toArray 0 news, (matchesOutside p.pattern s.toArray (skipIndex skipLiterals s)).length⟩) := by
    rw [Rule.apply, hp]
    rfl
  have hmeets : r.Meets skipLiterals s ↔ matchesOutside p.pattern s.toArray (skipIndex skipLiterals s) ≠ [] := by
    simp [Meets, hp]
  rw [happly, bind_eq_error_iff, rewriteAll_eq_error_iff, hmeets, Ne, List.eq_nil_iff_forall_not_mem]
  simp [Rule.replace_eq_error_iff hp]

theorem applyRules_append [CharacterNames] (skipLiterals : Bool) (before after : List Rule) (done : Replaced) :
    applyRules skipLiterals (before ++ after) done =
      applyRules skipLiterals before done >>= applyRules skipLiterals after := by
  induction before generalizing done with
  | nil => rfl
  | cons r before ih =>
    rw [List.cons_append, applyRules, applyRules, bind_assoc]
    simp only [ih]

/-- Rules applied one after another fail at the first that fails on what those before it left. -/
theorem applyRules_eq_error_iff [CharacterNames] {skipLiterals : Bool} {rules : List Rule} {done : Replaced} :
    (∃ e, applyRules skipLiterals rules done = .error e) ↔
      ∃ before rule after mid, rules = before ++ rule :: after ∧ applyRules skipLiterals before done = .ok mid ∧
        ∃ e, rule.apply mid.text skipLiterals = .error e := by
  constructor
  · intro h
    induction rules generalizing done with
    | nil => obtain ⟨e, he⟩ := h; cases he
    | cons r rules ih =>
      rw [applyRules, bind_eq_error_iff] at h
      rcases h with h | ⟨next, hnext, h⟩
      · exact ⟨[], r, rules, done, rfl, rfl, h⟩
      · obtain ⟨before, rule, after, mid, rfl, hmid, hrule⟩ := ih h
        refine ⟨r :: before, rule, after, mid, rfl, ?_, hrule⟩
        rw [applyRules, hnext]
        exact hmid
  · rintro ⟨before, rule, after, mid, rfl, hmid, e, he⟩
    refine ⟨e, ?_⟩
    rw [applyRules_append, hmid]
    change applyRules skipLiterals (rule :: after) mid = .error e
    rw [applyRules, he]
    rfl

theorem applyRules_count [CharacterNames] (skipLiterals : Bool) (rules : List Rule) (s : List Char) (n : Nat) :
    applyRules skipLiterals rules ⟨s, n⟩ =
      (applyRules skipLiterals rules ⟨s, 0⟩).map fun done => ⟨done.text, n + done.count⟩ := by
  induction rules generalizing s n with
  | nil => rfl
  | cons r rules ih =>
    rw [applyRules, applyRules]
    cases happly : r.apply s skipLiterals with
    | error e => rfl
    | ok next =>
      change applyRules skipLiterals rules ⟨next.text, n + next.count⟩ =
        (applyRules skipLiterals rules ⟨next.text, 0 + next.count⟩).map _
      rw [ih, ih next.text (0 + next.count)]
      cases applyRules skipLiterals rules ⟨next.text, 0⟩ with
      | error e => rfl
      | ok done => simp [Except.map, Nat.add_assoc]

/-- The passes fail where the rules in their order fail, whatever was counted before. -/
theorem runPasses_eq_error_iff [CharacterNames] {r : RuleSet} {cs : List Category} {done : Replaced} :
    (∃ e, r.runPasses cs done.text = .error e) ↔
      ∃ e, applyRules r.options.preserves (r.inOrder cs) done = .error e := by
  induction cs generalizing done with
  | nil => simp [RuleSet.runPasses, RuleSet.inOrder, applyRules]
  | cons c cs ih =>
    have horder : r.inOrder (c :: cs) = r.byCategory (.text c.name) ++ r.inOrder cs := List.flatMap_cons
    rw [RuleSet.runPasses, RuleSet.upliftPass, horder, applyRules_append, applyRules_count _ _ done.text done.count]
    cases applyRules r.options.preserves (r.byCategory (.text c.name)) ⟨done.text, 0⟩ with
    | error e => exact ⟨fun _ => ⟨e, rfl⟩, fun _ => ⟨e, rfl⟩⟩
    | ok once =>
      change (∃ e, (r.runPasses cs once.text >>= fun last => .ok (last.1, (c, once.count) :: last.2)) = .error e) ↔
        ∃ e, applyRules r.options.preserves (r.inOrder cs) ⟨once.text, done.count + once.count⟩ = .error e
      rw [bind_eq_error_iff, ← ih]
      simp

theorem uplift_eq_error_iff [CharacterNames] {r : RuleSet} {s : List Char} :
    (∃ e, r.uplift s = .error e) ↔
      ∃ e, applyRules r.options.preserves (r.inOrder Category.ordered) ⟨s, 0⟩ = .error e := by
  rw [← runPasses_eq_error_iff, RuleSet.uplift, bind_eq_error_iff]
  simp [pure, Except.pure]

theorem mem_of_inOrder {r : RuleSet} {cs : List Category} {before after : List Rule} {rule : Rule}
    (h : r.inOrder cs = before ++ rule :: after) : rule ∈ r.rules := by
  have hin : rule ∈ r.inOrder cs := by rw [h]; simp
  obtain ⟨c, _, hmem⟩ := List.mem_flatMap.mp hin
  exact (List.mem_filter.mp hmem).1

end Applying

/-- A usable rule set fails on a text exactly when one of its rules, in its turn, meets something that its template
cannot be written for; so it never fails when all its templates can be read. -/
theorem uplift_fails_only_by_template [CharacterNames] {r : RuleSet} (husable : r.usable = .ok r)
    (htexts : ∀ rule ∈ r.rules, rule.pattern.isText = true) :
    ((∀ rule ∈ r.rules, rule.replaces = true) → ∀ s, ∃ u, r.uplift s = .ok u) ∧
      ∀ s, (∃ e, r.uplift s = .error e) ↔
        ∃ before rule after mid, r.inOrder Category.ordered = before ++ rule :: after ∧
          applyRules r.options.preserves before ⟨s, 0⟩ = .ok mid ∧
          rule.Meets r.options.preserves mid.text ∧ rule.replaces = false := by
  have hfails : ∀ s, (∃ e, r.uplift s = .error e) ↔
      ∃ before rule after mid, r.inOrder Category.ordered = before ++ rule :: after ∧
        applyRules r.options.preserves before ⟨s, 0⟩ = .ok mid ∧
        rule.Meets r.options.preserves mid.text ∧ rule.replaces = false := by
    intro s
    rw [uplift_eq_error_iff, applyRules_eq_error_iff]
    refine exists_congr fun before => exists_congr fun rule => exists_congr fun after => exists_congr fun mid => ?_
    refine and_congr_right fun horder => and_congr_right fun _ => ?_
    have hmem : rule ∈ r.rules := mem_of_inOrder horder
    obtain ⟨p, hp⟩ := compile_of_usable husable hmem (htexts rule hmem)
    exact rule.apply_eq_error_iff hp mid.text r.options.preserves
  refine ⟨?_, hfails⟩
  intro hreplaces s
  cases hs : r.uplift s with
  | ok u => exact ⟨u, rfl⟩
  | error e =>
    obtain ⟨before, rule, after, mid, horder, _, _, hnot⟩ := (hfails s).mp ⟨e, hs⟩
    rw [hreplaces rule (mem_of_inOrder horder)] at hnot
    cases hnot

/-- A rule set of one rule. -/
def RuleSet.ofRule (rule : Rule) : RuleSet := { rules := [rule] }

theorem usable_ofRule [CharacterNames] {rule : Rule} (h : rule.Sound) : (RuleSet.ofRule rule).usable = .ok
    (RuleSet.ofRule rule) := by
  have hversion : ({} : RunOptions).targetVersion.truthy = true := by decide
  have hblank : isBlankValue ({} : RunOptions).targetVersion = false := by decide
  refine usable_of_sound hversion hblank (List.cons_ne_nil _ _) ?_ ⟨List.pairwise_singleton _ _, by simp⟩
  intro x hx
  rwa [List.mem_singleton.mp hx]

/-- A rule whose template refers to two groups, one of which may take no part. -/
def swapRule : Rule := .make "(a)(b)?" "\\2\\1" "Swap a and b" .imports

theorem uplift_ends_with_swap :
    (RuleSet.ofRule swapRule).usable = .ok (RuleSet.ofRule swapRule) ∧
      (∀ rule ∈ (RuleSet.ofRule swapRule).rules, rule.pattern.isText = true ∧ rule.replaces = true) ∧
      ∀ s, ∃ u, (RuleSet.ofRule swapRule).uplift s = .ok u := by
  have hsound : swapRule.Sound :=
    ⟨by decide, by decide, exists_ok_of_toBool (by decide +kernel), by decide, by decide⟩
  have hrules : ∀ rule ∈ (RuleSet.ofRule swapRule).rules, rule.pattern.isText = true ∧ rule.replaces = true := by
    decide +kernel
  have hfails := uplift_fails_only_by_template (usable_ofRule hsound) fun rule hrule => (hrules rule hrule).1
  exact ⟨usable_ofRule hsound, hrules, hfails.1 fun rule hrule => (hrules rule hrule).2⟩

/-- A rule whose template refers to a group that its pattern does not have. -/
def strayRule : Rule := .make "a" "\\1" "Refer to a group that is not there" .imports

/-- A rule set that passes the check and fails on a text of one letter. -/
theorem usable_set_fails_on_letter :
    (RuleSet.ofRule strayRule).usable = .ok (RuleSet.ofRule strayRule) ∧
      (∀ rule ∈ (RuleSet.ofRule strayRule).rules, rule.pattern.isText = true) ∧
      ((RuleSet.ofRule strayRule).uplift ['a']).mapError (·.message) =
        .error "invalid group reference 1 at position 1" := by
  have hsound : strayRule.Sound :=
    ⟨by decide, by decide, exists_ok_of_toBool (by decide +kernel), by decide, by decide⟩
  exact ⟨usable_ofRule hsound, by decide, by decide +kernel⟩

end CadenceUplift
