import CadenceUplift.Rule.RuleSet

namespace CadenceUplift

/-- Nothing is wrong with the rule by itself. -/
structure Rule.Sound [CharacterNames] (r : Rule) : Prop where
  complete : r.missingParts = []
  category : isCategory r.category = true
  compiles : ∃ p, r.compile = .ok p
  described : r.description.truthy = true
  hashable : r.description.isKey = true

theorem Rule.Sound.violations [CharacterNames] {r : Rule} (h : r.Sound) (index : Nat) :
    r.violations index = .ok [] := by
  obtain ⟨p, hp⟩ := h.compiles
  have hpattern : r.patternViolations index = .ok [] := by
    rw [patternViolations, hp]
    split <;> rfl
  rw [Rule.violations, h.complete, h.category, hpattern, Bool.not_true, Bool.and_false]
  rfl

/-- The descriptions of the rules differ from one another and from those met before. -/
structure Distinct (seen : List (Value × Nat)) (rules : List Rule) : Prop where
  among : rules.Pairwise fun a b => a.description.same b.description = false
  before : ∀ x ∈ seen, ∀ r ∈ rules, x.1.same r.description = false

theorem Distinct.tail {seen : List (Value × Nat)} {r : Rule} {rules : List Rule} (h : Distinct seen (r :: rules))
    (index : Nat) : Distinct (seen ++ [(r.description, index)]) rules := by
  obtain ⟨hfirst, hrest⟩ := List.pairwise_cons.mp h.among
  refine ⟨hrest, ?_⟩
  intro x hx r' hr'
  rcases List.mem_append.mp hx with hx | hx
  · exact h.before x hx r' (List.mem_cons_of_mem _ hr')
  · rw [List.mem_singleton.mp hx]
    exact hfirst r' hr'

theorem Distinct.firstWith {seen : List (Value × Nat)} {r : Rule} {rules : List Rule} (h : Distinct seen (r :: rules)) :
    RuleSet.firstWith r.description seen = none := by
  have hfind : (seen.find? fun s => s.1.same r.description) = none := by
    rw [List.find?_eq_none]
    intro x hx
    simp [h.before x hx r List.mem_cons_self]
  rw [RuleSet.firstWith, hfind]
  rfl

theorem ruleViolations_sound [CharacterNames] {rules : List Rule} (hsound : ∀ r ∈ rules, r.Sound)
    {seen : List (Value × Nat)}
    (hdistinct : Distinct seen rules) (index : Nat) : RuleSet.ruleViolations index seen rules = .ok [] := by
  induction rules generalizing seen index with
  | nil => rfl
  | cons r rules ih =>
    have hr := hsound r List.mem_cons_self
    have hrest := ih (fun r' hr' => hsound r' (List.mem_cons_of_mem _ hr')) (hdistinct.tail index) (index + 1)
    rw [RuleSet.ruleViolations, hr.violations]
    dsimp only
    rw [hr.described, hr.hashable, hdistinct.firstWith, hrest]
    rfl

/-- Sound rules with distinct descriptions make a usable rule set, if it names a version. -/
theorem usable_of_sound [CharacterNames] {r : RuleSet} (hversion : r.options.targetVersion.truthy = true)
    (hblank : isBlankValue r.options.targetVersion = false) (hrules : r.rules ≠ []) (hsound : ∀ x ∈ r.rules, x.Sound)
    (hdistinct : Distinct [] r.rules) : r.usable = .ok r := by
  have hempty : r.rules.isEmpty = false := by simpa using hrules
  have hviolations : r.violations = .ok [] := by
    rw [RuleSet.violations, hversion, hblank, hempty, ruleViolations_sound hsound hdistinct]
    rfl
  rw [RuleSet.usable, hviolations]

/-- The characters of a text; none of any other value. -/
def Value.chars : Value → List Char
  | .text s => s.toList
  | _ => []

theorem not_missing_of_visible {v : Value} {c : Char} (hc : c ∈ v.chars) (hvisible : Text.isBlank c = false) :
    isMissing v = false := by
  cases v with
  | text s =>
    have hblank : Text.allBlank s.toList = false := by
      rw [Text.allBlank, List.all_eq_false]
      exact ⟨c, hc, by simp [hvisible]⟩
    exact hblank
  | _ => cases hc

section Defaults

theorem defaults_patterns : ∀ cs ∈ Rule.defaults.map (·.pattern.chars), '\\' ∈ cs := by
  have hgetter : Rule.getterSource.toList = _ := String.toList_append
  have hhead : Rule.headSource.toList = _ := String.toList_ofList
  simp only [Rule.defaults, List.map_cons, List.map_nil, Rule.make, Rule.moveStorageCall, Value.chars,
    Rule.toList_keywordSource, Rule.toList_storageCallSource, Rule.toList_conformanceSource, hgetter, hhead]
  decide +kernel

theorem defaults_descriptions : (Rule.defaults.map (·.description.chars)).Nodup ∧
    ∀ cs ∈ Rule.defaults.map (·.description.chars), 'e' ∈ cs := by
  simp only [Rule.defaults, List.map_cons, List.map_nil, Rule.make, Rule.moveStorageCall, Value.chars,
    String.toList_append]
  repeat rw [String.toList_ofList]
  decide +kernel

theorem defaults_complete : ∀ r ∈ Rule.defaults, r.missingParts = [] := by
  have hreplacements : ∀ r ∈ Rule.defaults, r.replacement.isMissing = false := by decide
  have hcategories : ∀ r ∈ Rule.defaults, isMissing r.category = false := by decide
  intro r hr
  have hpattern := not_missing_of_visible (defaults_patterns _ (List.mem_map_of_mem hr)) (by decide)
  have hdescription := not_missing_of_visible (defaults_descriptions.2 _ (List.mem_map_of_mem hr)) (by decide)
  simp [Rule.missingParts, hpattern, hreplacements r hr, hdescription, hcategories r hr]

theorem defaults_sound [CharacterNames] : ∀ r ∈ Rule.defaults, r.Sound := by
  have hparts : ∀ r ∈ Rule.defaults, Rule.isCategory r.category = true ∧ r.description.truthy = true ∧
      r.description.isKey = true := by decide
  have hall : ∀ c ∈ Rule.defaults.map Rule.compile, ∃ p, c = .ok p := by
    rw [Rule.defaults_compile]
    simp
  intro r hr
  obtain ⟨hcategory, hdescribed, hkey⟩ := hparts r hr
  exact ⟨defaults_complete r hr, hcategory, hall _ (List.mem_map_of_mem hr), hdescribed, hkey⟩

theorem defaults_distinct : Rule.defaults.Pairwise fun a b => a.description.same b.description = false := by
  have htexts : ∀ r ∈ Rule.defaults, ∃ s, r.description = .text s := by
    simp [Rule.defaults, Rule.make, Rule.moveStorageCall]
  refine (List.pairwise_map.mp defaults_descriptions.1).imp_of_mem ?_
  intro a b ha hb hne
  obtain ⟨s, hs⟩ := htexts a ha
  obtain ⟨u, hu⟩ := htexts b hb
  rw [hs, hu] at hne ⊢
  have hdiffer : s ≠ u := fun h => hne (congrArg String.toList h)
  simp [Value.same, hdiffer]

theorem defaults_usable [CharacterNames] : ({} : RuleSet).usable = .ok {} :=
  usable_of_sound (by decide) (by decide) (List.cons_ne_nil _ _) defaults_sound ⟨defaults_distinct, by simp⟩

end Defaults

end CadenceUplift
