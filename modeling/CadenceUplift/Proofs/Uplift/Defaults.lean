import CadenceUplift.Proofs.Uplift.Steps
import Mathlib.Data.List.Forall2

namespace CadenceUplift

open Text Pattern

/-- The steps of the starting rules, in order. -/
def steps : List Step :=
  [.target (.keyword true), .target (.keyword false), .target .conformance, .target (.member .save),
    .target (.member .load), .target (.member .borrow), .target (.member .copy),
    .target (.member .getCapability), .getter]

/-- A rule does what the step does, in the pass of the step. -/
structure Rule.Acts [CharacterNames] (r : Rule) (st : Step) : Prop where
  category : r.category = .text st.category.name
  apply : ∀ s skipLiterals, r.apply s skipLiterals = st.run skipLiterals s

/-- The texts of a rule read as the pattern and the writing of the step, in the pass of the step. -/
structure Rule.Realizes [CharacterNames] (r : Rule) (st : Step) : Prop where
  category : r.category = .text st.category.name
  compiled : ∃ p, r.compile = .ok p ∧ p.pattern = st.pattern ∧
    Rule.replace p r.replacement = fun M t => .ok (st.write M t)

theorem Rule.Realizes.acts [CharacterNames] {r : Rule} {st : Step} (h : r.Realizes st) : r.Acts st := by
  refine ⟨h.category, ?_⟩
  intro s skipLiterals
  obtain ⟨p, hp, hpattern, hreplace⟩ := h.compiled
  rw [Rule.apply, hp]
  change replaceInCode p.pattern (Rule.replace p r.replacement) s skipLiterals = _
  rw [hreplace, hpattern]
  rfl

theorem expandParts_chars (M : Match) (t : Array Char) (cs : List Char) :
    expandParts M t (cs.map .char) = cs := by
  induction cs with
  | nil => rfl
  | cons c cs ih => simpa [expandParts] using ih

theorem Rule.replace_template {p : Compiled} {template : String} {parts : List TemplatePart}
    (hparts : (p.parseTemplate template).toOption = some parts) :
    Rule.replace p (.template (.text template)) = fun M t => .ok (expandParts M t parts) := by
  funext M t
  cases htemplate : p.parseTemplate template with
  | error e => rw [htemplate] at hparts; cases hparts
  | ok parts' =>
    obtain rfl : parts' = parts := by simpa [htemplate, Except.toOption] using hparts
    simp only [Rule.replace, Compiled.expand, htemplate]
    rfl

section Reading

variable [CharacterNames] {r : Rule} {source : String} {p : Compiled}

theorem Rule.realizes_of_parse (st : Step) (hpattern : r.pattern = .text source)
    (hparse : parse source = .ok p) (hst : p.pattern = st.pattern)
    (hreplace : Rule.replace p r.replacement = fun M t => .ok (st.write M t))
    (hcategory : r.category = .text st.category.name) : r.Realizes st :=
  ⟨hcategory, p, Rule.compile_of_parse hpattern hparse, hst, hreplace⟩

/-- Rules that write the same text for each match. -/
theorem Rule.realizes_fixed {template description : String} {cs : List Char} (st : Step)
    (hparse : parse source = .ok p) (hst : p.pattern = st.pattern)
    (hparts : (p.parseTemplate template).toOption = some (cs.map .char)) (hwrite : st.write = fun _ _ => cs) :
    (Rule.make source template description st.category).Realizes st := by
  refine Rule.realizes_of_parse st rfl hparse hst ?_ rfl
  rw [Rule.make, Rule.replace_template hparts, hwrite]
  simp only [expandParts_chars]

end Reading

theorem getter_parts (M : Match) (t : Array Char) :
    expandParts M t (.group 1 :: ((Word.view ++ [' ']).map .char ++ [.group 2])) = insertView M t := by
  have h := expandParts_chars M t (Word.view ++ [' '])
  simp only [expandParts, insertView, List.flatMap_cons, List.flatMap_append] at h ⊢
  rw [h]
  simp

/-- The starting rules are the steps, written as texts. -/
theorem defaults_realize [CharacterNames] : List.Forall₂ Rule.Realizes Rule.defaults steps := by
  have hstorage {name : String} (hname : name ∈ ["save", "load", "borrow", "copy"]) :=
    Rule.parse_storageCall name hname
  refine .cons (Rule.realizes_fixed (.target (.keyword true)) Rule.parse_pubSet rfl (by decide +kernel) rfl) ?_
  refine .cons (Rule.realizes_fixed (.target (.keyword false)) Rule.parse_pub rfl (by decide +kernel) rfl) ?_
  refine .cons (Rule.realizes_of_parse (.target .conformance) rfl Rule.parse_conformance rfl rfl rfl) ?_
  refine .cons (Rule.realizes_fixed (.target (.member .save)) (hstorage (by decide)) rfl (by decide +kernel) rfl) ?_
  refine .cons (Rule.realizes_fixed (.target (.member .load)) (hstorage (by decide)) rfl (by decide +kernel) rfl) ?_
  refine .cons (Rule.realizes_fixed (.target (.member .borrow)) (hstorage (by decide)) rfl (by decide +kernel) rfl) ?_
  refine .cons (Rule.realizes_fixed (.target (.member .copy)) (hstorage (by decide)) rfl (by decide +kernel) rfl) ?_
  refine .cons (Rule.realizes_fixed (.target (.member .getCapability)) Rule.parse_getCapability rfl
    (by decide +kernel) rfl) ?_
  refine .cons (Rule.realizes_of_parse .getter rfl Rule.parse_getter rfl ?_ rfl) .nil
  have hparts : (Compiled.parseTemplate ⟨Legacy.getter, 2, []⟩ "\\1view \\2").toOption =
      some (.group 1 :: ((Word.view ++ [' ']).map .char ++ [.group 2])) := by decide +kernel
  rw [Rule.make, Rule.replace_template hparts]
  simp only [getter_parts]
  rfl

/-- The steps of the pass of a category, which may be any value. -/
def stepsOf (category : Value) : List Step :=
  steps.filter fun st => (Value.text st.category.name).same category

theorem filter_realize [CharacterNames] (category : Value) {rs : List Rule} {ss : List Step}
    (h : List.Forall₂ Rule.Realizes rs ss) :
    List.Forall₂ Rule.Realizes (rs.filter fun r => r.category.same category)
      (ss.filter fun st => (Value.text st.category.name).same category) := by
  induction h with
  | nil => exact .nil
  | @cons r st rs ss hr _ ih =>
    rw [List.filter_cons, List.filter_cons, hr.category]
    split
    · exact .cons hr ih
    · exact ih

/-- The text after some steps. -/
def afterSteps (skipLiterals : Bool) (ss : List Step) (s : List Char) : List Char :=
  ss.foldl (fun s st => st.after skipLiterals s) s

/-- The number of places that some steps change, one after another. -/
def loadOfSteps (skipLiterals : Bool) : List Step → List Char → Nat
  | [], _ => 0
  | st :: ss, s => st.load skipLiterals s + loadOfSteps skipLiterals ss (st.after skipLiterals s)

theorem applyRules_acts [CharacterNames] (skipLiterals : Bool) {rs : List Rule} {ss : List Step}
    (h : List.Forall₂ Rule.Acts rs ss) (s : List Char) (n : Nat) :
    applyRules skipLiterals rs ⟨s, n⟩ =
      .ok ⟨afterSteps skipLiterals ss s, n + loadOfSteps skipLiterals ss s⟩ := by
  induction h generalizing s n with
  | nil => rfl
  | @cons r st rs ss hr _ ih =>
    rw [applyRules, hr.apply, st.run_eq]
    change applyRules skipLiterals rs ⟨st.after skipLiterals s, n + st.load skipLiterals s⟩ = _
    rw [ih, Nat.add_assoc]
    rfl

/-- A pass of the starting rules ends, with the text after its steps and the number of their changes. -/
theorem upliftPass_eq [CharacterNames] (o : RunOptions) (category : Value) (s : List Char) :
    (RuleSet.mk o Rule.defaults).upliftPass category s =
      .ok ⟨afterSteps o.preserves (stepsOf category) s, loadOfSteps o.preserves (stepsOf category) s⟩ := by
  have hacts := (filter_realize category defaults_realize).imp fun _ _ h => h.acts
  have h := applyRules_acts o.preserves hacts s 0
  rw [Nat.zero_add] at h
  exact h

/-- The steps of some passes, in order. -/
def stepsOfAll (cs : List Category) : List Step := cs.flatMap fun c => stepsOf (.text c.name)

theorem afterSteps_stepsOfAll_cons (skipLiterals : Bool) (c : Category) (cs : List Category) (s : List Char) :
    afterSteps skipLiterals (stepsOfAll (c :: cs)) s =
      afterSteps skipLiterals (stepsOfAll cs) (afterSteps skipLiterals (stepsOf (.text c.name)) s) := by
  rw [stepsOfAll, List.flatMap_cons, afterSteps, List.foldl_append]
  rfl

/-- The changes of each of some passes, one pass after another. -/
def loadsOfPasses (skipLiterals : Bool) : List Category → List Char → List (Category × Nat)
  | [], _ => []
  | c :: cs, s =>
    (c, loadOfSteps skipLiterals (stepsOf (.text c.name)) s) ::
      loadsOfPasses skipLiterals cs (afterSteps skipLiterals (stepsOf (.text c.name)) s)

theorem runPasses_eq [CharacterNames] (o : RunOptions) (cs : List Category) (s : List Char) :
    (RuleSet.mk o Rule.defaults).runPasses cs s =
      .ok (afterSteps o.preserves (stepsOfAll cs) s, loadsOfPasses o.preserves cs s) := by
  induction cs generalizing s with
  | nil => rfl
  | cons c cs ih =>
    rw [RuleSet.runPasses, upliftPass_eq]
    change (RuleSet.runPasses _ cs (afterSteps o.preserves (stepsOf (.text c.name)) s) >>= _) = _
    rw [ih, afterSteps_stepsOfAll_cons]
    rfl

/-- The passes in their order take the steps in theirs. -/
theorem stepsOfAll_ordered : stepsOfAll Category.ordered = steps := by decide +kernel

/-- An uplift by the starting rules ends, with the text after all steps. -/
theorem uplift_eq [CharacterNames] (o : RunOptions) (s : List Char) :
    (RuleSet.mk o Rule.defaults).uplift s =
      .ok ⟨afterSteps o.preserves steps s, loadsOfPasses o.preserves Category.ordered s, manualSteps s⟩ := by
  rw [RuleSet.uplift, runPasses_eq, stepsOfAll_ordered]
  rfl

end CadenceUplift
