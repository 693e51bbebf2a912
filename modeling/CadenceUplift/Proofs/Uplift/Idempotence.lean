import CadenceUplift.Proofs.Uplift.Defaults

namespace CadenceUplift

section Settled

variable {skipLiterals : Bool} {s : List Char}

theorem Target.load_afterSteps_zero {u : Target} (h : (Step.target u).load skipLiterals s = 0) (ss : List Step) :
    (Step.target u).load skipLiterals (afterSteps skipLiterals ss s) = 0 := by
  induction ss generalizing s with
  | nil => exact h
  | cons st ss ih => exact ih (load_after_zero h st)

/-- Steps with the one for getters at their end leave nothing that any of them looks for. -/
theorem afterSteps_settled {ss : List Step} (h : ss.Pairwise fun st _ => st ≠ .getter) (skipLiterals : Bool)
    (s : List Char) : ∀ st ∈ ss, st.load skipLiterals (afterSteps skipLiterals ss s) = 0 := by
  induction ss generalizing s with
  | nil => simp
  | cons st ss ih =>
    obtain ⟨hlast, hss⟩ := List.pairwise_cons.mp h
    intro u hu
    rcases List.mem_cons.mp hu with rfl | hmem
    · have hzero := u.load_after skipLiterals s
      cases u with
      | target t => exact Target.load_afterSteps_zero hzero ss
      | getter =>
        cases ss with
        | nil => exact hzero
        | cons st ss => exact absurd rfl (hlast st (by simp))
    · exact ih hss _ u hmem

/-- Steps that find nothing change nothing. -/
theorem steps_unchanged {ss : List Step} (h : ∀ st ∈ ss, st.load skipLiterals s = 0) :
    afterSteps skipLiterals ss s = s ∧ loadOfSteps skipLiterals ss s = 0 := by
  induction ss with
  | nil => exact ⟨rfl, rfl⟩
  | cons st ss ih =>
    have hst := h st (by simp)
    obtain ⟨hafter, hload⟩ := ih fun u hu => h u (by simp [hu])
    have hsame := Step.after_unchanged hst
    constructor
    · change afterSteps skipLiterals ss (st.after skipLiterals s) = s
      rw [hsame, hafter]
    · rw [loadOfSteps, hsame, hst, hload]

theorem loadsOfPasses_zero {cs : List Category} (h : ∀ st ∈ steps, st.load skipLiterals s = 0) :
    loadsOfPasses skipLiterals cs s = cs.map (·, 0) := by
  induction cs with
  | nil => rfl
  | cons c cs ih =>
    have hown : ∀ st ∈ stepsOf (.text c.name), st.load skipLiterals s = 0 := fun st hst =>
      h st (List.mem_of_mem_filter hst)
    obtain ⟨hafter, hload⟩ := steps_unchanged hown
    rw [loadsOfPasses, hafter, hload, ih]
    rfl

end Settled

theorem steps_pairwise : steps.Pairwise fun st _ => st ≠ .getter := by decide

/-- A text without anything to look for is its own uplift. -/
theorem uplift_settled [CharacterNames] {o : RunOptions} {s : List Char}
    (h : ∀ st ∈ steps, st.load o.preserves s = 0) :
    (RuleSet.mk o Rule.defaults).uplift s = .ok ⟨s, Category.ordered.map (·, 0), manualSteps s⟩ := by
  rw [uplift_eq, (steps_unchanged h).1, loadsOfPasses_zero h]

/-- With the starting rules and any options, an uplift ends, and an uplift of its text makes no replacement in any
pass and leaves the text as it is. The same holds of the pass of each category. -/
theorem uplift_idempotent [CharacterNames] (o : RunOptions) (s : List Char) :
    (∃ u, (RuleSet.mk o Rule.defaults).uplift s = .ok u ∧
      ∃ v, (RuleSet.mk o Rule.defaults).uplift u.text = .ok v ∧ v.text = u.text ∧
        v.counts = Category.ordered.map (·, 0)) ∧
    ∀ category : Value, ∃ once, (RuleSet.mk o Rule.defaults).upliftPass category s = .ok once ∧
      (RuleSet.mk o Rule.defaults).upliftPass category once.text = .ok ⟨once.text, 0⟩ := by
  constructor
  · have hsettled := afterSteps_settled steps_pairwise o.preserves s
    refine ⟨_, uplift_eq o s, ?_⟩
    dsimp only
    exact ⟨_, uplift_settled hsettled, by dsimp only, by dsimp only⟩
  · intro category
    have hpairwise : (stepsOf category).Pairwise fun st _ => st ≠ .getter := steps_pairwise.filter _
    have hsettled := afterSteps_settled hpairwise o.preserves s
    obtain ⟨hafter, hload⟩ := steps_unchanged hsettled
    refine ⟨_, upliftPass_eq o category s, ?_⟩
    dsimp only
    rw [upliftPass_eq, hafter, hload]

end CadenceUplift
