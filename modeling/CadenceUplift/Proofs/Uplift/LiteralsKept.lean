import CadenceUplift.Proofs.Literal.Viewed
import CadenceUplift.Proofs.Uplift.Redone

namespace CadenceUplift

open Text

/-- What a construct becomes holds no more literals than the construct. -/
theorem Redone.literalsFrom_eq {t : Target} {σ : Reader} {s s' : List Char} (h : Redone (Step.target t).Swap σ s s')
    (acc : List Char) : σ.literalsFrom acc s' = σ.literalsFrom acc s := by
  induction h generalizing acc with
  | nil σ => rfl
  | keep c _ ih => rw [Reader.literalsFrom_cons, Reader.literalsFrom_cons, ih]
  | change hswap hafter _ ih =>
    obtain ⟨hσ, ps, ps', c, _, _, rfl, rfl, _, _, hps, hps'⟩ := hswap
    rw [Reader.literalsFrom_append hσ (plains_stay hps') acc acc, Reader.literalsFrom_append hσ (plains_stay hps) acc acc,
      hafter, ih]

theorem literalTexts_after (t : Target) (s : List Char) :
    literalTexts ((Step.target t).after true s) = literalTexts s := by
  rw [literalTexts_eq, literalTexts_eq]
  exact Redone.literalsFrom_eq ((Step.target t).redone_after true s) []

theorem literalTexts_afterSteps {ss : List Step} (h : .getter ∉ ss) (s : List Char) :
    literalTexts (afterSteps true ss s) = literalTexts s := by
  induction ss generalizing s with
  | nil => rfl
  | cons st ss ih =>
    have hrest := ih (fun hmem => h (List.mem_cons_of_mem _ hmem)) (st.after true s)
    cases st with
    | getter => exact absurd List.mem_cons_self h
    | target t => exact hrest.trans (literalTexts_after t s)

section Kinds

theorem kinds_literalsFrom (σ : Reader) (acc acc' r : List Char) :
    (σ.literalsFrom acc r).map Prod.fst = (σ.literalsFrom acc' r).map Prod.fst := by
  induction r generalizing σ acc acc' with
  | nil => cases hk : σ.kind? <;> simp [Reader.literalsFrom, hk]
  | cons c r ih =>
    have hcompleted : (σ.completed acc c).map Prod.fst = (σ.completed acc' c).map Prod.fst := by
      unfold Reader.completed
      split <;> rfl
    rw [Reader.literalsFrom_cons, Reader.literalsFrom_cons, List.map_append, List.map_append, hcompleted, ih]

/-- Quiet characters complete no literal, wherever they stand. -/
theorem kinds_quiet {m : List Char} (hm : ∀ c ∈ m, Quiet c) (σ : Reader) (acc acc' r : List Char) :
    (σ.literalsFrom acc (m ++ r)).map Prod.fst = ((σ.after m).literalsFrom acc' r).map Prod.fst := by
  induction m generalizing σ acc with
  | nil => exact kinds_literalsFrom σ acc acc' r
  | cons c m ih =>
    rw [List.cons_append, Reader.literalsFrom_cons, completed_quiet (hm c List.mem_cons_self), List.nil_append]
    exact ih (fun d hd => hm d (List.mem_cons_of_mem _ hd)) _ _

theorem Redone.kinds_eq {st : Step} {σ : Reader} {s s' : List Char} (h : Redone st.Swap σ s s') (acc acc' : List Char) :
    (σ.literalsFrom acc s').map Prod.fst = (σ.literalsFrom acc' s).map Prod.fst := by
  cases st with
  | target t => rw [Redone.literalsFrom_eq h, kinds_literalsFrom]
  | getter =>
    have hold : ∀ c ∈ Word.function, Quiet c := by simp [Word.function, Quiet]
    have hnew : ∀ c ∈ Word.view ++ ' ' :: Word.function, Quiet c := by
      simp [Word.view, Word.function, Quiet]
    induction h generalizing acc acc' with
    | nil σ => exact kinds_literalsFrom σ acc acc' []
    | keep c _ ih =>
      rw [kinds_literalsFrom _ acc acc', Reader.literalsFrom_cons, Reader.literalsFrom_cons, List.map_append,
        List.map_append, ih]
    | change hswap hafter _ ih =>
      obtain ⟨rfl, rfl⟩ := hswap
      rw [kinds_quiet hnew _ acc acc, kinds_quiet hold _ acc' acc, hafter, ih]

/-- No step makes a comment of a string, or adds or takes a literal. -/
theorem kinds_afterSteps (ss : List Step) (s : List Char) :
    (literals (afterSteps true ss s)).map Literal.kind = (literals s).map Literal.kind := by
  have hkinds (u : List Char) : (literals u).map Literal.kind = (Reader.code.literalsFrom [] u).map Prod.fst := by
    rw [← literalTexts_eq, literalTexts, List.map_map]
    rfl
  induction ss generalizing s with
  | nil => rfl
  | cons st ss ih =>
    have hstep := (st.redone_after true s).kinds_eq [] []
    refine (ih (st.after true s)).trans ?_
    rw [hkinds, hkinds]
    exact hstep

end Kinds

/-- With the starting rules and literals left alone, the passes for access modifiers, conformance lists and account
members end, and each leaves the comments and strings of the text as they are, in order. -/
theorem upliftPass_keeps_literals [CharacterNames] (o : RunOptions) (ho : o.preserves = true) (c : Category)
    (hc : c ∈ [Category.accessModifier, .interface, .storage]) (s : List Char) :
    ∃ once, (RuleSet.mk o Rule.defaults).upliftPass (.text c.name) s = .ok once ∧
      literalTexts once.text = literalTexts s := by
  have hsteps : Step.getter ∉ stepsOf (.text c.name) := by
    revert c
    decide +kernel
  refine ⟨_, upliftPass_eq o (.text c.name) s, ?_⟩
  rw [ho]
  exact literalTexts_afterSteps hsteps s

theorem upliftPass_keeps_literals_storage :
    ({} : RunOptions).preserves = true ∧ Category.storage ∈ [Category.accessModifier, .interface, .storage] ∧
      ∃ once, (RuleSet.mk {} Rule.defaults).upliftPass (.text Category.storage.name)
          "account.save(\"account.save(\", a) // account.save(\n".toList = .ok once ∧
        literalTexts once.text = literalTexts "account.save(\"account.save(\", a) // account.save(\n".toList :=
  ⟨rfl, by decide, upliftPass_keeps_literals {} rfl .storage (by decide) _⟩

example : literalTexts "a // b\n\"c\"".toList = [(.comment, "// b".toList), (.string, "\"c\"".toList)] := by
  decide

end CadenceUplift
