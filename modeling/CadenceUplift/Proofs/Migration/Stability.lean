import CadenceUplift.Proofs.Migration.RunIntegrity

namespace CadenceUplift

/-- Code that passes the check after an uplift needs no migration. -/
theorem isLegacy_of_checkMigrated {code : List Char} (h : (checkMigrated code).valid = true) : isLegacy code = false := by
  have herrors := List.append_eq_nil_iff.mp (List.isEmpty_iff.mp h)
  have hall := List.filterMap_eq_nil_iff.mp herrors.1
  have hpatterns : (Legacy.outdated.zip legacyLabels).map Prod.fst = Legacy.outdated := List.map_fst_zip (by decide)
  rw [isLegacy, List.any_eq_false]
  intro p hp hoccurs
  rw [← hpatterns] at hp
  obtain ⟨q, hq, rfl⟩ := List.mem_map.mp hp
  have hnone := hall q hq
  rw [if_pos hoccurs] at hnone
  cases hnone

/-- The code of a template that was migrated with success is not legacy code. -/
theorem Outcome.Of.modern [CharacterNames] {r : RuleSet} {t : Template} {o : Outcome} (h : Outcome.Of r t o)
    (hvalidates : r.options.validates = true) (hsuccess : o.success = true) :
    ∃ code, o.migrated.code.blanked = .ok code ∧ isLegacy code = false := by
  cases h with
  | skipped hblanked hmodern => exact ⟨_, hblanked, hmodern⟩
  | rejected _ _ _ _ _ _ hfailed =>
    rw [hfailed] at hsuccess
    cases hsuccess
  | accepted u _ _ _ _ _ _ hmodern hchecked =>
    obtain ⟨s, _, _, hcode⟩ := hmodern.code
    refine ⟨codeOnly u.text, ?_, isLegacy_of_checkMigrated (hchecked hvalidates)⟩
    rw [hcode, Value.blanked, String.toList_ofList]

section Attempts

variable [CharacterNames] {r : RuleSet} (hvalidates : r.options.validates = true) (t : Template)

include hvalidates

/-- The code of an accepted template is not legacy code. -/
theorem attempt_modern (h : (attempt r t).1.accepted = true) :
    ∃ code, (attempt r t).1.migrated.code.blanked = .ok code ∧ isLegacy code = false := by
  obtain ⟨e, he⟩ | hof := attempt_cases r t
  · rw [he] at h
    cases h
  · exact hof.modern hvalidates (Bool.and_eq_true_iff.mp h).2

/-- A second attempt skips what was accepted, and otherwise comes to the same. -/
theorem attempt_again :
    if (attempt r t).1.accepted then
      (attempt r (attempt r t).1.migrated).1 = .skipped (attempt r t).1.migrated
    else (attempt r t).1.migrated = t := by
  split
  next haccepted =>
    obtain ⟨code, hcode, hmodern⟩ := attempt_modern hvalidates t haccepted
    exact attempt_ok r _ (migrate_skips hcode hmodern)
  next hrejected => exact attempt_migrated r t (by simpa using hrejected)

theorem migrated_again : (attempt r (attempt r t).1.migrated).1.migrated = (attempt r t).1.migrated := by
  have hagain := attempt_again hvalidates t
  split at hagain
  next => rw [hagain]; rfl
  next => rw [hagain, hagain]

theorem accepted_again : (attempt r (attempt r t).1.migrated).1.accepted = false := by
  have hagain := attempt_again hvalidates t
  split at hagain
  next => rw [hagain]; rfl
  next hrejected => rw [hagain]; simpa using hrejected

theorem failed_again :
    ((attempt r (attempt r t).1.migrated).1.needed && !(attempt r (attempt r t).1.migrated).1.success) =
      ((attempt r t).1.needed && !(attempt r t).1.success) := by
  have hagain := attempt_again hvalidates t
  split at hagain
  next haccepted =>
    have hsuccess : (attempt r t).1.success = true := (Bool.and_eq_true_iff.mp haccepted).2
    rw [hagain, hsuccess, Bool.not_true, Bool.and_false]
    rfl
  next => rw [hagain]

end Attempts

section Runs

variable {c : Session} {rules : RuleSet}

/-- A run that nobody stops makes an attempt at every template. -/
theorem run_complete_eq [CharacterNames] (h : c.ruleSet.usable = .ok rules) (corpus : List Template) :
    ∃ c', c.run corpus [] = .ok (runOver rules corpus corpus.length, c') ∧ c'.ruleSet = c.ruleSet := by
  unfold Session.run runOver
  rw [h, handedOut_unasked, List.take_length]
  exact ⟨_, rfl, rfl⟩

theorem outcomes_complete [CharacterNames] (corpus : List Template) :
    (runOver rules corpus corpus.length).outcomes = corpus.map fun t => (attempt rules t).1 := by
  rw [outcomes_runOver, List.take_length]

theorem migrated_complete [CharacterNames] (corpus : List Template) :
    (runOver rules corpus corpus.length).migrated = corpus.map fun t => (attempt rules t).1.migrated := by
  apply List.ext_getElem?
  intro i
  rw [List.getElem?_map]
  cases ht : corpus[i]? with
  | none =>
    have hlength : (runOver rules corpus corpus.length).migrated.length = corpus.length := by
      change (corpus.zipIdx.map _).length = _
      simp
    have hle := List.getElem?_eq_none_iff.mp ht
    rw [List.getElem?_eq_none (by omega)]
    rfl
  | some t =>
    have hi : i < corpus.length := (List.getElem?_eq_some_iff.mp ht).1
    rw [migrated_runOver ht, if_pos hi]
    rfl

/-- With a usable rule set that checks what it uplifts, a run over any corpus and a second run over the templates that
it leaves both end. The second one leaves every template as it is, has no success and no replacement to count, and as
many failures as the first. -/
theorem run_again [CharacterNames] (h : c.ruleSet.usable = .ok rules) (hvalidates : rules.options.validates = true)
    (corpus : List Template) :
    ∃ first c', c.run corpus [] = .ok (first, c') ∧
      ∃ second c'', c'.run first.migrated [] = .ok (second, c'') ∧ second.migrated = first.migrated ∧
        second.statistics.successful = 0 ∧ second.statistics.transformations = 0 ∧
        second.statistics.failed = first.statistics.failed := by
  obtain ⟨c', hfirst, hrules⟩ := run_complete_eq h corpus
  refine ⟨_, c', hfirst, ?_⟩
  rw [← hrules] at h
  obtain ⟨c'', hsecond, _⟩ := run_complete_eq h (runOver rules corpus corpus.length).migrated
  refine ⟨_, c'', hsecond, ?_⟩
  have haccepted : (runOver rules (runOver rules corpus corpus.length).migrated
      (runOver rules corpus corpus.length).migrated.length).outcomes.filter (·.accepted) = [] := by
    rw [outcomes_complete, migrated_complete, List.filter_eq_nil_iff]
    simp only [List.map_map, List.mem_map]
    rintro o ⟨t, _, rfl⟩
    simpa using accepted_again hvalidates t
  refine ⟨?_, ?_, ?_, ?_⟩
  · rw [migrated_complete, migrated_complete, List.map_map]
    exact List.map_congr_left fun t _ => migrated_again hvalidates t
  · exact List.length_eq_zero_iff.mpr haccepted
  · exact congrArg (fun os => sumOf (os.map (·.substitutions))) haccepted
  · change ((runOver rules _ _).outcomes.filter fun o => o.needed && !o.success).length =
      ((runOver rules corpus _).outcomes.filter fun o => o.needed && !o.success).length
    rw [outcomes_complete, outcomes_complete, migrated_complete, List.map_map, List.filter_map, List.filter_map,
      List.length_map, List.length_map]
    refine congrArg List.length (List.filter_congr fun t _ => ?_)
    exact failed_again hvalidates t

end Runs

theorem run_again_mixed :
    ({} : Session).ruleSet.usable = .ok {} ∧ ({} : RuleSet).options.validates = true ∧
      ∃ first c', ({} : Session).run
          [.sample "a" "pub var x: Int" "", .sample "b" "pub /* c */ var y: Int" "", .sample "d" "let z = 1" ""] [] =
            .ok (first, c') ∧
        ∃ second c'', c'.run first.migrated [] = .ok (second, c'') ∧ second.migrated = first.migrated ∧
          second.statistics.successful = 0 ∧ second.statistics.transformations = 0 ∧
          second.statistics.failed = first.statistics.failed :=
  ⟨defaults_usable, rfl, run_again (c := {}) defaults_usable rfl _⟩

end CadenceUplift
