import CadenceUplift.Proofs.Interactive.Modernization
import CadenceUplift.Proofs.Rule.Usable
import CadenceUplift.Proofs.Uplift.Failures
import CadenceUplift.Proofs.Uplift.LineEnds

namespace CadenceUplift

open Text

/-- A line with a comment on a change, perhaps behind blanks. -/
def IsNote (line : List Char) : Prop :=
  ∃ indent text, (∀ c ∈ indent, isBlank c = true) ∧ line = indent ++ ("// Modernized: ".toList ++ text)

/-- Lines with comments above some of them, and the same lines without the comments. -/
inductive Noted : List (List Char) → List (List Char) → Prop
  | nil : Noted [] []
  | line (l : List Char) {noted ls : List (List Char)} : Noted noted ls → Noted (l :: noted) (l :: ls)
  | note {n : List Char} (l : List Char) {noted ls : List (List Char)} : IsNote n → Noted noted ls →
      Noted (n :: l :: noted) (l :: ls)

theorem Noted.refl (ls : List (List Char)) : Noted ls ls := by
  induction ls with
  | nil => exact .nil
  | cons l ls ih => exact .line l ih

theorem Noted.sublist {noted ls : List (List Char)} (h : Noted noted ls) : ls.Sublist noted := by
  induction h with
  | nil => exact .slnil
  | line l _ ih => exact ih.cons_cons l
  | note l _ _ ih => exact (ih.cons_cons l).cons _

theorem isNote_explanationLine (fs : List Finding) (number : Nat) (new : List Char) :
    IsNote (explanationLine fs number new) := by
  rw [explanationLine, String.toList_append]
  exact ⟨_, _, List.all_eq_true.mp List.all_takeWhile, rfl⟩

/-- The comments are put between the lines of the new text, as far as the old one has lines. -/
theorem noted_explainLines (fs : List Finding) (number : Nat) (olds news : List (List Char)) :
    Noted (explainLines fs number olds news) (news.take olds.length) := by
  induction olds generalizing number news with
  | nil => exact .nil
  | cons old olds ih =>
    cases news with
    | nil => exact .nil
    | cons new news =>
      have hrest := ih (number + 1) news
      rw [explainLines]
      split
      · exact .line new hrest
      · exact .note new (isNote_explanationLine fs number new) hrest

section Newlines

variable {s : List Char} {fs : List Finding}

theorem newline_not_mem_intercalate {xs : List String} (h : ∀ x ∈ xs, '\n' ∉ x.toList) :
    '\n' ∉ ("; ".intercalate xs).toList := by
  rw [String.toList_intercalate]
  induction xs with
  | nil => simp
  | cons x xs ih =>
    have hx := h x (by simp)
    have hrest := ih fun y hy => h y (List.mem_cons_of_mem _ hy)
    cases xs with
    | nil => simpa using hx
    | cons y ys => simpa [List.intercalate, hx] using hrest

theorem newline_not_mem_suggestedFix : ∀ f ∈ legacyFindings s, '\n' ∉ f.suggestedFix.toList := by
  have hdetectors : ∀ d ∈ Legacy.detectors, '\n' ∉ d.suggestedFix.toList := by decide +kernel
  intro f hf
  obtain ⟨d, hd, M, _, _, _, hfix⟩ := exists_of_mem_legacyFindings hf
  rw [hfix]
  exact hdetectors d hd

theorem newline_not_mem_explanationLine (hfs : ∀ f ∈ fs, '\n' ∉ f.suggestedFix.toList) (number : Nat) {new : List Char}
    (hnew : '\n' ∉ new) : '\n' ∉ explanationLine fs number new := by
  have hindent : '\n' ∉ new.takeWhile isBlank := fun h => hnew (List.takeWhile_subset _ h)
  have hnote : '\n' ∉ ("; ".intercalate (lineFixes fs number)).toList := by
    apply newline_not_mem_intercalate
    intro x hx
    obtain ⟨f, hf, rfl⟩ := List.mem_map.mp (List.mem_eraseDups.mp hx)
    exact hfs f (List.mem_of_mem_filter hf)
  have hlead : '\n' ∉ "// Modernized: ".toList := by decide
  rw [explanationLine, String.toList_append, List.mem_append, List.mem_append]
  split
  · have hdefault : '\n' ∉ "Updated to Cadence 1.0 syntax".toList := by decide
    simp only [hindent, hlead, hdefault, or_self, not_false_iff]
  · simp only [hindent, hlead, hnote, or_self, not_false_iff]

theorem newline_not_mem_explainLines (hfs : ∀ f ∈ fs, '\n' ∉ f.suggestedFix.toList) (number : Nat)
    (olds : List (List Char)) {news : List (List Char)} (hnews : ∀ l ∈ news, '\n' ∉ l) :
    ∀ l ∈ explainLines fs number olds news, '\n' ∉ l := by
  induction olds generalizing number news with
  | nil => simp [explainLines]
  | cons old olds ih =>
    cases news with
    | nil => simp [explainLines]
    | cons new news =>
      obtain ⟨hnew, hrest⟩ := List.forall_mem_cons.mp hnews
      have hlater := ih (number + 1) hrest
      have hnote := newline_not_mem_explanationLine hfs number hnew
      rw [explainLines, List.forall_mem_append]
      refine ⟨?_, hlater⟩
      split
      · simpa using hnew
      · simpa using ⟨hnote, hnew⟩

theorem explainLines_ne_nil (number : Nat) {olds news : List (List Char)} (ho : olds ≠ []) (hn : news ≠ []) :
    explainLines fs number olds news ≠ [] := by
  obtain ⟨old, olds, rfl⟩ := List.exists_cons_of_ne_nil ho
  obtain ⟨new, news, rfl⟩ := List.exists_cons_of_ne_nil hn
  rw [explainLines]
  split <;> simp

theorem noted_addExplanations (s done : List Char) :
    Noted (lines (addExplanations s done (legacyFindings s))) ((lines done).take (lines s).length) := by
  have hne : explainLines (legacyFindings s) 1 (lines s) (lines done) ≠ [] :=
    explainLines_ne_nil 1 (lines_ne_nil s) (lines_ne_nil done)
  have hnewline : ∀ l ∈ explainLines (legacyFindings s) 1 (lines s) (lines done), '\n' ∉ l :=
    newline_not_mem_explainLines newline_not_mem_suggestedFix 1 _ fun l hl => newline_not_mem_lines hl
  rw [addExplanations, lines_unlines hne hnewline]
  exact noted_explainLines _ 1 _ _

end Newlines

/-- With any rules, a modernization with comments fails as the one without them does, or both end and differ in the
text alone. Without its comments the text with comments has the lines of the other one, in order, as many of them as
the old text has lines: all of them, if the modernization adds no lines. With the starting rules it adds none. -/
theorem explanations_keep_lines [CharacterNames] (r : RuleSet) (o : ModernizeOptions) (s : List Char) :
    (∃ e, modernize r { o with addComments := false } s = .error e ∧
      modernize r { o with addComments := true } s = .error e) ∨
    ∃ plain explained, modernize r { o with addComments := false } s = .ok plain ∧
      modernize r { o with addComments := true } s = .ok { plain with text := explained } ∧
      Noted (lines explained) ((lines plain.text).take (lines s).length) ∧
      ((lines plain.text).length ≤ (lines s).length → Noted (lines explained) (lines plain.text)) ∧
      (r.rules = Rule.defaults → (lines plain.text).length ≤ (lines s).length) := by
  cases hdone : rewriteFor r o s with
  | error e => exact .inl ⟨e, modernize_of_error hdone false, modernize_of_error hdone true⟩
  | ok rewritten =>
    obtain ⟨done, applied⟩ := rewritten
    obtain ⟨m, rfl, hm⟩ := modernize_of_rewriteFor hdone
    have hnoted : Noted (lines (if true && m.text != s then addExplanations s m.text (legacyFindings s) else m.text))
        ((lines m.text).take (lines s).length) := by
      by_cases hs : m.text = s
      · simp [hs, Noted.refl]
      · simpa [hs] using noted_addExplanations s m.text
    refine .inr ⟨m, _, hm false, hm true, hnoted, ?_, ?_⟩
    · intro hle
      rwa [List.take_of_length_le hle] at hnoted
    · intro hrules
      obtain ⟨options, rules⟩ := r
      obtain rfl : rules = Rule.defaults := hrules
      obtain ⟨applied', hsteps⟩ := rewriteFor_eq options o s
      obtain ⟨htext, _⟩ := Prod.mk.inj (Except.ok.inj (hdone.symm.trans hsteps))
      rw [htext, length_lines, length_lines]
      exact Nat.succ_le_succ (count_afterSteps_le _ _ s)

/-- The starting rules, and one that breaks the line behind a colon. -/
def breakingSet : RuleSet :=
  { rules := Rule.defaults ++ [.make ":" ":\n" "Break the line behind a colon" .accessModifier] }

theorem breakingSet_usable : breakingSet.usable = .ok breakingSet := by
  refine usable_of_sound (by decide) (by decide) (List.append_ne_nil_of_left_ne_nil (List.cons_ne_nil _ _) _) ?_ ⟨?_, by simp⟩
  · intro rule hrule
    rcases List.mem_append.mp hrule with hrule | hrule
    · exact defaults_sound rule hrule
    · rw [List.mem_singleton.mp hrule]
      exact ⟨by decide, by decide, exists_ok_of_toBool (by decide +kernel), by decide, by decide⟩
  · have hdistinct : breakingSet.rules.Pairwise fun a b => a.description.same b.description = false := by decide +kernel
    exact hdistinct

/-- A rule that breaks a line makes the comments push the last line out of the text. -/
theorem explanations_drop_line :
    breakingSet.usable = .ok breakingSet ∧
    ∃ plain explained, modernize breakingSet {} "pub var a: Int".toList = .ok plain ∧
      modernize breakingSet { addComments := true } "pub var a: Int".toList = .ok explained ∧
      lines plain.text = ["access(all) var a:".toList, " Int".toList] ∧
      lines explained.text = ["// Modernized: Replace with access(all) or appropriate access modifier".toList,
        "access(all) var a:".toList] ∧
      ¬Noted (lines explained.text) (lines plain.text) := by
  have hfindings : (scanText .discard "pub var a: Int".toList inputName (some true)).findings =
      [⟨.pubKeyword, "pub ", ⟨inputName, 1, 1, "pub var a: Int"⟩, .critical, "Legacy pub keyword found",
        "Replace with access(all) or appropriate access modifier", .high⟩] := by decide +kernel
  have hlegacy := legacyFindings_eq_singleton hfindings
  have htext : (rewriteFor breakingSet {} "pub var a: Int".toList).toOption.map (·.1) =
      some "access(all) var a:\n Int".toList := by
    rw [rewriteFor, hlegacy]
    decide +kernel
  obtain ⟨applied, hdone⟩ := exists_of_rewriteFor_text htext
  obtain ⟨m, hm, hboth⟩ := modernize_of_rewriteFor hdone
  refine ⟨breakingSet_usable, _, _, hboth false, hboth true, ?_⟩
  dsimp only
  rw [hlegacy]
  refine ⟨by decide +kernel, by decide +kernel, ?_⟩
  intro hnoted
  exact absurd hnoted.sublist (by decide +kernel)

end CadenceUplift
