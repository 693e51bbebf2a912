import CadenceUplift.Proofs.Literal.Blanked

namespace CadenceUplift

/-- A quote that is left of a string: the one that it starts with, or one that it ends with. -/
def Literal.KeepsQuote (s : List Char) (l : Literal) (i : Nat) : Prop :=
  l.kind = .string ∧ (i = l.start ∨ i + 1 = l.stop ∧ s[i]? = some '"')

/-- `t` is `s` with its literals blanked. -/
structure BlankedAs (s t : List Char) : Prop where
  length_eq : t.length = s.length
  code : ∀ i, ¬Covered i (literals s) → t[i]? = s[i]?
  newline : ∀ i : Nat, s[i]? = some '\n' → t[i]? = some '\n'
  quote : ∀ l ∈ literals s, ∀ i, l.KeepsQuote s i → t[i]? = some '"'
  space : ∀ l ∈ literals s, ∀ i, l.start ≤ i → i < l.stop → s[i]? ≠ some '\n' → ¬l.KeepsQuote s i → t[i]? = some ' '

section Characters

variable {s : List Char} {l : Literal} {i : Nat} {c : Char}

theorem Literal.blankAt_newline (l : Literal) (i : Nat) : l.blankAt i '\n' = '\n' := by
  simp [Literal.blankAt]

/-- What stands at an offset of a literal that is neither a line end nor a quote to keep. -/
theorem Literal.blankAt_space (hc : s[i]? = some c) (hline : c ≠ '\n') (hquote : ¬l.KeepsQuote s i) :
    l.blankAt i c = ' ' := by
  rw [Literal.blankAt, if_neg hline]
  split
  next => rfl
  next hkind =>
    refine if_neg fun hends => hquote ⟨hkind, ?_⟩
    rcases hends with hstart | ⟨hstop, rfl⟩
    · exact .inl hstart
    · exact .inr ⟨hstop, hc⟩

/-- A quote to keep lies in its string, and is a quote. -/
theorem Literal.KeepsQuote.getElem? (h : l.KeepsQuote s i) (hl : l ∈ literals s) :
    l.start ≤ i ∧ i < l.stop ∧ s[i]? = some '"' := by
  have hbounded := (lexed_literals s).bounded l hl
  obtain ⟨hkind, rfl | ⟨hstop, hquote⟩⟩ := h
  · refine ⟨Nat.le_refl _, hbounded.1, ?_⟩
    cases (lexed_literals s).spelled l hl with
    | line | block => cases hkind
    | string hopen _ => exact hopen
  · exact ⟨by omega, by omega, hquote⟩

theorem Literal.KeepsQuote.blankAt (h : l.KeepsQuote s i) : l.blankAt i '"' = '"' := by
  obtain ⟨hkind, hends⟩ := h
  have hends : i = l.start ∨ i + 1 = l.stop ∧ '"' = '"' := hends.imp_right fun h => ⟨h.1, rfl⟩
  rw [Literal.blankAt, if_neg (by decide), hkind]
  exact if_pos hends

end Characters

theorem length_blankFrom (i : Nat) (ls : List Literal) (s : List Char) : (blankFrom i ls s).length = s.length := by
  induction s generalizing i ls with
  | nil => cases ls <;> rfl
  | cons c s ih =>
    cases ls with
    | nil => rfl
    | cons l ls =>
      rw [blankFrom]
      split
      next => rw [List.length_cons, List.length_cons, ih]
      next => rw [List.length_cons, List.length_cons, ih]

theorem blankedAs_codeOnly (s : List Char) : BlankedAs s (codeOnly s) := by
  refine ⟨length_blankFrom 0 _ s, fun i hfree => getElem?_codeOnly hfree, ?_, ?_, ?_⟩
  · intro i hline
    by_cases hcov : Covered i (literals s)
    · obtain ⟨l, hl, hstart, hstop⟩ := hcov
      rw [getElem?_codeOnly_literal hl hstart hstop, hline, Option.map_some, l.blankAt_newline]
    · rw [getElem?_codeOnly hcov, hline]
  · intro l hl i hkeeps
    obtain ⟨hstart, hstop, hquote⟩ := hkeeps.getElem? hl
    rw [getElem?_codeOnly_literal hl hstart hstop, hquote, Option.map_some, hkeeps.blankAt]
  · intro l hl i hstart hstop hline hquote
    have hi : i < s.length := Nat.lt_of_lt_of_le hstop ((lexed_literals s).bounded l hl).2
    have hc := List.getElem?_eq_getElem hi
    have hne : s[i] ≠ '\n' := fun h => hline (by rw [hc, h])
    rw [getElem?_codeOnly_literal hl hstart hstop, hc, Option.map_some, Literal.blankAt_space hc hne hquote]

/-- Every offset is told, so there is one blanked text only. -/
theorem BlankedAs.unique {s t t' : List Char} (h : BlankedAs s t) (h' : BlankedAs s t') : t = t' := by
  apply List.ext_getElem?
  intro i
  by_cases hcov : Covered i (literals s)
  · obtain ⟨l, hl, hstart, hstop⟩ := hcov
    by_cases hline : s[i]? = some '\n'
    · rw [h.newline i hline, h'.newline i hline]
    · by_cases hquote : l.KeepsQuote s i
      · rw [h.quote l hl i hquote, h'.quote l hl i hquote]
      · rw [h.space l hl i hstart hstop hline hquote, h'.space l hl i hstart hstop hline hquote]
  · rw [h.code i hcov, h'.code i hcov]

/-- A blanked text shows characters of code, line ends, quotes and spaces. -/
theorem BlankedAs.code_of_getElem? {s t : List Char} (h : BlankedAs s t) {i : Nat} {c : Char} (hc : t[i]? = some c)
    (hplain : c ∉ ['\n', '"', ' ']) : ¬Covered i (literals s) ∧ s[i]? = some c := by
  have hfree : ¬Covered i (literals s) := by
    rintro ⟨l, hl, hstart, hstop⟩
    by_cases hline : s[i]? = some '\n'
    · rw [h.newline i hline] at hc
      cases hc
      simp at hplain
    · by_cases hquote : l.KeepsQuote s i
      · rw [h.quote l hl i hquote] at hc
        cases hc
        simp at hplain
      · rw [h.space l hl i hstart hstop hline hquote] at hc
        cases hc
        simp at hplain
  exact ⟨hfree, by rw [← h.code i hfree, hc]⟩

/-- Two characters that open a comment would both be characters of code, where none opens. -/
theorem BlankedAs.kind_eq_string {s t : List Char} (h : BlankedAs s t) : ∀ l ∈ literals t, l.kind = .string := by
  intro l hl
  have hopens {a : Nat} {c : Char} (hslash : t[a]? = some '/') (hnext : t[a + 1]? = some c) (hc : c = '/' ∨ c = '*') :
      False := by
    obtain ⟨hfree, hslash⟩ := h.code_of_getElem? hslash (by decide)
    have hplain : c ∉ ['\n', '"', ' '] := by rcases hc with rfl | rfl <;> decide
    obtain ⟨_, hnext⟩ := h.code_of_getElem? hnext hplain
    refine (lexed_literals s).outside a hfree (.inr ⟨hslash, ?_⟩)
    rcases hc with rfl | rfl
    · exact .inl hnext
    · exact .inr hnext
  cases (lexed_literals t).spelled l hl with
  | line h₁ h₂ _ => exact (hopens h₁ h₂ (.inl rfl)).elim
  | block h₁ h₂ _ => exact (hopens h₁ h₂ (.inr rfl)).elim
  | string _ _ => rfl

/-- Blanking keeps every position: of all texts the blanked one alone is as long as the text, has its code and its line
ends, has the quotes at the ends of strings and spaces elsewhere in literals; and a reader of it finds strings only. -/
theorem codeOnly_exact (s t : List Char) :
    (t = codeOnly s ↔ BlankedAs s t) ∧ ∀ l ∈ literals (codeOnly s), l.kind = .string := by
  have hblanked := blankedAs_codeOnly s
  refine ⟨⟨?_, fun h => h.unique hblanked⟩, hblanked.kind_eq_string⟩
  rintro rfl
  exact hblanked

example : codeOnly "a /* \"/* */*/ \"b\\\"//\n\"c".toList = "a             \"     \n\" ".toList := by decide +kernel

end CadenceUplift
