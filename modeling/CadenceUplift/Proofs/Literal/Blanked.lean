import CadenceUplift.Literal.Blank
import CadenceUplift.Proofs.Literal.Exactness

namespace CadenceUplift

section Blanking

variable {i : Nat} {ls : List Literal}

/-- Literals in order and apart, none of them at an end before the offset. -/
structure Ahead (i : Nat) (ls : List Literal) : Prop where
  sorted : ls.Pairwise fun l l' => l.stop ≤ l'.start
  bounded : ∀ l ∈ ls, l.start < l.stop
  later : ∀ l ∈ ls, i < l.stop

theorem Ahead.tail {l : Literal} (h : Ahead i (l :: ls)) (hstop : i + 1 = l.stop) : Ahead (i + 1) ls := by
  obtain ⟨hnext, hsorted⟩ := List.pairwise_cons.mp h.sorted
  refine ⟨hsorted, fun l' hl' => h.bounded l' (by simp [hl']), ?_⟩
  intro l' hl'
  have hle := hnext l' hl'
  have hlt := h.bounded l' (by simp [hl'])
  omega

theorem Ahead.further {l : Literal} (h : Ahead i (l :: ls)) (hstop : i + 1 < l.stop) : Ahead (i + 1) (l :: ls) := by
  have hnext := (List.pairwise_cons.mp h.sorted).1
  refine ⟨h.sorted, h.bounded, ?_⟩
  intro l' hl'
  rcases List.mem_cons.mp hl' with rfl | hl'
  · exact hstop
  · have hle := hnext l' hl'
    have hlt := h.bounded l' (by simp [hl'])
    omega

/-- An offset in front of the first literal is in none. -/
theorem Ahead.not_covered {l : Literal} (h : Ahead i (l :: ls)) (hstart : i < l.start) : ¬Covered i (l :: ls) := by
  rintro ⟨l', hl', hle, _⟩
  rcases List.mem_cons.mp hl' with rfl | hl'
  · omega
  · have hnext := (List.pairwise_cons.mp h.sorted).1 l' hl'
    have hlt := h.bounded l (by simp)
    omega

/-- What blanking does to one character, and the literals that it goes on with. -/
theorem blankFrom_step (h : Ahead i ls) (c : Char) (r : List Char) :
    ∃ c' ls', blankFrom i ls (c :: r) = c' :: blankFrom (i + 1) ls' r ∧ Ahead (i + 1) ls' ∧
      (∀ j, i < j → (Covered j ls' ↔ Covered j ls)) ∧ (∀ l ∈ ls', l ∈ ls) ∧
      (¬Covered i ls ∧ c' = c ∨ ∃ l ∈ ls, l.start ≤ i ∧ i < l.stop ∧ c' = l.blankAt i c) := by
  cases ls with
  | nil =>
    have hnil : blankFrom (i + 1) [] r = r := by cases r <;> rfl
    refine ⟨c, [], by rw [hnil]; rfl, ⟨.nil, by simp, by simp⟩, by simp, by simp, .inl ⟨by simp [Covered], rfl⟩⟩
  | cons l ls =>
    have hstop := h.later l (by simp)
    by_cases hstart : i < l.start
    · refine ⟨c, l :: ls, by rw [blankFrom, if_pos hstart], h.further ?_, by simp, by simp, .inl ⟨h.not_covered hstart, rfl⟩⟩
      have hlt := h.bounded l (by simp)
      omega
    · have hin : ∃ l' ∈ l :: ls, l'.start ≤ i ∧ i < l'.stop ∧ l.blankAt i c = l'.blankAt i c :=
        ⟨l, by simp, by omega, hstop, rfl⟩
      by_cases hlast : i + 1 < l.stop
      · refine ⟨l.blankAt i c, l :: ls, ?_, h.further hlast, by simp, by simp, .inr hin⟩
        rw [blankFrom, if_neg hstart, if_pos hlast]
      · refine ⟨l.blankAt i c, ls, ?_, h.tail (by omega), ?_, fun l' hl' => by simp [hl'], .inr hin⟩
        · rw [blankFrom, if_neg hstart, if_neg hlast]
        · intro j hj
          rw [covered_cons_of_le (by omega)]

/-- Blanking keeps what no literal has, and blanks the rest literal by literal. -/
theorem getElem?_blankFrom (r : List Char) {i : Nat} {ls : List Literal} (h : Ahead i ls) (k : Nat) :
    (¬Covered (i + k) ls → (blankFrom i ls r)[k]? = r[k]?) ∧
      (Covered (i + k) ls →
        ∃ l ∈ ls, l.start ≤ i + k ∧ i + k < l.stop ∧ (blankFrom i ls r)[k]? = r[k]?.map (l.blankAt (i + k))) := by
  induction r generalizing i ls k with
  | nil =>
    have hnil : blankFrom i ls [] = [] := by cases ls <;> rfl
    rw [hnil]
    refine ⟨fun _ => rfl, ?_⟩
    rintro ⟨l, hl, hstart, hstop⟩
    exact ⟨l, hl, hstart, hstop, rfl⟩
  | cons c r ih =>
    obtain ⟨c', ls', hblank, hahead, hcov, hmem, hc'⟩ := blankFrom_step h c r
    rw [hblank]
    cases k with
    | zero =>
      rcases hc' with ⟨hfree, rfl⟩ | ⟨l, hl, hstart, hstop, rfl⟩
      · exact ⟨fun _ => rfl, fun hin => absurd hin hfree⟩
      · exact ⟨fun hfree => absurd ⟨l, hl, hstart, hstop⟩ hfree, fun _ => ⟨l, hl, hstart, hstop, rfl⟩⟩
    | succ k =>
      have hshift : i + 1 + k = i + (k + 1) := by omega
      obtain ⟨hfree, hin⟩ := ih hahead k
      rw [hshift, hcov _ (by omega)] at hfree hin
      refine ⟨hfree, ?_⟩
      intro h
      obtain ⟨l, hl, hl'⟩ := hin h
      exact ⟨l, hmem l hl, hl'⟩

end Blanking

section Offsets

variable {s : List Char} {i : Nat}

theorem ahead_literals (s : List Char) : Ahead 0 (literals s) := by
  have hlexed := lexed_literals s
  refine ⟨hlexed.sorted, fun l hl => (hlexed.bounded l hl).1, fun l hl => ?_⟩
  exact Nat.lt_of_le_of_lt (Nat.zero_le _) (hlexed.bounded l hl).1

theorem getElem?_codeOnly (h : ¬Covered i (literals s)) : (codeOnly s)[i]? = s[i]? := by
  have hfree := (getElem?_blankFrom s (ahead_literals s) i).1
  rw [Nat.zero_add] at hfree
  exact hfree h

/-- At most one literal has an offset. -/
theorem covering_unique {l l' : Literal} (hl : l ∈ literals s) (hl' : l' ∈ literals s) (h₁ : l.start ≤ i)
    (h₂ : i < l.stop) (h₁' : l'.start ≤ i) (h₂' : i < l'.stop) : l = l' := by
  obtain ⟨a, ha, rfl⟩ := List.mem_iff_getElem.mp hl
  obtain ⟨b, hb, rfl⟩ := List.mem_iff_getElem.mp hl'
  have hpair := List.pairwise_iff_getElem.mp (lexed_literals s).sorted
  rcases Nat.lt_trichotomy a b with hlt | rfl | hlt
  · have hle := hpair a b ha hb hlt
    omega
  · rfl
  · have hle := hpair b a hb ha hlt
    omega

theorem getElem?_codeOnly_literal {l : Literal} (hl : l ∈ literals s) (h₁ : l.start ≤ i) (h₂ : i < l.stop) :
    (codeOnly s)[i]? = s[i]?.map (l.blankAt i) := by
  have hin := (getElem?_blankFrom s (ahead_literals s) i).2
  rw [Nat.zero_add] at hin
  obtain ⟨l', hl', h₁', h₂', heq⟩ := hin ⟨l, hl, h₁, h₂⟩
  rw [covering_unique hl hl' h₁ h₂ h₁' h₂']
  exact heq

/-- The first character of a comment is blanked, that of a string stays. -/
theorem getElem?_codeOnly_start {l : Literal} (hl : l ∈ literals s) :
    (codeOnly s)[l.start]? = some (if l.kind = .comment then ' ' else '"') := by
  have hbounded := (lexed_literals s).bounded l hl
  rw [getElem?_codeOnly_literal hl (Nat.le_refl _) hbounded.1]
  cases (lexed_literals s).spelled l hl with
  | line h₁ | block h₁ => rw [h₁]; rfl
  | string h₁ => simp [h₁, Literal.blankAt]

end Offsets

/-- The characters with a property that a reader finds in code. -/
def Reader.codeChars (p : Char → Bool) : Reader → List Char → List Char
  | _, [] => []
  | σ, c :: r => if σ.inCode && p c then c :: codeChars p (σ.next c) r else codeChars p (σ.next c) r

section Quiet

variable {p : Char → Bool} {s : List Char}

theorem blankAt_quiet (hp : ∀ c, p c = true → Quiet c) (hspace : p ' ' = false) {l : Literal} {i : Nat} {c : Char}
    (hl : Spelled s l) (hc : s[i]? = some c) : p (l.blankAt i c) = false := by
  have hnot : ∀ x ∈ ['/', '*', '"', '\\', '\n'], p x = false := by
    intro x hx
    by_contra hpx
    exact hp x (by simpa using hpx) x hx rfl
  unfold Literal.blankAt
  split
  next hline => exact hline ▸ hnot '\n' (by simp)
  next =>
    split
    next => exact hspace
    next hkind =>
      split
      next hends =>
        have hquote : c = '"' := by
          rcases hends with hstart | ⟨_, hquote⟩
          · cases hl with
            | line | block => cases hkind
            | string hopen _ =>
              rw [hstart, hopen] at hc
              exact (Option.some.inj hc).symm
          · exact hquote
        exact hquote ▸ hnot '"' (by simp)
      next => exact hspace

theorem filter_blankFrom (hp : ∀ c, p c = true → Quiet c) (hspace : p ' ' = false) (b : List Char) {a : List Char}
    {ls : List Literal} (hs : s = a ++ b) (hahead : Ahead a.length ls)
    (hcov : ∀ j, a.length ≤ j → (Covered j ls ↔ Covered j (literals s))) (hmem : ∀ l ∈ ls, l ∈ literals s) :
    (blankFrom a.length ls b).filter p = (Reader.code.after a).codeChars p b := by
  induction b generalizing a ls with
  | nil => rfl
  | cons c b ih =>
    obtain ⟨c', ls', hblank, hahead', hcov', hmem', hc'⟩ := blankFrom_step hahead c b
    have hlength : (a ++ [c]).length = a.length + 1 := by simp
    have hrest := ih (a := a ++ [c]) (by simp [hs]) (hlength ▸ hahead') ?_ fun l hl => hmem l (hmem' l hl)
    · have hget : s[a.length]? = some c := by simp [hs]
      have hreader (hpc : p c = true) : Covered a.length ls ↔ (Reader.code.after a).inCode = false :=
        (hcov _ (Nat.le_refl _)).trans (covered_literals hs (hp c hpc))
      rw [hlength, Reader.after_append, Reader.after_cons, Reader.after_nil] at hrest
      have hchars : (Reader.code.after a).codeChars p (c :: b) =
          if (Reader.code.after a).inCode && p c then c :: ((Reader.code.after a).next c).codeChars p b
          else ((Reader.code.after a).next c).codeChars p b := rfl
      rw [hblank, List.filter_cons, hrest, hchars]
      rcases hc' with ⟨hfree, rfl⟩ | ⟨l, hl, hstart, hstop, rfl⟩
      · by_cases hpc : p c' = true
        · have hin : (Reader.code.after a).inCode = true := by
            by_contra hout
            exact hfree ((hreader hpc).mpr (by simpa using hout))
          simp [hpc, hin]
        · simp [hpc]
      · have hout : ((Reader.code.after a).inCode && p c) = false := by
          by_cases hpc : p c = true
          · simp [(hreader hpc).mp ⟨l, hl, hstart, hstop⟩]
          · simp [hpc]
        have hspelled := (lexed_literals s).spelled l (hmem l hl)
        rw [blankAt_quiet hp hspace hspelled hget, hout]
        rfl
    · intro j hj
      rw [hlength] at hj
      rw [hcov' j (by omega), hcov j (by omega)]

/-- The quiet characters of a text with its literals blanked are those that stand in code. -/
theorem filter_codeOnly (hp : ∀ c, p c = true → Quiet c) (hspace : p ' ' = false) (s : List Char) :
    (codeOnly s).filter p = Reader.code.codeChars p s :=
  filter_blankFrom (a := []) hp hspace s rfl (ahead_literals s) (fun _ _ => Iff.rfl) fun _ hl => hl

end Quiet

end CadenceUplift
