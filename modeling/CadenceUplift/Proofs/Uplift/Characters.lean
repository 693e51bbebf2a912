import CadenceUplift.Proofs.Migration.Outcome
import CadenceUplift.Proofs.Uplift.Defaults

namespace CadenceUplift

open Text

/-- A character from the blank on that takes one octet. -/
def isAsciiPrintable (c : Char) : Bool := decide (32 ≤ c.toNat) && decide (c.toNat < 128)

variable {t : Array Char} {c : Char}

theorem mem_extract {i j : Nat} (h : c ∈ (t.extract i j).toList) : c ∈ t.toList := by
  rw [Array.toList_extract] at h
  exact List.mem_of_mem_drop (List.mem_of_mem_take h)

theorem mem_groupText {m : Match} {n : Nat} (h : c ∈ m.groupText t n) : c ∈ t.toList := by
  unfold Match.groupText at h
  split at h
  next => exact mem_extract h
  next => cases h

theorem mem_splitBetween {ms : List Match} {last : Nat} {u : List Char} (hu : u ∈ splitBetween t last ms) (h : c ∈ u) :
    c ∈ t.toList := by
  induction ms generalizing last with
  | nil =>
    obtain rfl := List.mem_singleton.mp hu
    exact mem_extract h
  | cons m ms ih =>
    rcases List.mem_cons.mp hu with rfl | hu
    · exact mem_extract h
    · exact ih hu

theorem mem_join {sep : List Char} {us : List (List Char)} (h : c ∈ join sep us) : c ∈ sep ∨ ∃ u ∈ us, c ∈ u := by
  induction us using join.induct with
  | case1 => cases h
  | case2 u => exact .inr ⟨u, by simp, h⟩
  | case3 u us hne ih =>
    rw [join] at h
    · rcases List.mem_append.mp h with h | h
      · rcases List.mem_append.mp h with h | h
        · exact .inr ⟨u, by simp, h⟩
        · exact .inl h
      · rcases ih h with h | ⟨v, hv, h⟩
        · exact .inl h
        · exact .inr ⟨v, by simp [hv], h⟩
    · exact hne

theorem mem_joinConformances {m : Match} (h : c ∈ joinConformances m t) : c ∈ t.toList ∨ c ∈ [' ', '&', ' '] := by
  rcases List.mem_append.mp h with h | h
  · exact .inl (mem_groupText h)
  · rcases mem_join h with h | ⟨u, hu, h⟩
    · exact .inr h
    · exact .inl (mem_groupText (mem_splitBetween hu h))

/-- What is spliced into a text consists of its characters and of those that replace matches. -/
theorem mem_splice {news : List (Match × List Char)} {last : Nat} (h : c ∈ splice t last news) :
    c ∈ t.toList ∨ ∃ m ∈ news, c ∈ m.2 := by
  induction news generalizing last with
  | nil => exact .inl (mem_extract h)
  | cons m news ih =>
    obtain ⟨m, new⟩ := m
    rcases List.mem_append.mp h with h | h
    · rcases List.mem_append.mp h with h | h
      · exact .inl (mem_extract h)
      · exact .inr ⟨_, List.mem_cons_self, h⟩
    · rcases ih h with h | ⟨x, hx, h⟩
      · exact .inl h
      · exact .inr ⟨x, List.mem_cons_of_mem _ hx, h⟩

theorem rewriteAll_write {ε : Type} {f : Match → Array Char → Except ε (List Char)} {ms : List Match}
    {news : List (Match × List Char)} (h : rewriteAll f t ms = .ok news) : ∀ m ∈ news, f m.1 t = .ok m.2 := by
  unfold rewriteAll at h
  induction ms generalizing news with
  | nil => cases h; simp
  | cons M ms ih =>
    rw [List.mapM_cons] at h
    obtain ⟨first, hfirst, h⟩ := bind_eq_ok h
    obtain ⟨new, hnew, hpair⟩ := bind_eq_ok hfirst
    obtain ⟨rest, hrest, hall⟩ := bind_eq_ok h
    cases hpair
    cases hall
    intro m hm
    rcases List.mem_cons.mp hm with rfl | hm
    · exact hnew
    · exact ih hrest m hm

/-- A step writes characters of the text and printable ones. -/
theorem Step.mem_write {st : Step} {m : Match} (h : c ∈ st.write m t) : c ∈ t.toList ∨ isAsciiPrintable c = true := by
  cases st with
  | getter =>
    rcases List.mem_append.mp h with h | h
    · exact .inl (mem_groupText h)
    · rcases List.mem_append.mp h with h | h
      · have hprintable : Word.view.all isAsciiPrintable = true := by decide +kernel
        exact .inr (List.all_eq_true.mp hprintable c h)
      · rcases List.mem_cons.mp h with rfl | h
        · exact .inr (by decide +kernel)
        · exact .inl (mem_groupText h)
  | target u =>
    cases u with
    | keyword b =>
      have hprintable : (textOf accessPieces).all isAsciiPrintable = true := by decide +kernel
      exact .inr (List.all_eq_true.mp hprintable c h)
    | conformance =>
      have hprintable : [' ', '&', ' '].all isAsciiPrintable = true := by decide +kernel
      exact (mem_joinConformances h).imp_right (List.all_eq_true.mp hprintable c)
    | member n =>
      have hprintable : (textOf (.word Word.account :: .symbol '.' :: n.path)).all isAsciiPrintable = true := by
        cases n <;> decide +kernel
      exact .inr (List.all_eq_true.mp hprintable c h)

theorem Step.mem_after {st : Step} {skipLiterals : Bool} {s : List Char} (h : c ∈ st.after skipLiterals s) :
    c ∈ s ∨ isAsciiPrintable c = true := by
  have hrun := (st.run_ok skipLiterals s).1
  obtain ⟨news, hnews, hall⟩ := bind_eq_ok hrun
  have hnews : rewriteAll (fun M t => .ok (st.write M t)) s.toArray
      (matchesOutside st.pattern s.toArray (skipIndex skipLiterals s)) = .ok news := hnews
  have htext : st.after skipLiterals s = splice s.toArray 0 news := (congrArg Replaced.text (Except.ok.inj hall)).symm
  rw [htext] at h
  rcases mem_splice h with h | ⟨m, hm, h⟩
  · exact .inl h
  · have hwrite := Except.ok.inj (rewriteAll_write hnews m hm)
    rw [← hwrite] at h
    exact Step.mem_write h

theorem mem_afterSteps {skipLiterals : Bool} {ss : List Step} {s : List Char} (h : c ∈ afterSteps skipLiterals ss s) :
    c ∈ s ∨ isAsciiPrintable c = true := by
  induction ss generalizing s with
  | nil => exact .inl h
  | cons st ss ih =>
    rcases ih h with h | h
    · exact Step.mem_after h
    · exact .inr h

section Uplifted

variable [CharacterNames] {o : RunOptions} {s : List Char} {u : Uplifted}

theorem mem_uplift (h : (RuleSet.mk o Rule.defaults).uplift s = .ok u) (hc : c ∈ u.text) : c ∈ s ∨ isAsciiPrintable c = true := by
  rw [uplift_eq] at h
  obtain rfl := Except.ok.inj h
  dsimp only at hc
  exact mem_afterSteps hc

/-- The starting rules write no halves. -/
theorem isHalf_uplift (h : (RuleSet.mk o Rule.defaults).uplift s = .ok u) (hs : ∀ c ∈ s, isHalf c = false) :
    ∀ c ∈ u.text, isHalf c = false := by
  intro c hc
  rcases mem_uplift h hc with hc | hc
  · exact hs c hc
  · have hnone : half? c = none := by
      have hsmall : c.toNat < 128 := by simpa using (Bool.and_eq_true_iff.mp hc).2
      rw [half?, if_neg]
      omega
    simp [isHalf, hnone]

end Uplifted

end CadenceUplift
