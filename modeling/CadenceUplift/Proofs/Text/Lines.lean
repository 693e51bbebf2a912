import CadenceUplift.Text.Lines
import Mathlib.Data.List.Basic

namespace CadenceUplift.Text

theorem lines_cons {c : Char} (hc : c ≠ '\n') {s l : List Char} {ls : List (List Char)} (h : lines s = l :: ls) :
    lines (c :: s) = (c :: l) :: ls := by
  rw [lines, if_neg hc, h]

theorem length_lines (s : List Char) : (lines s).length = s.count '\n' + 1 := by
  induction s with
  | nil => rfl
  | cons c s ih =>
    by_cases hc : c = '\n'
    · simp [lines, hc, ih]
    · obtain ⟨l, ls, hls⟩ := List.exists_cons_of_ne_nil (lines_ne_nil s)
      rw [lines_cons hc hls]
      rw [hls] at ih
      simpa [hc] using ih

theorem lines_newline (p s : List Char) : lines (p ++ '\n' :: s) = lines p ++ lines s := by
  induction p with
  | nil => rfl
  | cons c p ih =>
    by_cases hc : c = '\n'
    · simp [lines, hc, ih]
    · obtain ⟨l, ls, hls⟩ := List.exists_cons_of_ne_nil (lines_ne_nil p)
      rw [hls] at ih
      rw [List.cons_append, lines_cons hc ih, lines_cons hc hls]
      rfl

theorem newline_not_mem_lines {s l : List Char} (h : l ∈ lines s) : '\n' ∉ l := by
  induction s generalizing l with
  | nil => simp [List.mem_singleton.mp h]
  | cons c s ih =>
    by_cases hc : c = '\n'
    · rw [lines, if_pos hc] at h
      rcases List.mem_cons.mp h with rfl | h
      · simp
      · exact ih h
    · obtain ⟨l₀, ls, hls⟩ := List.exists_cons_of_ne_nil (lines_ne_nil s)
      rw [lines_cons hc hls] at h
      rw [hls] at ih
      rcases List.mem_cons.mp h with rfl | h
      · have hl₀ := ih (l := l₀) (by simp)
        simp [hl₀, Ne.symm hc]
      · exact ih (List.mem_cons_of_mem _ h)

theorem lines_of_newline_not_mem {s : List Char} (h : '\n' ∉ s) : lines s = [s] := by
  induction s with
  | nil => rfl
  | cons c s ih =>
    obtain ⟨hc, hs⟩ := not_or.mp (List.mem_cons.not.mp h)
    exact lines_cons (Ne.symm hc) (ih hs)

/-- Lines put together fall into the same lines again. -/
theorem lines_unlines {ls : List (List Char)} (hne : ls ≠ []) (h : ∀ l ∈ ls, '\n' ∉ l) : lines (unlines ls) = ls := by
  induction ls with
  | nil => exact absurd rfl hne
  | cons l ls ih =>
    have hl := lines_of_newline_not_mem (h l (by simp))
    cases ls with
    | nil => exact hl
    | cons l' ls =>
      have hrest := ih (by simp) fun x hx => h x (List.mem_cons_of_mem _ hx)
      have hsplit : unlines (l :: l' :: ls) = l ++ '\n' :: unlines (l' :: ls) := by simp [unlines, join]
      rw [hsplit, lines_newline, hl, hrest]
      rfl

/-- A text is cut at the first place of a mark in one way only. -/
theorem append_cons_inj_of_not_mem {α : Type} {c : α} {x x' y y' : List α} (hx : c ∉ x) (hx' : c ∉ x')
    (h : x ++ c :: y = x' ++ c :: y') : x = x' ∧ y = y' := by
  rcases List.append_eq_append_iff.mp h with ⟨z, rfl, hz⟩ | ⟨z, rfl, hz⟩
  · cases z with
    | nil => simpa using hz
    | cons d z =>
      obtain ⟨rfl, _⟩ := List.cons.inj hz
      simp at hx'
  · cases z with
    | nil => simpa [eq_comm] using hz
    | cons d z =>
      obtain ⟨rfl, _⟩ := List.cons.inj hz
      simp at hx

end CadenceUplift.Text
