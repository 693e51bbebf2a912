import CadenceUplift.Literal.Span

namespace CadenceUplift

namespace Text

/-- The bounds of the halving search close in on the end of the entries that are at most `x`. -/
theorem countBetween_spec {table : Array Nat} {x : Nat}
    (hs : ∀ i j, i ≤ j → j < table.size → table.getD i 0 ≤ table.getD j 0) (fuel lo hi : Nat)
    (hfuel : hi - lo ≤ fuel) (hle : lo ≤ hi) (hsize : hi ≤ table.size) (hlo : ∀ j < lo, table.getD j 0 ≤ x)
    (hhi : ∀ j, hi ≤ j → j < table.size → x < table.getD j 0) :
    countBetween table x fuel lo hi ≤ table.size ∧ (∀ j < countBetween table x fuel lo hi, table.getD j 0 ≤ x) ∧
      ∀ j, countBetween table x fuel lo hi ≤ j → j < table.size → x < table.getD j 0 := by
  induction fuel generalizing lo hi with
  | zero =>
    have heq : lo = hi := by omega
    subst heq
    exact ⟨hsize, hlo, hhi⟩
  | succ fuel ih =>
    rw [countBetween]
    split
    next hlt =>
      have hmid : lo ≤ (lo + hi) / 2 ∧ (lo + hi) / 2 < hi := by omega
      simp only
      split
      next hx =>
        refine ih lo _ (by omega) hmid.1 (by omega) hlo ?_
        intro j hj hjs
        exact Nat.lt_of_lt_of_le hx (hs _ _ hj hjs)
      next hx =>
        refine ih _ hi (by omega) (by omega) hsize ?_ hhi
        intro j hj
        exact Nat.le_trans (hs j _ (by omega) (by omega)) (Nat.le_of_not_lt hx)
    next hge =>
      have heq : lo = hi := by omega
      subst heq
      exact ⟨hsize, hlo, hhi⟩

theorem countUpTo_spec {table : Array Nat} (x : Nat)
    (hs : ∀ i j, i ≤ j → j < table.size → table.getD i 0 ≤ table.getD j 0) :
    countUpTo table x ≤ table.size ∧ (∀ j < countUpTo table x, table.getD j 0 ≤ x) ∧
      ∀ j, countUpTo table x ≤ j → j < table.size → x < table.getD j 0 :=
  countBetween_spec hs _ 0 _ (by omega) (Nat.zero_le _) (Nat.le_refl _) (by omega) (by omega)

end Text

/-- Literals in order and apart, none of them before an offset. -/
def Ordered : Nat → List Literal → Prop
  | _, [] => True
  | lo, l :: ls => lo ≤ l.start ∧ l.start ≤ l.stop ∧ Ordered l.stop ls

theorem Ordered.mono {lo lo' : Nat} {ls : List Literal} (h : Ordered lo ls) (hle : lo' ≤ lo) : Ordered lo' ls := by
  cases ls with
  | nil => trivial
  | cons l ls => exact ⟨Nat.le_trans hle h.1, h.2⟩

theorem Ordered.start_le {lo : Nat} {ls : List Literal} (h : Ordered lo ls) : ∀ l ∈ ls, lo ≤ l.start := by
  induction ls generalizing lo with
  | nil => simp
  | cons l ls ih =>
    obtain ⟨hlo, hl, hls⟩ := h
    intro l' hl'
    rcases List.mem_cons.mp hl' with rfl | hl'
    · exact hlo
    · exact ih (hls.mono (by omega)) l' hl'

theorem Ordered.pairwise {lo : Nat} {ls : List Literal} (h : Ordered lo ls) :
    ls.Pairwise fun a b => a.start ≤ a.stop ∧ a.stop ≤ b.start := by
  induction ls generalizing lo with
  | nil => exact .nil
  | cons l ls ih =>
    obtain ⟨_, hl, hls⟩ := h
    exact .cons (fun b hb => ⟨hl, hls.start_le b hb⟩) (ih hls)

/-- An offset is covered when one of the literals has it. -/
theorem covers_ofList {lo : Nat} {ls : List Literal} (h : Ordered lo ls) (offset : Nat) :
    (LiteralIndex.ofList ls).covers offset = true ↔ ∃ l ∈ ls, l.start ≤ offset ∧ offset < l.stop := by
  have hget (j : Nat) (l : Literal) (hl : ls[j]? = some l) :
      (LiteralIndex.ofList ls).starts.getD j 0 = l.start := by
    simp [LiteralIndex.ofList, Array.getD_eq_getD_getElem?, hl]
  have hsize : (LiteralIndex.ofList ls).starts.size = ls.length := by simp [LiteralIndex.ofList]
  have hpair := List.pairwise_iff_getElem.mp h.pairwise
  have hsorted : ∀ i j, i ≤ j → j < (LiteralIndex.ofList ls).starts.size →
      (LiteralIndex.ofList ls).starts.getD i 0 ≤ (LiteralIndex.ofList ls).starts.getD j 0 := by
    intro i j hij hj
    rw [hsize] at hj
    rw [hget i _ (List.getElem?_eq_getElem (by omega)), hget j _ (List.getElem?_eq_getElem hj)]
    rcases Nat.eq_or_lt_of_le hij with rfl | hlt
    · exact Nat.le_refl _
    · have := hpair i j (by omega) hj hlt
      omega
  obtain ⟨hmax, hbelow, habove⟩ := Text.countUpTo_spec offset hsorted
  unfold LiteralIndex.covers
  constructor
  · intro hc
    split at hc
    next => simp at hc
    next n _ =>
      split at hc
      next l hl =>
        have hmem : l ∈ ls := List.mem_of_getElem? (by simpa [LiteralIndex.ofList] using hl)
        simp only [Bool.and_eq_true, decide_eq_true_eq] at hc
        exact ⟨l, hmem, hc.1, hc.2⟩
      next => simp at hc
  · rintro ⟨l, hl, hstart, hstop⟩
    obtain ⟨k, hk, rfl⟩ := List.getElem_of_mem hl
    have hgetk := hget k _ (List.getElem?_eq_getElem hk)
    have hcount : Text.countUpTo (LiteralIndex.ofList ls).starts offset = k + 1 := by
      refine Nat.le_antisymm ?_ ?_
      · refine Nat.le_of_not_lt fun hgt => ?_
        have hnext : k + 1 < ls.length := by omega
        have hle := hbelow (k + 1) hgt
        rw [hget (k + 1) _ (List.getElem?_eq_getElem hnext)] at hle
        have := hpair k (k + 1) hk hnext (by omega)
        omega
      · refine Nat.lt_of_not_le fun hle => ?_
        have := habove k hle (by omega)
        omega
    have hlit : (LiteralIndex.ofList ls).literals[k]? = some ls[k] := by
      simp [LiteralIndex.ofList, List.getElem?_eq_getElem hk]
    rw [hcount]
    simp [hlit, hstart, hstop]

end CadenceUplift
