import CadenceUplift.Proofs.Pattern.Reach

namespace CadenceUplift.Pattern

/-- A match is a way that the pattern can go, and there is one if the pattern can go any way. -/
theorem matchAt_eq_some {p : Pattern} (hp : p.isRegular = true) {t : Array Char} {i : Nat} {m : Match}
    (h : p.matchAt t i = some m) : Reach t p ⟨i, []⟩ ⟨m.stop, m.captures⟩ ∧ m.start = i := by
  obtain ⟨s, hs, rfl⟩ := Option.map_eq_some_iff.mp h
  obtain ⟨e, he, hk⟩ := run_sound hp hs
  cases Option.some.inj (by simpa using hk)
  exact ⟨he, rfl⟩

theorem matchAt_isSome {p : Pattern} (hp : p.isRegular = true) {t : Array Char} {i : Nat} {e : Place}
    (h : Reach t p ⟨i, []⟩ e) : (p.matchAt t i).isSome := by
  have hrun := run_complete hp (k := fun s => if true then some s else none) h (by simp)
  simpa [matchAt, matchAtWith] using hrun

/-- The matches from a place on. -/
inductive Found (p : Pattern) (t : Array Char) : Nat → List Match → Prop
  | stop {i : Nat} : t.size < i → Found p t i []
  | miss {i : Nat} {ms : List Match} :
      i ≤ t.size → p.matchAt t i = none → Found p t (i + 1) ms → Found p t i ms
  | hit {i : Nat} {m : Match} {ms : List Match} :
      i ≤ t.size → p.matchAt t i = some m → Found p t m.stop ms → Found p t i (m :: ms)

variable {p : Pattern} {t : Array Char}

theorem matchAt_advances (hp : p.isRegular = true) (ha : p.advances = true) {i : Nat} {m : Match}
    (h : p.matchAt t i = some m) : m.start = i ∧ i < m.stop := by
  obtain ⟨hreach, hstart⟩ := matchAt_eq_some hp h
  exact ⟨hstart, reach_advances ha hreach⟩

/-- Where the leftmost match from a place on is, or that there is none. -/
theorem found_firstFrom (n i : Nat) (hn : i + n = t.size + 1) :
    match p.firstFrom t n i with
    | none => Found p t i []
    | some m => (∃ j, i ≤ j ∧ p.matchAt t j = some m) ∧ ∀ ms, Found p t m.stop ms → Found p t i (m :: ms) := by
  induction n generalizing i with
  | zero => exact .stop (by omega)
  | succ n ih =>
    have hi : i ≤ t.size := by omega
    have hnext := ih (i + 1) (by omega)
    rw [firstFrom]
    cases hm : p.matchAt t i with
    | some m => exact ⟨⟨i, Nat.le_refl i, hm⟩, fun ms h => .hit hi hm h⟩
    | none =>
      cases hf : p.firstFrom t n (i + 1) with
      | none =>
        rw [hf] at hnext
        exact .miss hi hm hnext
      | some m =>
        rw [hf] at hnext
        obtain ⟨⟨j, hj, hjm⟩, hrest⟩ := hnext
        exact ⟨⟨j, by omega, hjm⟩, fun ms h => .miss hi hm (hrest ms h)⟩

theorem found_matchesFrom (hp : p.isRegular = true) (ha : p.advances = true) (fuel i : Nat)
    (hfuel : t.size + 2 ≤ fuel + i) : Found p t i (p.matchesFrom t fuel i true) := by
  induction fuel generalizing i with
  | zero => exact .stop (by omega)
  | succ fuel ih =>
    rw [matchesFrom, find?, if_pos rfl]
    by_cases hi : i ≤ t.size
    · have hfirst := found_firstFrom (p := p) (t := t) (t.size + 1 - i) i (by omega)
      cases hf : p.firstFrom t (t.size + 1 - i) i with
      | none =>
        rw [hf] at hfirst
        exact hfirst
      | some m =>
        rw [hf] at hfirst
        obtain ⟨⟨j, hj, hjm⟩, hrest⟩ := hfirst
        obtain ⟨hstart, hstop⟩ := matchAt_advances hp ha hjm
        have hne : (m.stop != m.start) = true := by simpa using show m.stop ≠ m.start by omega
        simp only [hne]
        exact hrest _ (ih m.stop (by omega))
    · have hzero : t.size + 1 - i = 0 := by omega
      rw [hzero, firstFrom]
      exact .stop (by omega)

/-- All matches are those found from the first place on. -/
theorem found_allMatches (hp : p.isRegular = true) (ha : p.advances = true) : Found p t 0 (p.allMatches t) :=
  found_matchesFrom hp ha _ 0 (by omega)

/-- What is found matches where it starts. -/
theorem Found.matchAt (hp : p.isRegular = true) {i : Nat} {ms : List Match} (h : Found p t i ms) :
    ∀ M ∈ ms, M.start ≤ t.size ∧ p.matchAt t M.start = some M := by
  induction h with
  | stop => simp
  | miss _ _ _ ih => exact ih
  | hit hi hm _ ih =>
    intro M hM
    rcases List.mem_cons.mp hM with rfl | hM
    · rw [(matchAt_eq_some hp hm).2]
      exact ⟨hi, hm⟩
    · exact ih M hM

theorem firstFrom_isSome {n i : Nat} :
    (p.firstFrom t n i).isSome ↔ ∃ j, i ≤ j ∧ j < i + n ∧ (p.matchAt t j).isSome := by
  induction n generalizing i with
  | zero =>
    constructor
    · intro h
      cases h
    · rintro ⟨j, hi, hj, _⟩
      omega
  | succ n ih =>
    rw [firstFrom]
    cases hm : p.matchAt t i with
    | some m => exact ⟨fun _ => ⟨i, by omega, by omega, by rw [hm]; rfl⟩, fun _ => rfl⟩
    | none =>
      refine ih.trans ⟨?_, ?_⟩
      · rintro ⟨j, hi, hj, h⟩
        exact ⟨j, by omega, by omega, h⟩
      · rintro ⟨j, hi, hj, h⟩
        have hne : i ≠ j := by
          rintro rfl
          rw [hm] at h
          cases h
        exact ⟨j, by omega, by omega, h⟩

/-- A pattern occurs in a text when it matches at one of its places. -/
theorem occursIn_iff {s : List Char} :
    p.occursIn s = true ↔ ∃ i, i ≤ s.length ∧ (p.matchAt s.toArray i).isSome := by
  have hsearch : p.occursIn s = (p.firstFrom s.toArray (s.length + 1) 0).isSome := rfl
  rw [hsearch, firstFrom_isSome]
  constructor
  · rintro ⟨i, _, hi, h⟩
    exact ⟨i, by omega, h⟩
  · rintro ⟨i, hi, h⟩
    exact ⟨i, by omega, by omega, h⟩

theorem matchAt_of_mem_allMatches (hp : p.isRegular = true) (ha : p.advances = true) {M : Match}
    (h : M ∈ p.allMatches t) : M.start ≤ t.size ∧ p.matchAt t M.start = some M :=
  (found_allMatches hp ha).matchAt hp M h

/-- The text in front of a match and the text from it on. -/
theorem exists_split_of_mem_allMatches (hp : p.isRegular = true) (ha : p.advances = true) {s : List Char} {M : Match}
    (h : M ∈ p.allMatches s.toArray) :
    ∃ a u, s = a ++ u ∧ a.length = M.start ∧ p.matchAt (a ++ u).toArray a.length = some M := by
  obtain ⟨hsize, hmatch⟩ := matchAt_of_mem_allMatches hp ha h
  have hlength : (s.take M.start).length = M.start := List.length_take_of_le (by simpa using hsize)
  refine ⟨s.take M.start, s.drop M.start, (List.take_append_drop _ _).symm, hlength, ?_⟩
  rwa [List.take_append_drop, hlength]

end CadenceUplift.Pattern
