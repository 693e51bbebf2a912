namespace CadenceUplift

/-- The items from place `i` on that are handed out before a request to stop; a request at `n` arrives
just before item `n`. -/
def handedOut {α : Type} (requests : List Nat) : Nat → List α → List α
  | _, [] => []
  | i, x :: xs => if requests.contains i then [] else x :: handedOut requests (i + 1) xs

theorem handedOut_unasked {α : Type} (k : Nat) (xs : List α) : handedOut [] k xs = xs := by
  induction xs generalizing k with
  | nil => rfl
  | cons x xs ih =>
    rw [handedOut, ih]
    rfl

/-- What is handed out is a first part of the items. -/
theorem handedOut_eq_take {α : Type} (requests : List Nat) (i : Nat) (xs : List α) :
    handedOut requests i xs = xs.take (handedOut requests i xs).length := by
  induction xs generalizing i with
  | nil => simp [handedOut]
  | cons x xs ih =>
    unfold handedOut
    split
    · simp
    · simpa using ih (i + 1)

/-- Items are handed out up to the first request, and all of them without one. -/
theorem handedOut_stops {α : Type} (requests : List Nat) (k : Nat) (xs : List α) :
    (∀ i < (handedOut requests k xs).length, k + i ∉ requests) ∧
      ((handedOut requests k xs).length < xs.length → k + (handedOut requests k xs).length ∈ requests) := by
  induction xs generalizing k with
  | nil => simp [handedOut]
  | cons x xs ih =>
    obtain ⟨hbefore, hat⟩ := ih (k + 1)
    unfold handedOut
    by_cases hk : requests.contains k = true
    · rw [if_pos hk]
      exact ⟨by simp, fun _ => by simpa using hk⟩
    · rw [if_neg hk]
      have hk' : k ∉ requests := by simpa using hk
      constructor
      · intro i hi
        cases i with
        | zero => exact hk'
        | succ i =>
          have hi' := hbefore i (by simpa using hi)
          rwa [Nat.add_right_comm, Nat.add_assoc] at hi'
      · intro hlt
        have hlast := hat (by simpa using hlt)
        rw [List.length_cons]
        rwa [Nat.add_right_comm, Nat.add_assoc] at hlast

end CadenceUplift
