import CadenceUplift.Proofs.Diagnostic.ReturnPlace

namespace CadenceUplift

open Pattern

variable {ls : List (List Char)} {k : Nat} {l : List Char} {M : Match}

/-- A signature is called incomplete for its counts of round brackets and for nothing else. -/
theorem incompleteSignature_mem_iff {flag : Bool} {rest : List (List Char)} :
    .incompleteSignature ∈ functionFaults l M flag rest ↔
      occurrences ')' (l.drop M.start) < occurrences '(' (l.drop M.start) := by
  rw [functionFaults]
  dsimp only
  split
  next hlt => simp [hlt]
  next hge =>
    refine iff_of_false ?_ hge
    rw [List.mem_append, not_or]
    constructor
    · split <;> simp
    · split
      next => simp
      next => split <;> simp

/-- The faults of a function on a line are those of the declaration found there. -/
theorem fault_mem_of_functionErrors {e : FunctionError} (he : e ∈ functionErrors ls) (hline : e.line = k + 1)
    (hl : ls[k]? = some l) (hM : functionPattern.search l.toArray = some M) :
    ∃ flag, e.fault ∈ functionFaults l M flag (ls.drop (k + 1)) := by
  obtain ⟨k', l', M', flag, hl', hM', hfault, hline', _⟩ := exists_search_of_functionErrors he
  obtain rfl : k' = k := by omega
  obtain rfl : l' = l := Option.some.inj (hl'.symm.trans hl)
  obtain rfl : M' = M := Option.some.inj (hM'.symm.trans hM)
  exact ⟨flag, hfault⟩

/-- Where a function is declared on a line, and no more round brackets are opened than closed from there on, no
incomplete signature is reported for the line; the signature has an opening bracket, and the one that closes it is
found, so that what is taken to follow the parameter list is the rest of the line behind it. -/
theorem parameters_closed (hl : ls[k]? = some l) (hM : functionPattern.search l.toArray = some M)
    (hcount : occurrences '(' (l.drop M.start) ≤ occurrences ')' (l.drop M.start)) :
    (∀ e ∈ functionErrors ls, e.line = k + 1 → e.fault ≠ .incompleteSignature) ∧
      ∃ front inner, '(' ∉ front ∧
        l.drop M.start = front ++ '(' :: (inner ++ ')' :: afterParameters (l.drop M.start)) ∧
        closingRound 0 0 ((l.drop M.start).dropWhile (· != '(')) = some (inner.length + 1) ∧
        Contained '(' ')' inner ∧ inner.count ')' = inner.count '(' := by
  constructor
  · intro e he hline hfault
    obtain ⟨flag, hmem⟩ := fault_mem_of_functionErrors he hline hl hM
    rw [hfault, incompleteSignature_mem_iff] at hmem
    omega
  · obtain ⟨front, r, hfront, hround⟩ := exists_opening_of_functionPattern (isMatch_of_search hM)
    rw [hfront] at hcount ⊢
    obtain ⟨inner, hr, hclosing, hinner, hbalance⟩ := exists_closed hround hcount
    exact ⟨front, inner, fun hmem => (hround _ hmem).1 rfl, by rw [← hr], hclosing, hinner, hbalance⟩

/-- A signature behind whose parameter list a bracket is closed before another is opened. -/
theorem parameters_closed_stray :
    let l := "fun f(g: ((Int): Int)) )(".toList
    let M : Match := ⟨0, 6, [⟨1, 4, 5⟩]⟩
    [['\x7d'], l][1]? = some l ∧ functionPattern.search l.toArray = some M ∧
      occurrences '(' (l.drop M.start) ≤ occurrences ')' (l.drop M.start) ∧
      (∀ e ∈ functionErrors [['\x7d'], l], e.line = 1 + 1 → e.fault ≠ .incompleteSignature) ∧
      ∃ front inner, '(' ∉ front ∧
        l.drop M.start = front ++ '(' :: (inner ++ ')' :: afterParameters (l.drop M.start)) ∧
        closingRound 0 0 ((l.drop M.start).dropWhile (· != '(')) = some (inner.length + 1) ∧
        Contained '(' ')' inner ∧ inner.count ')' = inner.count '(' := by
  intro l M
  have hl : [['\x7d'], l][1]? = some l := rfl
  have hM : functionPattern.search l.toArray = some M := by decide +kernel
  have hcount : occurrences '(' (l.drop M.start) ≤ occurrences ')' (l.drop M.start) := by decide
  exact ⟨hl, hM, hcount, parameters_closed hl hM hcount⟩

end CadenceUplift
