import CadenceUplift.Scan.Result
import Mathlib.Data.List.Sort

namespace CadenceUplift

section Stable

variable {α : Type} {le : α → α → Bool}

/-- Neither of two elements comes strictly before the other. -/
def Tied (le : α → α → Bool) (a b : α) : Bool := le a b && le b a

theorem tied_iff {a b : α} : Tied le a b = true ↔ le a b = true ∧ le b a = true := Bool.and_eq_true_iff

theorem filter_tied_mergeSort (trans : ∀ a b c, le a b = true → le b c = true → le a c = true)
    (total : ∀ a b, (le a b || le b a) = true) (a : α) (l : List α) :
    (l.mergeSort le).filter (Tied le a) = l.filter (Tied le a) := by
  have hsorted : (l.filter (Tied le a)).Pairwise fun x y => le x y = true := by
    apply List.pairwise_of_forall_mem_list
    intro x hx y hy
    have hxa := (tied_iff.mp (List.mem_filter.mp hx).2).2
    have hay := (tied_iff.mp (List.mem_filter.mp hy).2).1
    exact trans x a y hxa hay
  have hsub := (List.sublist_mergeSort trans total hsorted List.filter_sublist).filter (Tied le a)
  simp only [List.filter_filter, Bool.and_self] at hsub
  have hlength := ((List.mergeSort_perm l le).filter (Tied le a)).length_eq
  exact (hsub.eq_of_length hlength.symm).symm

/-- Sorted lists are equal if they have the same elements in each tie, in the same order. -/
theorem eq_of_filter_tied (refl : ∀ a, le a a = true) {xs ys : List α} (hx : xs.Pairwise fun a b => le a b = true)
    (hy : ys.Pairwise fun a b => le a b = true) (h : ∀ a, xs.filter (Tied le a) = ys.filter (Tied le a)) : xs = ys := by
  have hself (a : α) : Tied le a a = true := tied_iff.mpr ⟨refl a, refl a⟩
  induction xs generalizing ys with
  | nil =>
    cases ys with
    | nil => rfl
    | cons y ys =>
      have hfirst := h y
      simp [hself] at hfirst
  | cons x xs ih =>
    cases ys with
    | nil =>
      have hfirst := h x
      simp [hself] at hfirst
    | cons y ys =>
      obtain ⟨hxs, hxtail⟩ := List.pairwise_cons.mp hx
      obtain ⟨hys, hytail⟩ := List.pairwise_cons.mp hy
      have hyx : le y x = true := by
        have hmem : x ∈ (y :: ys).filter (Tied le x) := by simp [← h x, hself]
        rcases List.mem_cons.mp (List.mem_filter.mp hmem).1 with rfl | hmem
        · exact refl x
        · exact hys x hmem
      have hxy : le x y = true := by
        have hmem : y ∈ (x :: xs).filter (Tied le y) := by simp [h y, hself]
        rcases List.mem_cons.mp (List.mem_filter.mp hmem).1 with rfl | hmem
        · exact refl y
        · exact hxs y hmem
      have hhead := h x
      rw [List.filter_cons_of_pos (hself x), List.filter_cons_of_pos (tied_iff.mpr ⟨hxy, hyx⟩)] at hhead
      obtain rfl := (List.cons.inj hhead).1
      refine congrArg (x :: ·) (ih hxtail hytail ?_)
      intro a
      have hrest := h a
      by_cases ha : Tied le a x = true
      · rw [List.filter_cons_of_pos ha, List.filter_cons_of_pos ha] at hrest
        exact (List.cons.inj hrest).2
      · rwa [List.filter_cons_of_neg ha, List.filter_cons_of_neg ha] at hrest

theorem refl_of_total (total : ∀ a b, (le a b || le b a) = true) (a : α) : le a a = true := by
  have hor := total a a
  rwa [Bool.or_self] at hor

/-- A stable sort sees only the order within each tie. -/
theorem mergeSort_eq_of_filter_tied (trans : ∀ a b c, le a b = true → le b c = true → le a c = true)
    (total : ∀ a b, (le a b || le b a) = true) {l l' : List α}
    (h : ∀ a, l.filter (Tied le a) = l'.filter (Tied le a)) : l.mergeSort le = l'.mergeSort le := by
  apply eq_of_filter_tied (refl_of_total total) (List.pairwise_mergeSort trans total l)
    (List.pairwise_mergeSort trans total l')
  intro a
  rw [filter_tied_mergeSort trans total, filter_tied_mergeSort trans total, h a]

/-- If ties have one key, a stable sort sees only the order within each key. -/
theorem mergeSort_eq_of_filter_key {κ : Type} [BEq κ] [LawfulBEq κ] {key : α → κ}
    (trans : ∀ a b c, le a b = true → le b c = true → le a c = true) (total : ∀ a b, (le a b || le b a) = true)
    (tied : ∀ a b, Tied le a b = true → key a = key b) {l l' : List α}
    (h : ∀ k, l.filter (fun x => key x == k) = l'.filter fun x => key x == k) : l.mergeSort le = l'.mergeSort le := by
  apply mergeSort_eq_of_filter_tied trans total
  intro a
  have hwithin (l : List α) : l.filter (Tied le a) = (l.filter fun x => key x == key a).filter (Tied le a) := by
    rw [List.filter_filter]
    apply List.filter_congr
    intro x _
    by_cases hx : Tied le a x = true
    · simp [hx, tied a x hx]
    · simp [hx]
  rw [hwithin l, hwithin l', h]

/-- Elements may be left out before a stable sort or after it. -/
theorem filter_mergeSort (trans : ∀ a b c, le a b = true → le b c = true → le a c = true)
    (total : ∀ a b, (le a b || le b a) = true) (p : α → Bool) (l : List α) :
    (l.mergeSort le).filter p = (l.filter p).mergeSort le := by
  apply eq_of_filter_tied (refl_of_total total) ((List.pairwise_mergeSort trans total l).filter p)
    (List.pairwise_mergeSort trans total (l.filter p))
  intro a
  rw [filter_tied_mergeSort trans total, List.filter_comm, filter_tied_mergeSort trans total, List.filter_comm]

end Stable

theorem pairwise_mergeSort_names (names : List String) :
    (names.mergeSort fun a b => decide (a ≤ b)).Pairwise (· ≤ ·) := by
  have htrans (a b c : String) (hab : decide (a ≤ b) = true) (hbc : decide (b ≤ c) = true) : decide (a ≤ c) = true :=
    decide_eq_true (String.le_trans (of_decide_eq_true hab) (of_decide_eq_true hbc))
  have htotal (a b : String) : (decide (a ≤ b) || decide (b ≤ a)) = true := by simpa using String.le_total a b
  have hpair := List.pairwise_mergeSort htrans htotal names
  simpa only [decide_eq_true_eq] using hpair

/-- Names in ascending order are the same however they come. -/
theorem mergeSort_names {names names' : List String} (h : names.Perm names') :
    (names.mergeSort fun a b => decide (a ≤ b)) = names'.mergeSort fun a b => decide (a ≤ b) := by
  have hperm : (names.mergeSort fun a b => decide (a ≤ b)).Perm (names'.mergeSort fun a b => decide (a ≤ b)) :=
    ((List.mergeSort_perm names _).trans h).trans (List.mergeSort_perm names' _).symm
  exact hperm.eq_of_pairwise (fun _ _ _ _ => String.le_antisymm) (pairwise_mergeSort_names names)
    (pairwise_mergeSort_names names')

section Findings

instance : Std.TransCmp Finding.order := by
  have hseverity : Std.TransCmp fun a b : Finding => compare b.severity.rank a.severity.rank :=
    (Std.TransCmp.opposite : Std.TransCmp fun a b => (compareOn fun f : Finding => f.severity.rank) b a)
  have himpact : Std.TransCmp fun a b : Finding => compare b.impact.rank a.impact.rank :=
    (Std.TransCmp.opposite : Std.TransCmp fun a b => (compareOn fun f : Finding => f.impact.rank) b a)
  have horder : Finding.order = compareLex (fun a b => compare b.severity.rank a.severity.rank)
      (compareLex (fun a b => compare b.impact.rank a.impact.rank) (compareLex (compareOn fun f => f.site.file)
        (compareLex (compareOn fun f => f.site.line) (compareLex (compareOn fun f => f.site.column)
          (compareLex (compareOn fun f => f.construct.name) (compareOn fun f => f.matched)))))) := rfl
  rw [horder]
  infer_instance

theorem Finding.order_total (a b : Finding) : ((a.order b).isLE || (b.order a).isLE) = true := by
  have hswap : b.order a = (a.order b).swap := Std.OrientedCmp.eq_swap
  rw [hswap]
  cases a.order b <;> rfl

/-- Findings that the order of results does not tell apart are in one file. -/
theorem file_eq_of_tied {a b : Finding} (h : Tied (fun x y => (Finding.order x y).isLE) a b = true) :
    a.site.file = b.site.file := by
  obtain ⟨hab, hba⟩ := tied_iff.mp h
  have heq : a.order b = .eq := Std.OrientedCmp.isLE_antisymm hab hba
  simp only [Finding.order, Ordering.then_eq_eq] at heq
  exact Std.LawfulEqOrd.compare_eq_iff_eq.mp heq.2.2.1

/-- Sorted findings depend on the findings of each file only. -/
theorem inResultOrder_eq_of_files {fs fs' : List Finding}
    (h : ∀ file, fs.filter (fun f => f.site.file == file) = fs'.filter fun f => f.site.file == file) :
    inResultOrder fs = inResultOrder fs' := by
  refine mergeSort_eq_of_filter_key ?_ Finding.order_total (fun a b => file_eq_of_tied) h
  intro a b c
  exact Std.TransCmp.isLE_trans

end Findings

end CadenceUplift
