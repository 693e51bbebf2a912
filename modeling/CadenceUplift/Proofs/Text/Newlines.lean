import CadenceUplift.Text.Utf8
import Mathlib.Data.List.Basic

namespace CadenceUplift.Text

/-- A line of a text with what stands before it, what ends it, and what stands behind that. It ends with a newline, a
return, both in this order, or the text. -/
structure LineOf (s front line ending back : List Char) : Prop where
  text_eq : s = front ++ (line ++ (ending ++ back))
  begins : front = [] ∨ front.getLast? = some '\n' ∨
    front.getLast? = some '\r' ∧ (line ++ (ending ++ back)).head? ≠ some '\n'
  clean : ∀ c ∈ line, c ≠ '\n' ∧ c ≠ '\r'
  ends : ending = ['\n'] ∨ ending = ['\r', '\n'] ∨ ending = ['\r'] ∧ back.head? ≠ some '\n' ∨
    ending = [] ∧ back = []

theorem unifyNewlines_cons {c : Char} (hc : c ≠ '\r') (s : List Char) :
    unifyNewlines (c :: s) = c :: unifyNewlines s := by
  rw [unifyNewlines] <;> simp_all

theorem unifyNewlines_return {s : List Char} (hs : s.head? ≠ some '\n') :
    unifyNewlines ('\r' :: s) = '\n' :: unifyNewlines s := by
  cases s with
  | nil => rfl
  | cons c s =>
    have hc : c ≠ '\n' := by simpa using hs
    rw [unifyNewlines]
    simpa using hc

/-- Texts put together have their line ends brought to one form apart, unless a return meets a newline. -/
theorem unifyNewlines_append {a b : List Char} (h : a.getLast? = some '\r' → b.head? ≠ some '\n') :
    unifyNewlines (a ++ b) = unifyNewlines a ++ unifyNewlines b := by
  induction a using unifyNewlines.induct with
  | case1 => rfl
  | case2 r ih =>
    rw [List.cons_append, List.cons_append, unifyNewlines, unifyNewlines, ih ?_, List.cons_append]
    intro hlast
    exact h (by simp [List.getLast?_cons, hlast])
  | case3 r hne ih =>
    have hr : r.head? ≠ some '\n' := by
      intro hhead
      obtain ⟨r', rfl⟩ := List.head?_eq_some_iff.mp hhead
      exact hne r' rfl
    have hboth : (r ++ b).head? ≠ some '\n' := by
      cases r with
      | nil => exact h rfl
      | cons c r => exact hr
    rw [List.cons_append, unifyNewlines_return hboth, unifyNewlines_return hr, ih ?_, List.cons_append]
    intro hlast
    exact h (by simp [List.getLast?_cons, hlast])
  | case4 c r hboth hone ih =>
    rw [List.cons_append, unifyNewlines_cons hone, unifyNewlines_cons hone, ih ?_, List.cons_append]
    intro hlast
    exact h (by simp [List.getLast?_cons, hlast])

theorem unifyNewlines_clean {s : List Char} (h : ∀ c ∈ s, c ≠ '\r') : unifyNewlines s = s := by
  induction s with
  | nil => rfl
  | cons c s ih => rw [unifyNewlines_cons (h c (by simp)), ih fun x hx => h x (by simp [hx])]

theorem mem_of_unifyNewlines {s : List Char} {c : Char} (h : c ∈ unifyNewlines s) : c ∈ s ∨ c = '\n' := by
  induction s using unifyNewlines.induct with
  | case1 => cases h
  | case2 r ih =>
    rw [unifyNewlines] at h
    rcases List.mem_cons.mp h with rfl | h
    · exact .inr rfl
    · exact (ih h).imp_left fun hmem => by simp [hmem]
  | case3 r hne ih =>
    rw [unifyNewlines] at h
    · rcases List.mem_cons.mp h with rfl | h
      · exact .inr rfl
      · exact (ih h).imp_left (List.mem_cons_of_mem _)
    · exact hne
  | case4 d r hboth hone ih =>
    rw [unifyNewlines_cons hone] at h
    rcases List.mem_cons.mp h with rfl | h
    · exact .inl (by simp)
    · exact (ih h).imp_left (List.mem_cons_of_mem _)

theorem return_not_mem_unifyNewlines (s : List Char) : '\r' ∉ unifyNewlines s := by
  induction s using unifyNewlines.induct with
  | case1 => simp [unifyNewlines]
  | case2 r ih => simpa [unifyNewlines] using ih
  | case3 r hne ih =>
    rw [unifyNewlines]
    · simpa using ih
    · exact hne
  | case4 c r hboth hone ih =>
    rw [unifyNewlines_cons hone]
    simpa [Ne.symm hone] using ih

namespace LineOf

variable {s front line ending back : List Char}

/-- Whatever ends a line becomes a newline, and the end of the text stays. -/
theorem unifyNewlines_ending (h : LineOf s front line ending back) :
    unifyNewlines ending = if ending = [] then [] else ['\n'] := by
  rcases h.ends with rfl | rfl | ⟨rfl, _⟩ | ⟨rfl, _⟩ <;> rfl

/-- A line keeps its characters, and stands between the text before it and the text behind it. -/
theorem unifyNewlines_eq (h : LineOf s front line ending back) :
    unifyNewlines s = unifyNewlines front ++ ((line ++ unifyNewlines ending) ++ unifyNewlines back) := by
  have hline : unifyNewlines line = line := unifyNewlines_clean fun c hc => (h.clean c hc).2
  have hback : ending.getLast? = some '\r' → back.head? ≠ some '\n' := by
    rcases h.ends with rfl | rfl | ⟨rfl, hhead⟩ | ⟨rfl, _⟩
    · simp
    · simp
    · exact fun _ => hhead
    · simp
  have hending : line.getLast? = some '\r' → (ending ++ back).head? ≠ some '\n' := by
    intro hlast
    exact absurd rfl (h.clean _ (List.mem_of_getLast? hlast)).2
  have hfront : front.getLast? = some '\r' → (line ++ (ending ++ back)).head? ≠ some '\n' := by
    intro hlast
    rcases h.begins with rfl | hnewline | ⟨_, hhead⟩
    · cases hlast
    · rw [hnewline] at hlast
      cases hlast
    · exact hhead
  rw [h.text_eq, unifyNewlines_append hfront, unifyNewlines_append hending, unifyNewlines_append hback, hline,
    List.append_assoc]

end LineOf

end CadenceUplift.Text
