import CadenceUplift.Proofs.Literal.Reader
import Mathlib.Algebra.Ring.Int.Defs

namespace CadenceUplift

open Literal (Mode)

/-- A comment or a string opens at the offset. -/
def OpensAt (s : List Char) (i : Nat) : Prop :=
  s[i]? = some '"' ∨ s[i]? = some '/' ∧ (s[i + 1]? = some '/' ∨ s[i + 1]? = some '*')

/-- The marks of block comments in a text that starts at offset `i`, from left to right without overlap: where each
ends, and by how much it changes the depth. -/
def blockMarks : Nat → List Char → List (Nat × Int)
  | _, [] => []
  | i, '/' :: '*' :: r => (i + 2, 1) :: blockMarks (i + 2) r
  | i, '*' :: '/' :: r => (i + 2, -1) :: blockMarks (i + 2) r
  | i, _ :: r => blockMarks (i + 1) r

/-- The depth behind the first `n` marks. -/
def depthAfter (marks : List (Nat × Int)) (n : Nat) : Int := ((marks.take n).map (·.2)).sum

/-- The character `n` places after `a` is taken by a backslash in front of it that is not taken itself. -/
def taken (s : List Char) (a : Nat) : Nat → Bool
  | 0 => false
  | n + 1 => s[a + n]? == some '\\' && !taken s a n

/-- A quote or a newline that no backslash takes stands `n` places after the quote at `a`. -/
def Breaks (s : List Char) (a n : Nat) : Prop :=
  0 < n ∧ taken s a n = false ∧ (s[a + n]? = some '"' ∨ s[a + n]? = some '\n')

/-- A line comment from `a` stops at `b`: at the first newline or at the end of the text. -/
def LineStop (s : List Char) (a b : Nat) : Prop :=
  (∀ i, a ≤ i → i < b → s[i]? ≠ some '\n') ∧ (s[b]? = some '\n' ∨ b = s.length)

/-- A block comment from `a` stops at `b`: behind the first closing mark that brings the depth back to zero, or at
the end of the text. -/
def BlockStop (s : List Char) (a b : Nat) : Prop :=
  (∃ n, (blockMarks a (s.drop a))[n]? = some (b, -1) ∧ depthAfter (blockMarks a (s.drop a)) (n + 1) = 0 ∧
      ∀ k < n, depthAfter (blockMarks a (s.drop a)) (k + 1) ≠ 0) ∨
    (∀ n < (blockMarks a (s.drop a)).length, depthAfter (blockMarks a (s.drop a)) (n + 1) ≠ 0) ∧ b = s.length

/-- A string from `a` stops at `b`: behind its closing quote, in front of a newline, or at the end of the text. -/
def StringStop (s : List Char) (a b : Nat) : Prop :=
  (∃ n, Breaks s a n ∧ (∀ k < n, ¬Breaks s a k) ∧
      (s[a + n]? = some '"' ∧ b = a + n + 1 ∨ s[a + n]? = some '\n' ∧ b = a + n)) ∨
    (∀ n, ¬Breaks s a n) ∧ b = s.length

/-- What stands in the text where a literal is. -/
inductive Spelled (s : List Char) : Literal → Prop
  | line {a b : Nat} : s[a]? = some '/' → s[a + 1]? = some '/' → LineStop s a b → Spelled s ⟨a, b, .comment⟩
  | block {a b : Nat} : s[a]? = some '/' → s[a + 1]? = some '*' → BlockStop s a b → Spelled s ⟨a, b, .comment⟩
  | string {a b : Nat} : s[a]? = some '"' → StringStop s a b → Spelled s ⟨a, b, .string⟩

/-- The literals of a text: in order and apart, spelled as they should be, and with no opening outside them. -/
structure Lexed (s : List Char) (ls : List Literal) : Prop where
  sorted : ls.Pairwise fun l l' => l.stop ≤ l'.start
  bounded : ∀ l ∈ ls, l.start < l.stop ∧ l.stop ≤ s.length
  spelled : ∀ l ∈ ls, Spelled s l
  outside : ∀ i, ¬Covered i ls → ¬OpensAt s i

section Uniqueness

variable {s : List Char} {a b b' : Nat}

theorem Spelled.opensAt {l : Literal} (h : Spelled s l) : OpensAt s l.start := by
  cases h with
  | line h₁ h₂ _ => exact .inr ⟨h₁, .inl h₂⟩
  | block h₁ h₂ _ => exact .inr ⟨h₁, .inr h₂⟩
  | string h₁ _ => exact .inl h₁

theorem LineStop.le (h : LineStop s a b) (h' : LineStop s a b') (hb : a ≤ b) (hb' : b' ≤ s.length) : b' ≤ b := by
  by_contra hlt
  rcases h.2 with hline | hend
  · exact h'.1 b hb (by omega) hline
  · omega

theorem LineStop.unique (h : LineStop s a b) (h' : LineStop s a b') (ha : a ≤ b) (ha' : a ≤ b') (hb : b ≤ s.length)
    (hb' : b' ≤ s.length) : b = b' := by
  have hle := h.le h' ha hb'
  have hge := h'.le h ha' hb
  omega

theorem BlockStop.unique (h : BlockStop s a b) (h' : BlockStop s a b') : b = b' := by
  obtain ⟨n, hn, hzero, hfirst⟩ | ⟨hnone, hb⟩ := h
  · obtain ⟨m, hm, hzero', hfirst'⟩ | ⟨hnone', _⟩ := h'
    · have hle : ¬m < n := fun hlt => hfirst m hlt hzero'
      have hge : ¬n < m := fun hlt => hfirst' n hlt hzero
      obtain rfl : n = m := by omega
      rw [hn] at hm
      exact (Prod.mk.inj (Option.some.inj hm)).1
    · obtain ⟨hlt, _⟩ := List.getElem?_eq_some_iff.mp hn
      exact absurd hzero (hnone' n hlt)
  · obtain ⟨m, hm, hzero', _⟩ | ⟨_, hb'⟩ := h'
    · obtain ⟨hlt, _⟩ := List.getElem?_eq_some_iff.mp hm
      exact absurd hzero' (hnone m hlt)
    · rw [hb, hb']

theorem StringStop.unique (h : StringStop s a b) (h' : StringStop s a b') : b = b' := by
  obtain ⟨n, hn, hfirst, hb⟩ | ⟨hnone, hb⟩ := h
  · obtain ⟨m, hm, hfirst', hb'⟩ | ⟨hnone', _⟩ := h'
    · have hle : ¬m < n := fun hlt => hfirst m hlt hm
      have hge : ¬n < m := fun hlt => hfirst' n hlt hn
      obtain rfl : n = m := by omega
      obtain ⟨hc, rfl⟩ | ⟨hc, rfl⟩ := hb <;> obtain ⟨hc', rfl⟩ | ⟨hc', rfl⟩ := hb'
      · rfl
      · simp [hc] at hc'
      · simp [hc] at hc'
      · rfl
    · exact absurd hn (hnone' n)
  · obtain ⟨m, hm, _⟩ | ⟨_, hb'⟩ := h'
    · exact absurd hm (hnone m)
    · rw [hb, hb']

/-- What stands at an offset fixes the literal there. -/
theorem Spelled.unique {l l' : Literal} (h : Spelled s l) (h' : Spelled s l') (hstart : l.start = l'.start)
    (hl : l.start < l.stop ∧ l.stop ≤ s.length) (hl' : l'.start < l'.stop ∧ l'.stop ≤ s.length) : l = l' := by
  cases h with
  | @line a b h₁ h₂ h₃ =>
    cases h' with
    | @line a' b' h₁' h₂' h₃' =>
      obtain rfl : a = a' := hstart
      obtain ⟨hab, hb⟩ := hl
      obtain ⟨hab', hb'⟩ := hl'
      rw [h₃.unique h₃' (Nat.le_of_lt hab) (Nat.le_of_lt hab') hb hb']
    | @block a' b' h₁' h₂' h₃' =>
      obtain rfl : a = a' := hstart
      simp [h₂] at h₂'
    | @string a' b' h₁' h₂' =>
      obtain rfl : a = a' := hstart
      simp [h₁] at h₁'
  | @block a b h₁ h₂ h₃ =>
    cases h' with
    | @line a' b' h₁' h₂' h₃' =>
      obtain rfl : a = a' := hstart
      simp [h₂] at h₂'
    | @block a' b' h₁' h₂' h₃' =>
      obtain rfl : a = a' := hstart
      rw [h₃.unique h₃']
    | @string a' b' h₁' h₂' =>
      obtain rfl : a = a' := hstart
      simp [h₁] at h₁'
  | @string a b h₁ h₂ =>
    cases h' with
    | @line a' b' h₁' h₂' h₃' =>
      obtain rfl : a = a' := hstart
      simp [h₁] at h₁'
    | @block a' b' h₁' h₂' h₃' =>
      obtain rfl : a = a' := hstart
      simp [h₁] at h₁'
    | @string a' b' h₁' h₂' =>
      obtain rfl : a = a' := hstart
      rw [h₂.unique h₂']

/-- The literals of the text from an offset on. -/
structure LexedFrom (s : List Char) (lo : Nat) (ls : List Literal) : Prop where
  sorted : ls.Pairwise fun l l' => l.stop ≤ l'.start
  bounded : ∀ l ∈ ls, l.start < l.stop ∧ l.stop ≤ s.length
  spelled : ∀ l ∈ ls, Spelled s l
  outside : ∀ i, lo ≤ i → ¬Covered i ls → ¬OpensAt s i
  later : ∀ l ∈ ls, lo ≤ l.start

theorem LexedFrom.tail {lo : Nat} {l : Literal} {ls : List Literal} (h : LexedFrom s lo (l :: ls)) :
    LexedFrom s l.stop ls := by
  obtain ⟨hnext, hsorted⟩ := List.pairwise_cons.mp h.sorted
  have hl := h.bounded l (by simp)
  have hlo := h.later l (by simp)
  refine ⟨hsorted, fun x hx => h.bounded x (by simp [hx]), fun x hx => h.spelled x (by simp [hx]), ?_, hnext⟩
  intro i hi hcov
  refine h.outside i (by omega) ?_
  rwa [covered_cons_of_le hi]

/-- An offset in front of the first literal is in none. -/
theorem LexedFrom.not_covered {lo i : Nat} {l : Literal} {ls : List Literal} (h : LexedFrom s lo (l :: ls))
    (hi : i < l.start) : ¬Covered i (l :: ls) := by
  rintro ⟨x, hx, hstart, _⟩
  rcases List.mem_cons.mp hx with rfl | hx
  · omega
  · have hnext := (List.pairwise_cons.mp h.sorted).1 x hx
    have hl := h.bounded l (by simp)
    omega

/-- The first literal starts where the first opening is. -/
theorem LexedFrom.start_le {lo : Nat} {l l' : Literal} {ls ls' : List Literal} (h : LexedFrom s lo (l :: ls))
    (h' : LexedFrom s lo (l' :: ls')) : l'.start ≤ l.start := by
  by_contra hlt
  have hfree := h'.not_covered (Nat.lt_of_not_le hlt)
  exact h'.outside l.start (h.later l (by simp)) hfree (h.spelled l (by simp)).opensAt

theorem LexedFrom.unique {lo : Nat} {ls ls' : List Literal} (h : LexedFrom s lo ls) (h' : LexedFrom s lo ls') :
    ls = ls' := by
  induction ls generalizing lo ls' with
  | nil =>
    cases ls' with
    | nil => rfl
    | cons l' ls' =>
      have hopen := (h'.spelled l' (by simp)).opensAt
      exact absurd hopen (h.outside l'.start (h'.later l' (by simp)) (by simp [Covered]))
  | cons l ls ih =>
    cases ls' with
    | nil =>
      have hopen := (h.spelled l (by simp)).opensAt
      exact absurd hopen (h'.outside l.start (h.later l (by simp)) (by simp [Covered]))
    | cons l' ls' =>
      have hle := h.start_le h'
      have hge := h'.start_le h
      have hstart : l.start = l'.start := by omega
      obtain rfl := (h.spelled l (by simp)).unique (h'.spelled l' (by simp)) hstart (h.bounded l (by simp))
        (h'.bounded l' (by simp))
      rw [ih h.tail h'.tail]

end Uniqueness

section Reading

variable {s : List Char} {a i : Nat} {c : Char}

theorem drop_eq_nil (h : s.drop i = []) (hi : i ≤ s.length) : i = s.length := by
  have hle := List.drop_eq_nil_iff.mp h
  omega

/-- What a reader at offset `i` has read of the literal that it is in. -/
def HasRead (s : List Char) (i : Nat) : Mode → Prop
  | .code => True
  | .line a => a < i ∧ s[a]? = some '/' ∧ s[a + 1]? = some '/' ∧ ∀ j, a ≤ j → j < i → s[j]? ≠ some '\n'
  | .block a d => a < i ∧ s[a]? = some '/' ∧ s[a + 1]? = some '*' ∧
      ∃ ms, blockMarks a (s.drop a) = ms ++ blockMarks i (s.drop i) ∧ (ms.map (·.2)).sum = d + 1 ∧
        ∀ k < ms.length, depthAfter ms (k + 1) ≠ 0
  | .string a => a < i ∧ s[a]? = some '"' ∧ (i < s.length → taken s a (i - a) = false) ∧ ∀ n < i - a, ¬Breaks s a n

theorem HasRead.line_open (h₁ : s[i]? = some '/') (h₂ : s[i + 1]? = some '/') : HasRead s (i + 2) (.line i) := by
  refine ⟨by omega, h₁, h₂, ?_⟩
  intro j hij hj
  obtain rfl | rfl : j = i ∨ j = i + 1 := by omega
  · simp [h₁]
  · simp [h₂]

theorem HasRead.line_further (h : HasRead s i (.line a)) (hc : s[i]? = some c) (hne : c ≠ '\n') :
    HasRead s (i + 1) (.line a) := by
  obtain ⟨ha, h₁, h₂, hno⟩ := h
  refine ⟨by omega, h₁, h₂, ?_⟩
  intro j haj hj
  by_cases hlt : j < i
  · exact hno j haj hlt
  · obtain rfl : j = i := by omega
    simpa [hc] using hne

theorem HasRead.line_stop (h : HasRead s i (.line a)) (hend : s[i]? = some '\n' ∨ i = s.length) :
    Spelled s ⟨a, i, .comment⟩ := by
  obtain ⟨_, h₁, h₂, hno⟩ := h
  exact .line h₁ h₂ ⟨hno, hend⟩

section Marks

variable {ms : List (Nat × Int)} {e : Nat} {d : Int}

theorem depthAfter_append (ns : List (Nat × Int)) {n : Nat} (h : n ≤ ms.length) :
    depthAfter (ms ++ ns) n = depthAfter ms n := by
  rw [depthAfter, List.take_append_of_le_length h, depthAfter]

theorem depthAfter_length_succ (ns : List (Nat × Int)) :
    depthAfter (ms ++ (e, d) :: ns) (ms.length + 1) = (ms.map (·.2)).sum + d := by
  have htake : (ms ++ (e, d) :: ns).take (ms.length + 1) = ms ++ [(e, d)] := by
    rw [List.take_append, List.take_of_length_le (by omega)]
    simp
  simp [depthAfter, htake]

/-- The depth stays away from zero with one mark more. -/
theorem depthAfter_snoc (h : ∀ k < ms.length, depthAfter ms (k + 1) ≠ 0) (hlast : (ms.map (·.2)).sum + d ≠ 0) :
    ∀ k < (ms ++ [(e, d)]).length, depthAfter (ms ++ [(e, d)]) (k + 1) ≠ 0 := by
  intro k hk
  rw [List.length_append, List.length_singleton] at hk
  by_cases hlt : k < ms.length
  · rw [depthAfter_append _ (by omega)]
    exact h k hlt
  · obtain rfl : k = ms.length := by omega
    rwa [depthAfter_length_succ]

end Marks

theorem HasRead.block_open {r : List Char} (hr : s.drop i = '/' :: '*' :: r) : HasRead s (i + 2) (.block i 0) := by
  obtain ⟨h₁, hr₁, _⟩ := drop_eq_cons hr
  obtain ⟨h₂, hr₂, _⟩ := drop_eq_cons hr₁
  refine ⟨by omega, h₁, h₂, [(i + 2, 1)], ?_, by simp, ?_⟩
  · rw [hr, hr₂, blockMarks]
    rfl
  · intro k hk
    obtain rfl : k = 0 := by simpa using hk
    simp [depthAfter]

/-- A mark that leaves the comment open. -/
theorem HasRead.block_mark {d d' : Nat} {δ : Int} (h : HasRead s i (.block a d))
    (hmarks : blockMarks i (s.drop i) = (i + 2, δ) :: blockMarks (i + 2) (s.drop (i + 2)))
    (hd : (d : Int) + δ = d') : HasRead s (i + 2) (.block a d') := by
  obtain ⟨ha, h₁, h₂, ms, hms, hsum, hopen⟩ := h
  refine ⟨by omega, h₁, h₂, ms ++ [(i + 2, δ)], ?_, ?_, ?_⟩
  · rw [hms, hmarks, List.append_assoc]
    rfl
  · rw [List.map_append, List.sum_append, hsum]
    simp
    omega
  · exact depthAfter_snoc hopen (by omega)

theorem HasRead.block_further {d : Nat} (h : HasRead s i (.block a d))
    (hmarks : blockMarks i (s.drop i) = blockMarks (i + 1) (s.drop (i + 1))) : HasRead s (i + 1) (.block a d) := by
  obtain ⟨ha, h₁, h₂, ms, hms, hsum, hopen⟩ := h
  exact ⟨by omega, h₁, h₂, ms, by rw [hms, hmarks], hsum, hopen⟩

theorem HasRead.block_close {ns : List (Nat × Int)} (h : HasRead s i (.block a 0))
    (hmarks : blockMarks i (s.drop i) = (i + 2, -1) :: ns) : Spelled s ⟨a, i + 2, .comment⟩ := by
  obtain ⟨_, h₁, h₂, ms, hms, hsum, hopen⟩ := h
  rw [hmarks] at hms
  refine .block h₁ h₂ (.inl ⟨ms.length, ?_, ?_, ?_⟩)
  · rw [hms]
    simp
  · rw [hms, depthAfter_length_succ, hsum]
    simp
  · intro k hk
    rw [hms, depthAfter_append _ (by omega)]
    exact hopen k hk

theorem HasRead.block_end {d : Nat} (h : HasRead s i (.block a d)) (hend : i = s.length) :
    Spelled s ⟨a, i, .comment⟩ := by
  obtain ⟨_, h₁, h₂, ms, hms, _, hopen⟩ := h
  rw [hend, List.drop_length, blockMarks, List.append_nil] at hms
  refine .block h₁ h₂ (.inr ⟨?_, hend⟩)
  rwa [hms]

theorem HasRead.string_open (h : s[i]? = some '"') : HasRead s (i + 1) (.string i) := by
  refine ⟨by omega, h, ?_, ?_⟩
  · intro _
    rw [Nat.add_sub_cancel_left, taken]
    simp [h]
  · intro n hn hbreaks
    have hpos := hbreaks.1
    omega

theorem taken_succ (s : List Char) (hai : a ≤ i) :
    taken s a (i + 1 - a) = (s[i]? == some '\\' && !taken s a (i - a)) := by
  rw [Nat.succ_sub hai, taken, Nat.add_sub_cancel' hai]

/-- The character at `i` does not end the string. -/
theorem HasRead.string_unbroken (h : HasRead s i (.string a)) (hi : ¬Breaks s a (i - a)) :
    ∀ n < i + 1 - a, ¬Breaks s a n := by
  obtain ⟨ha, _, _, hno⟩ := h
  intro n hn
  by_cases hlt : n < i - a
  · exact hno n hlt
  · obtain rfl : n = i - a := by omega
    exact hi

theorem not_breaks {n : Nat} (hai : a ≤ i) (hn : n = i - a) (hc : s[i]? = some c) (hquote : c ≠ '"')
    (hline : c ≠ '\n') : ¬Breaks s a n := by
  rintro ⟨_, _, hbreak⟩
  subst hn
  rw [Nat.add_sub_cancel' hai, hc] at hbreak
  simp [hquote, hline] at hbreak

/-- A backslash and the character that it takes. -/
theorem HasRead.string_escape (h : HasRead s i (.string a)) (hc : s[i]? = some '\\') (hi : i < s.length) :
    HasRead s (i + 2) (.string a) := by
  have hbefore := h.string_unbroken (not_breaks (Nat.le_of_lt h.1) rfl hc (by decide) (by decide))
  obtain ⟨ha, hquote, htaken, _⟩ := h
  have hnext : taken s a (i + 1 - a) = true := by
    rw [taken_succ s (Nat.le_of_lt ha), htaken hi, hc]
    rfl
  refine ⟨by omega, hquote, ?_, ?_⟩
  · intro _
    rw [taken_succ s (by omega), hnext]
    simp
  · intro n hn
    by_cases hlt : n < i + 1 - a
    · exact hbefore n hlt
    · obtain rfl : n = i + 1 - a := by omega
      rintro ⟨_, hfree, _⟩
      simp [hnext] at hfree

theorem HasRead.string_further (h : HasRead s i (.string a)) (hc : s[i]? = some c) (hquote : c ≠ '"')
    (hline : c ≠ '\n') (hback : c = '\\' → i + 1 = s.length) : HasRead s (i + 1) (.string a) := by
  have hbefore := h.string_unbroken (not_breaks (Nat.le_of_lt h.1) rfl hc hquote hline)
  obtain ⟨ha, hopen, _, _⟩ := h
  refine ⟨by omega, hopen, ?_, hbefore⟩
  intro hi
  have hplain : c ≠ '\\' := by
    intro hc
    have := hback hc
    omega
  rw [taken_succ s (Nat.le_of_lt ha), hc]
  simp [hplain]

/-- The string stops at a quote or a newline that is not taken. -/
theorem HasRead.string_stop {b : Nat} (h : HasRead s i (.string a)) (hi : i < s.length)
    (hb : s[i]? = some '"' ∧ b = i + 1 ∨ s[i]? = some '\n' ∧ b = i) : Spelled s ⟨a, b, .string⟩ := by
  obtain ⟨ha, hopen, htaken, hno⟩ := h
  have hplace : a + (i - a) = i := by omega
  refine .string hopen (.inl ⟨i - a, ⟨by omega, htaken hi, ?_⟩, hno, ?_⟩)
  · rw [hplace]
    exact hb.imp And.left And.left
  · rwa [hplace]

theorem HasRead.string_end (h : HasRead s i (.string a)) (hend : i = s.length) : Spelled s ⟨a, i, .string⟩ := by
  obtain ⟨ha, hopen, _, hno⟩ := h
  refine .string hopen (.inr ⟨?_, hend⟩)
  intro n
  by_cases hlt : n < i - a
  · exact hno n hlt
  · rintro ⟨_, _, hbreak⟩
    rw [List.getElem?_eq_none (by omega)] at hbreak
    simp at hbreak

/-- Every literal that is found from `i` on is spelled as it should be: `HasRead` is kept while one is open, and says
where it stops. -/
theorem scan_spelled (mode : Mode) (i : Nat) (r : List Char) (hr : s.drop i = r) (hi : i ≤ s.length)
    (hread : HasRead s i mode) :
    ∀ l ∈ Literal.scan mode i r, (l.start < l.stop ∧ l.stop ≤ s.length) ∧ Spelled s l := by
  fun_induction Literal.scan mode i r with
  | case1 => simp
  | case2 a i =>
    have hend := drop_eq_nil hr hi
    simpa using ⟨⟨hread.1, hi⟩, hread.line_stop (.inr hend)⟩
  | case3 a d i =>
    have hend := drop_eq_nil hr hi
    simpa using ⟨⟨hread.1, hi⟩, hread.block_end hend⟩
  | case4 a i =>
    have hend := drop_eq_nil hr hi
    simpa using ⟨⟨hread.1, hi⟩, hread.string_end hend⟩
  | case5 i r ih =>
    obtain ⟨h₁, hr₁, _⟩ := drop_eq_cons hr
    obtain ⟨h₂, hr₂, hlt⟩ := drop_eq_cons hr₁
    exact ih hr₂ hlt (.line_open h₁ h₂)
  | case6 i r ih =>
    obtain ⟨_, hr₁, _⟩ := drop_eq_cons hr
    obtain ⟨_, hr₂, hlt⟩ := drop_eq_cons hr₁
    exact ih hr₂ hlt (.block_open hr)
  | case7 i r ih =>
    obtain ⟨h₁, hr₁, hlt⟩ := drop_eq_cons hr
    exact ih hr₁ hlt (.string_open h₁)
  | case8 i c r _ _ _ ih =>
    obtain ⟨_, hr₁, hlt⟩ := drop_eq_cons hr
    exact ih hr₁ hlt trivial
  | case9 a i r ih =>
    obtain ⟨h₁, hr₁, hlt⟩ := drop_eq_cons hr
    exact List.forall_mem_cons.mpr ⟨⟨⟨hread.1, hi⟩, hread.line_stop (.inl h₁)⟩, ih hr₁ hlt trivial⟩
  | case10 a i c r hc ih =>
    obtain ⟨h₁, hr₁, hlt⟩ := drop_eq_cons hr
    exact ih hr₁ hlt (hread.line_further h₁ hc)
  | case11 a d i r ih =>
    obtain ⟨_, hr₁, _⟩ := drop_eq_cons hr
    obtain ⟨_, hr₂, hlt⟩ := drop_eq_cons hr₁
    exact ih hr₂ hlt (hread.block_mark (by rw [hr, hr₂, blockMarks]) (by simp))
  | case12 a i r ih =>
    obtain ⟨_, hr₁, _⟩ := drop_eq_cons hr
    obtain ⟨_, hr₂, hlt⟩ := drop_eq_cons hr₁
    have hstart : a < i + 2 := Nat.lt_of_lt_of_le hread.1 (by omega)
    have hspelled := hread.block_close (by rw [hr, blockMarks])
    exact List.forall_mem_cons.mpr ⟨⟨⟨hstart, hlt⟩, hspelled⟩, ih hr₂ hlt trivial⟩
  | case13 a d i r ih =>
    obtain ⟨_, hr₁, _⟩ := drop_eq_cons hr
    obtain ⟨_, hr₂, hlt⟩ := drop_eq_cons hr₁
    exact ih hr₂ hlt (hread.block_mark (by rw [hr, hr₂, blockMarks]) (by omega))
  | case14 a d i c r hopen htop hdeep ih =>
    obtain ⟨_, hr₁, hlt⟩ := drop_eq_cons hr
    have hmarks : blockMarks i (c :: r) = blockMarks (i + 1) r := by
      rw [blockMarks]
      · exact hopen
      · exact not_closes htop hdeep
    exact ih hr₁ hlt (hread.block_further (by rw [hr, hr₁, hmarks]))
  | case15 a i c r ih =>
    obtain ⟨h₁, hr₁, hlt₁⟩ := drop_eq_cons hr
    obtain ⟨_, hr₂, hlt₂⟩ := drop_eq_cons hr₁
    exact ih hr₂ hlt₂ (hread.string_escape h₁ hlt₁)
  | case16 a i r ih =>
    obtain ⟨h₁, hr₁, hlt⟩ := drop_eq_cons hr
    have hstart : a < i + 1 := Nat.lt_of_lt_of_le hread.1 (by omega)
    have hspelled := hread.string_stop hlt (.inl ⟨h₁, rfl⟩)
    exact List.forall_mem_cons.mpr ⟨⟨⟨hstart, hlt⟩, hspelled⟩, ih hr₁ hlt trivial⟩
  | case17 a i r ih =>
    obtain ⟨h₁, hr₁, hlt⟩ := drop_eq_cons hr
    have hspelled := hread.string_stop hlt (.inr ⟨h₁, rfl⟩)
    exact List.forall_mem_cons.mpr ⟨⟨⟨hread.1, hi⟩, hspelled⟩, ih hr₁ hlt trivial⟩
  | case18 a i c r hback hquote hline ih =>
    obtain ⟨h₁, hr₁, hlt⟩ := drop_eq_cons hr
    have hlast : c = '\\' → i + 1 = s.length := by
      intro hc
      cases r with
      | nil => exact drop_eq_nil hr₁ hlt
      | cons y r => exact absurd rfl (hback y r hc)
    exact ih hr₁ hlt (hread.string_further h₁ hquote hline hlast)

/-- The literal that a reader is in has all offsets from its start up to the reader. -/
theorem le_of_not_covered {mode : Mode} (hmode : mode ≠ .code) {r : List Char} {j : Nat}
    (hfree : ¬Covered j (Literal.scan mode i r)) (hstart : StartsBy j mode) : i ≤ j := by
  by_contra hlt
  refine hfree ?_
  cases mode with
  | code => exact absurd rfl hmode
  | line a => exact Pending.covered (continues_scan (.line a) i r) hstart (by omega)
  | block a d => exact Pending.covered (continues_scan (.block a d) i r) hstart (by omega)
  | string a => exact Pending.covered (continues_scan (.string a) i r) hstart (by omega)

theorem not_opensAt_of_length_le {j : Nat} (h : s.length ≤ j) : ¬OpensAt s j := by
  simp [OpensAt, List.getElem?_eq_none h]

theorem not_opensAt_of_newline {j : Nat} (h : s[j]? = some '\n') : ¬OpensAt s j := by
  simp [OpensAt, h]

/-- Nothing opens from `i` on outside the literals that are found there. -/
theorem scan_outside (mode : Mode) (i : Nat) (r : List Char) (hr : s.drop i = r) (hi : i ≤ s.length)
    (hstart : StartsBy i mode) {j : Nat} (hj : i ≤ j) (hfree : ¬Covered j (Literal.scan mode i r)) :
    ¬OpensAt s j := by
  fun_induction Literal.scan mode i r with
  | case1 | case2 | case3 | case4 =>
    have hend := drop_eq_nil hr hi
    exact not_opensAt_of_length_le (by omega)
  | case5 i r ih | case6 i r ih =>
    obtain ⟨_, hr₁, _⟩ := drop_eq_cons hr
    obtain ⟨_, hr₂, hlt⟩ := drop_eq_cons hr₁
    exact ih hr₂ hlt (Nat.le_add_right i 2) (le_of_not_covered (by simp) hfree hj) hfree
  | case7 i r ih =>
    obtain ⟨_, hr₁, hlt⟩ := drop_eq_cons hr
    exact ih hr₁ hlt (Nat.le_add_right i 1) (le_of_not_covered (by simp) hfree hj) hfree
  | case8 i c r hline hblock hquote ih =>
    obtain ⟨h₁, hr₁, hlt⟩ := drop_eq_cons hr
    by_cases hij : j = i
    · subst hij
      have hnext {y : Char} (hy : s[j + 1]? = some y) : ∃ r', r = y :: r' := by
        obtain ⟨hlt', rfl⟩ := List.getElem?_eq_some_iff.mp hy
        exact ⟨s.drop (j + 1 + 1), by rw [← hr₁, List.drop_eq_getElem_cons hlt']⟩
      rintro (hopen | ⟨hslash, hopen | hopen⟩)
      · rw [h₁] at hopen
        exact hquote (Option.some.inj hopen)
      · rw [h₁] at hslash
        obtain ⟨r', hr'⟩ := hnext hopen
        exact hline r' (Option.some.inj hslash) hr'
      · rw [h₁] at hslash
        obtain ⟨r', hr'⟩ := hnext hopen
        exact hblock r' (Option.some.inj hslash) hr'
    · exact ih hr₁ hlt trivial (by omega) hfree
  | case9 a i r ih | case17 a i r ih =>
    obtain ⟨h₁, hr₁, hlt⟩ := drop_eq_cons hr
    by_cases hij : j = i
    · subst hij
      exact not_opensAt_of_newline h₁
    · rw [covered_cons_of_le hj] at hfree
      exact ih hr₁ hlt trivial (by omega) hfree
  | case10 a i c r _ ih | case14 a d i c r _ _ _ ih | case18 a i c r _ _ _ ih =>
    obtain ⟨_, hr₁, hlt⟩ := drop_eq_cons hr
    have hle := le_of_not_covered (by simp) hfree (Nat.le_trans hstart hj)
    exact ih hr₁ hlt (Nat.le_succ_of_le hstart) hle hfree
  | case11 a d i r ih | case13 a d i r ih | case15 a i c r ih =>
    obtain ⟨_, hr₁, _⟩ := drop_eq_cons hr
    obtain ⟨_, hr₂, hlt⟩ := drop_eq_cons hr₁
    have hle := le_of_not_covered (by simp) hfree (Nat.le_trans hstart hj)
    exact ih hr₂ hlt (Nat.le_add_right_of_le hstart) hle hfree
  | case12 a i r ih =>
    obtain ⟨_, hr₁, _⟩ := drop_eq_cons hr
    obtain ⟨_, hr₂, hlt⟩ := drop_eq_cons hr₁
    have hle : i + 2 ≤ j := by
      by_contra hin
      exact hfree ⟨_, List.mem_cons_self, Nat.le_trans hstart hj, Nat.lt_of_not_le hin⟩
    rw [covered_cons_of_le hle] at hfree
    exact ih hr₂ hlt trivial hle hfree
  | case16 a i r ih =>
    obtain ⟨_, hr₁, hlt⟩ := drop_eq_cons hr
    have hle : i + 1 ≤ j := by
      by_contra hin
      exact hfree ⟨_, List.mem_cons_self, Nat.le_trans hstart hj, Nat.lt_of_not_le hin⟩
    rw [covered_cons_of_le hle] at hfree
    exact ih hr₁ hlt trivial hle hfree

theorem lexed_literals (s : List Char) : Lexed s (literals s) := by
  have hfound := scan_spelled .code 0 s rfl (Nat.zero_le _) trivial
  refine ⟨(ordered_literals s).pairwise.imp And.right, fun l hl => (hfound l hl).1, fun l hl => (hfound l hl).2, ?_⟩
  intro i hfree
  exact scan_outside .code 0 s rfl (Nat.zero_le _) trivial (Nat.zero_le i) hfree

end Reading

theorem Lexed.lexedFrom {s : List Char} {ls : List Literal} (h : Lexed s ls) : LexedFrom s 0 ls :=
  ⟨h.sorted, h.bounded, h.spelled, fun i _ => h.outside i, fun _ _ => Nat.zero_le _⟩

/-- A closing mark ends with a slash. -/
theorem slash_of_mem_blockMarks {s : List Char} (i : Nat) (r : List Char) (hr : s.drop i = r) {e : Nat}
    (he : (e, -1) ∈ blockMarks i r) : ∃ j, j + 1 = e ∧ s[j]? = some '/' := by
  fun_induction blockMarks i r with
  | case1 => cases he
  | case2 i r ih =>
    obtain ⟨_, hr₁, _⟩ := drop_eq_cons hr
    obtain ⟨_, hr₂, _⟩ := drop_eq_cons hr₁
    exact ih hr₂ (by simpa using he)
  | case3 i r ih =>
    obtain ⟨_, hr₁, _⟩ := drop_eq_cons hr
    obtain ⟨h₂, hr₂, _⟩ := drop_eq_cons hr₁
    rcases List.mem_cons.mp he with he | he
    · exact ⟨i + 1, (Prod.mk.inj he).1.symm, h₂⟩
    · exact ih hr₂ he
  | case4 i c r _ _ ih =>
    obtain ⟨_, hr₁, _⟩ := drop_eq_cons hr
    exact ih hr₁ he

/-- A literal ends in front of a newline, at the end of the text, or behind a slash or a quote. -/
theorem Spelled.stop {s : List Char} {l : Literal} (h : Spelled s l) :
    s[l.stop]? = some '\n' ∨ l.stop = s.length ∨ ∃ j, j + 1 = l.stop ∧ (s[j]? = some '/' ∨ s[j]? = some '"') := by
  cases h with
  | line _ _ hstop => exact hstop.2.imp_right .inl
  | block _ _ hstop =>
    obtain ⟨n, hn, _⟩ | ⟨_, hend⟩ := hstop
    · obtain ⟨j, hj, hslash⟩ := slash_of_mem_blockMarks _ _ rfl (List.mem_of_getElem? hn)
      exact .inr (.inr ⟨j, hj, .inl hslash⟩)
    · exact .inr (.inl hend)
  | string _ hstop =>
    obtain ⟨n, _, _, hb | hb⟩ | ⟨_, hend⟩ := hstop
    · exact .inr (.inr ⟨_, hb.2.symm, .inr hb.1⟩)
    · exact .inl (by rw [hb.2, hb.1])
    · exact .inr (.inl hend)

/-- The literals of a text are the one list that is in order, spelled as it should be, and leaves nothing open. -/
theorem literals_exact (s : List Char) (ls : List Literal) : ls = literals s ↔ Lexed s ls := by
  constructor
  · rintro rfl
    exact lexed_literals s
  · intro h
    exact h.lexedFrom.unique (lexed_literals s).lexedFrom

end CadenceUplift
