import CadenceUplift.Proofs.Literal.Positions

namespace CadenceUplift

open Literal (Mode)

section Strings

variable {s : List Char} {a b i : Nat}

/-- The quote that opens a string is no newline, so a newline of the string comes behind it. -/
theorem pos_of_newline (hopen : s[a]? = some '"') (hline : s[i]? = some '\n') (hai : a ≤ i) : 0 < i - a := by
  have hne : a ≠ i := by
    rintro rfl
    simp [hopen] at hline
  omega

theorem StringStop.le_of_breaks (h : StringStop s a b) {n : Nat} (hbreaks : Breaks s a n)
    (hline : s[a + n]? = some '\n') : b ≤ a + n := by
  obtain ⟨m, _, hfirst, hb⟩ | ⟨hnone, _⟩ := h
  · have hle : m ≤ n := Nat.le_of_not_lt fun hlt => hfirst n hlt hbreaks
    rcases hb with ⟨hquote, rfl⟩ | ⟨_, rfl⟩
    · have hne : m ≠ n := by
        rintro rfl
        simp [hquote] at hline
      omega
    · omega
  · exact absurd hbreaks (hnone n)

/-- A newline in front of which a string stops is not taken. -/
theorem StringStop.not_taken (h : StringStop s a b) (hline : s[b]? = some '\n') : taken s a (b - a) = false := by
  obtain ⟨n, hbreaks, _, ⟨hquote, rfl⟩ | ⟨_, rfl⟩⟩ | ⟨_, rfl⟩ := h
  · have hsub : a + n + 1 - a = n + 1 := by omega
    rw [hsub, taken, hquote]
    rfl
  · rw [Nat.add_sub_cancel_left]
    exact hbreaks.2.1
  · simp at hline

/-- A newline that a string reaches belongs to it exactly if a backslash takes it. -/
theorem StringStop.newline_lt_iff (hopen : s[a]? = some '"') (h : StringStop s a b) (hai : a ≤ i) (hib : i ≤ b)
    (hline : s[i]? = some '\n') : i < b ↔ taken s a (i - a) = true := by
  have hplace : a + (i - a) = i := by omega
  constructor
  · intro hlt
    by_contra hfree
    have hbreaks : Breaks s a (i - a) := by
      refine ⟨pos_of_newline hopen hline hai, by simpa using hfree, .inr ?_⟩
      rw [hplace, hline]
    have hle := h.le_of_breaks hbreaks (by rw [hplace, hline])
    omega
  · intro htaken
    rcases Nat.eq_or_lt_of_le hib with rfl | hlt
    · rw [h.not_taken hline] at htaken
      cases htaken
    · exact hlt

theorem Spelled.stringStop {l : Literal} (h : Spelled s l) (hkind : l.kind = .string) :
    s[l.start]? = some '"' ∧ StringStop s l.start l.stop := by
  cases h with
  | line | block => cases hkind
  | string hopen hstop => exact ⟨hopen, hstop⟩

/-- A character that is taken has the backslash right in front of it. -/
theorem backslash_of_taken {n : Nat} (h : taken s a n = true) : ∃ m, n = m + 1 ∧ s[a + m]? = some '\\' := by
  cases n with
  | zero => cases h
  | succ m =>
    rw [taken, Bool.and_eq_true, beq_iff_eq] at h
    exact ⟨m, rfl, h.1⟩

end Strings

/-- The literal in a text that has `n` more characters in front. -/
def Literal.behind (n : Nat) (l : Literal) : Literal := ⟨n + l.start, n + l.stop, l.kind⟩

/-- The mode of a reader in a text that has `n` more characters in front. -/
def Literal.Mode.behind (n : Nat) : Mode → Mode
  | .code => .code
  | .line s => .line (n + s)
  | .block s d => .block (n + s) d
  | .string s => .string (n + s)

section Splitting

variable {p q : List Char}

/-- What stands in front of a text moves its literals, and changes nothing else. -/
theorem scan_behind (n : Nat) (mode : Mode) (i : Nat) (s : List Char) :
    Literal.scan (mode.behind n) (n + i) s = (Literal.scan mode i s).map (·.behind n) := by
  fun_induction Literal.scan mode i s with
  | case1 | case2 | case3 | case4 => rfl
  | case5 i r ih | case6 i r ih | case7 i r ih | case11 a d i r ih | case13 a d i r ih | case15 a i c r ih =>
    rw [← ih]
    simp [Mode.behind, Literal.scan, Nat.add_assoc]
  | case9 a i r ih | case12 a i r ih | case16 a i r ih | case17 a i r ih =>
    rw [List.map_cons, ← ih]
    simp [Mode.behind, Literal.scan, Literal.behind, Nat.add_assoc]
  | case8 i c r hline hblock hquote ih =>
    rw [← ih, Mode.behind, Literal.scan]
    · rfl
    · exact hline
    · exact hblock
    · exact hquote
  | case10 a i c r hc ih =>
    rw [← ih, Mode.behind, Literal.scan]
    · rfl
    · exact hc
  | case14 a d i c r hopen htop hdeep ih =>
    rw [← ih, Mode.behind, Literal.scan]
    · rfl
    · exact hopen
    · exact htop
    · exact hdeep
  | case18 a i c r hback hquote hline ih =>
    rw [← ih, Mode.behind, Literal.scan]
    · rfl
    · exact hback
    · exact hquote
    · exact hline

theorem literals_behind (n : Nat) (s : List Char) : Literal.scan .code n s = (literals s).map (·.behind n) :=
  scan_behind n .code 0 s

/-- A text that goes on otherwise than with `y` has no beginning that does. -/
theorem start_ne {y : Char} {r a b : List Char} (hr : r = a ++ b) (h : ∀ r', r = y :: r' → False) :
    ∀ a', a = y :: a' → False := by
  rintro a' rfl
  exact h (a' ++ b) hr

/-- At a newline that no literal has the reader is at the end of what stands in front, and in code behind. -/
theorem scan_newline (mode : Mode) (i : Nat) (s : List Char) (hs : s = p ++ '\n' :: q) (hi : StartsBy i mode)
    (hfree : ¬Covered (i + p.length) (Literal.scan mode i s)) :
    Literal.scan mode i s = Literal.scan mode i p ++ Literal.scan .code (i + p.length + 1) q := by
  fun_induction Literal.scan mode i s generalizing p with
  | case1 | case2 | case3 | case4 => simp at hs
  | case5 i r ih | case6 i r ih =>
    obtain ⟨p₁, rfl, h₁⟩ := exists_tail_of_ne hs (by decide)
    obtain ⟨p₂, rfl, h₂⟩ := exists_tail_of_ne h₁ (by decide)
    rw [two_further] at hfree ⊢
    rw [Literal.scan]
    exact ih h₂ (Nat.le_add_right i 2) hfree
  | case7 i r ih =>
    obtain ⟨p₁, rfl, h₁⟩ := exists_tail_of_ne hs (by decide)
    rw [one_further] at hfree ⊢
    rw [Literal.scan]
    exact ih h₁ (Nat.le_add_right i 1) hfree
  | case8 i x r hline hblock hquote ih =>
    rcases List.cons_eq_append_iff.mp hs with ⟨rfl, hr⟩ | ⟨p₁, rfl, h₁⟩
    · obtain ⟨rfl, rfl⟩ := List.cons.inj hr
      rfl
    · rw [one_further] at hfree ⊢
      rw [Literal.scan]
      · exact ih h₁ trivial hfree
      · exact fun r' hx => start_ne h₁ (hline · hx) r'
      · exact fun r' hx => start_ne h₁ (hblock · hx) r'
      · exact hquote
  | case9 a i r ih | case17 a i r ih =>
    rcases List.cons_eq_append_iff.mp hs with ⟨rfl, hr⟩ | ⟨p₁, rfl, h₁⟩
    · obtain ⟨_, rfl⟩ := List.cons.inj hr
      rfl
    · rw [one_further, covered_cons_of_le (by simp; omega)] at hfree
      rw [one_further, Literal.scan, List.cons_append, ih h₁ trivial hfree]
  | case10 a i x r hx ih =>
    obtain ⟨p₁, rfl, h₁⟩ := exists_tail_of_ne hs (Ne.symm hx)
    rw [one_further] at hfree ⊢
    rw [Literal.scan]
    · exact ih h₁ (Nat.le_succ_of_le hi) hfree
    · exact hx
  | case11 a d i r ih | case13 a d i r ih =>
    obtain ⟨p₁, rfl, h₁⟩ := exists_tail_of_ne hs (by decide)
    obtain ⟨p₂, rfl, h₂⟩ := exists_tail_of_ne h₁ (by decide)
    rw [two_further] at hfree ⊢
    rw [Literal.scan]
    exact ih h₂ (Nat.le_add_right_of_le hi) hfree
  | case12 a i r ih =>
    obtain ⟨p₁, rfl, h₁⟩ := exists_tail_of_ne hs (by decide)
    obtain ⟨p₂, rfl, h₂⟩ := exists_tail_of_ne h₁ (by decide)
    rw [two_further, covered_cons_of_le (by simp)] at hfree
    rw [two_further, Literal.scan, List.cons_append, ih h₂ trivial hfree]
  | case14 a d i x r hopen htop hdeep ih =>
    rcases List.cons_eq_append_iff.mp hs with ⟨rfl, _⟩ | ⟨p₁, rfl, h₁⟩
    · exact absurd (Pending.covered (continues_scan (.block a d) (i + 1) r) hi (Nat.lt_succ_self i)) hfree
    · rw [one_further] at hfree ⊢
      rw [Literal.scan]
      · exact ih h₁ (Nat.le_succ_of_le hi) hfree
      · exact fun r' hx => start_ne h₁ (hopen · hx) r'
      · exact fun r' hd hx => start_ne h₁ (htop · hd hx) r'
      · exact fun d' r' hd hx => start_ne h₁ (hdeep d' · hd hx) r'
  | case15 a i x r ih =>
    obtain ⟨p₁, rfl, h₁⟩ := exists_tail_of_ne hs (by decide)
    rcases List.cons_eq_append_iff.mp h₁ with ⟨rfl, _⟩ | ⟨p₂, rfl, h₂⟩
    · exact absurd (Pending.covered (continues_scan (.string a) (i + 2) r) (Nat.le_succ_of_le hi) (by simp)) hfree
    · rw [two_further] at hfree ⊢
      rw [Literal.scan]
      exact ih h₂ (Nat.le_add_right_of_le hi) hfree
  | case16 a i r ih =>
    obtain ⟨p₁, rfl, h₁⟩ := exists_tail_of_ne hs (by decide)
    rw [one_further, covered_cons_of_le (by simp)] at hfree
    rw [one_further, Literal.scan, List.cons_append, ih h₁ trivial hfree]
  | case18 a i x r hback hquote hline ih =>
    obtain ⟨p₁, rfl, h₁⟩ := exists_tail_of_ne hs (Ne.symm hline)
    rw [one_further] at hfree ⊢
    rw [Literal.scan]
    · exact ih h₁ (Nat.le_succ_of_le hi) hfree
    · exact fun y r' hx => start_ne h₁ (hback y · hx) r'
    · exact hquote
    · exact hline

/-- A newline that no literal has parts the literals of a text. -/
theorem literals_newline (hfree : ¬Covered p.length (literals (p ++ '\n' :: q))) :
    literals (p ++ '\n' :: q) = literals p ++ (literals q).map (·.behind (p.length + 1)) := by
  have hscan := scan_newline (p := p) (q := q) .code 0 _ rfl trivial (by rwa [Nat.zero_add])
  rw [Nat.zero_add, literals_behind (p.length + 1)] at hscan
  exact hscan

/-- Two runs of literals blank their parts of the text each. -/
theorem blankFrom_append {i : Nat} {ls ms : List Literal} (r : List Char) (h : Ahead i ls)
    (hls : ∀ l ∈ ls, l.stop ≤ i + p.length) (hms : ∀ l ∈ ms, i + p.length ≤ l.start) :
    blankFrom i (ls ++ ms) (p ++ r) = blankFrom i ls p ++ blankFrom (i + p.length) ms r := by
  induction p generalizing i ls with
  | nil =>
    have hnone : ls = [] := by
      refine List.eq_nil_iff_forall_not_mem.mpr fun l hl => ?_
      have hlater := h.later l hl
      have hstop := hls l hl
      simp at hstop
      omega
    subst hnone
    rfl
  | cons c p ih =>
    rw [one_further] at hls hms ⊢
    cases ls with
    | nil =>
      cases ms with
      | nil => cases r <;> rfl
      | cons m ms =>
        have hstart : i < m.start := by
          have hle := hms m (by simp)
          omega
        have hnil : blankFrom (i + 1) [] p = p := by cases p <;> rfl
        have hnone : Ahead (i + 1) [] := ⟨.nil, by simp, by simp⟩
        have hrest := ih hnone (by simp) hms
        rw [List.nil_append, hnil] at hrest
        have hfirst : blankFrom i (m :: ms) (c :: (p ++ r)) = c :: blankFrom (i + 1) (m :: ms) (p ++ r) := if_pos hstart
        rw [List.nil_append, List.cons_append, hfirst, hrest]
        rfl
    | cons l ls =>
      have hlater := h.later l (by simp)
      have hbounded := h.bounded l (by simp)
      rw [List.cons_append, List.cons_append, blankFrom, blankFrom]
      by_cases hstart : i < l.start
      · have hrest := ih (h.further (by omega)) hls hms
        rw [if_pos hstart, if_pos hstart, List.cons_append, ← hrest]
        rfl
      · rw [if_neg hstart, if_neg hstart, List.cons_append]
        by_cases hlast : i + 1 < l.stop
        · rw [if_pos hlast, if_pos hlast, ← ih (h.further hlast) hls hms]
          rfl
        · rw [if_neg hlast, if_neg hlast, ← ih (h.tail (by omega)) (fun l' hl' => hls l' (by simp [hl'])) hms]

theorem Literal.blankAt_behind (n : Nat) (l : Literal) (i : Nat) (c : Char) :
    (l.behind n).blankAt (n + i) c = l.blankAt i c := by
  have hstart : n + i = n + l.start ↔ i = l.start := Nat.add_left_cancel_iff
  have hstop : n + i + 1 = n + l.stop ↔ i + 1 = l.stop := by omega
  simp only [Literal.blankAt, Literal.behind, hstart, hstop]

theorem blankFrom_behind (n i : Nat) (ls : List Literal) (s : List Char) :
    blankFrom (n + i) (ls.map (·.behind n)) s = blankFrom i ls s := by
  induction s generalizing i ls with
  | nil => cases ls <;> rfl
  | cons c s ih =>
    cases ls with
    | nil => rfl
    | cons l ls =>
      have hstart : n + i < (l.behind n).start ↔ i < l.start := Nat.add_lt_add_iff_left
      have hstop : n + i + 1 < (l.behind n).stop ↔ i + 1 < l.stop := by
        rw [Nat.add_assoc]
        exact Nat.add_lt_add_iff_left
      have hcons := ih (i + 1) (l :: ls)
      rw [List.map_cons] at hcons
      rw [List.map_cons, blankFrom, blankFrom, l.blankAt_behind]
      by_cases hin : i < l.start
      · rw [if_pos (hstart.mpr hin), if_pos hin, ← hcons]
        rfl
      · rw [if_neg (mt hstart.mp hin), if_neg hin]
        by_cases hmore : i + 1 < l.stop
        · rw [if_pos (hstop.mpr hmore), if_pos hmore, ← hcons]
          rfl
        · rw [if_neg (mt hstop.mp hmore), if_neg hmore, ← ih (i + 1) ls]
          rfl

/-- A newline that no literal has parts a text into two that are blanked each on its own. -/
theorem codeOnly_newline (hfree : ¬Covered p.length (literals (p ++ '\n' :: q))) :
    codeOnly (p ++ '\n' :: q) = codeOnly p ++ '\n' :: codeOnly q := by
  have hlexed := lexed_literals p
  have hfront : ∀ l ∈ literals p, l.stop ≤ 0 + p.length := fun l hl => by
    rw [Nat.zero_add]
    exact (hlexed.bounded l hl).2
  have hback : ∀ l ∈ (literals q).map (·.behind (p.length + 1)), p.length + 1 ≤ l.start := by
    intro l hl
    obtain ⟨l', _, rfl⟩ := List.mem_map.mp hl
    exact Nat.le_add_right _ _
  have hparts := blankFrom_append ('\n' :: q) (ahead_literals p) hfront fun l hl => by
    have hle := hback l hl
    omega
  have hline : blankFrom (0 + p.length) ((literals q).map (·.behind (p.length + 1))) ('\n' :: q) =
      '\n' :: blankFrom (p.length + 1) ((literals q).map (·.behind (p.length + 1))) q := by
    rw [Nat.zero_add]
    cases hls : (literals q).map (·.behind (p.length + 1)) with
    | nil =>
      cases q <;> rfl
    | cons l ls =>
      have hle := hback l (by rw [hls]; simp)
      exact if_pos (by omega)
  rw [codeOnly, literals_newline hfree, hparts, hline, ← Nat.add_zero (p.length + 1), blankFrom_behind]
  rfl

end Splitting

/-- A newline that a string reaches belongs to it exactly if a backslash takes it, so a string of a text in which no
newline follows a backslash keeps within its line. A newline that no literal has ends all that is open: comments and
strings are found, and blanked, in front of it and behind it as in texts of their own. -/
theorem string_newline_taken (s : List Char) :
    (∀ l ∈ literals s, l.kind = .string → ∀ i, l.start ≤ i → i ≤ l.stop → s[i]? = some '\n' →
      (i < l.stop ↔ taken s l.start (i - l.start) = true)) ∧
    ((∀ i : Nat, s[i]? = some '\\' → s[i + 1]? ≠ some '\n') →
      ∀ l ∈ literals s, l.kind = .string → ∀ i, l.start ≤ i → i < l.stop → s[i]? ≠ some '\n') ∧
    ∀ p q, s = p ++ '\n' :: q → ¬Covered p.length (literals s) →
      literals s = literals p ++ (literals q).map (·.behind (p.length + 1)) ∧
        codeOnly s = codeOnly p ++ '\n' :: codeOnly q := by
  have hiff : ∀ l ∈ literals s, l.kind = .string → ∀ i, l.start ≤ i → i ≤ l.stop → s[i]? = some '\n' →
      (i < l.stop ↔ taken s l.start (i - l.start) = true) := by
    intro l hl hkind i hstart hstop hline
    obtain ⟨hopen, hstring⟩ := ((lexed_literals s).spelled l hl).stringStop hkind
    exact hstring.newline_lt_iff hopen hstart hstop hline
  refine ⟨hiff, ?_, ?_⟩
  · intro hno l hl hkind i hstart hstop hline
    have htaken := (hiff l hl hkind i hstart (Nat.le_of_lt hstop) hline).mp hstop
    obtain ⟨m, hm, hback⟩ := backslash_of_taken htaken
    refine hno _ hback ?_
    have hnext : l.start + m + 1 = i := by omega
    rw [hnext, hline]
  · rintro p q rfl hfree
    exact ⟨literals_newline hfree, codeOnly_newline hfree⟩

/-- A string that nothing closes, with a backslash at the end of its line, has the next line too: the declaration there
is blanked like the inside of a string. -/
theorem string_over_newline :
    literals "\"\\\npub var a: Int".toList = [⟨0, 17, .string⟩] ∧ "\"\\\npub var a: Int".toList[2]? = some '\n' ∧
      codeOnly "\"\\\npub var a: Int".toList = "\" \n              ".toList := by
  decide +kernel

end CadenceUplift
