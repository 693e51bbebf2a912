import CadenceUplift.Literal.Guess
import CadenceUplift.Proofs.Literal.Exactness

namespace CadenceUplift

/-- A single line without escapes, with no quotes but double ones, and with no sign of a block comment. -/
structure PlainLine (s : List Char) : Prop where
  single : '\n' ∉ s
  unescaped : '\\' ∉ s
  no_apostrophe : '\'' ∉ s
  no_backtick : '`' ∉ s
  no_block : Text.hasText s ['/', '*'] = false
  no_star : (Text.trimLeft s).head? ≠ some '*'

/-- An odd number of double quotes stands in front of the place. -/
def InQuotes (s : List Char) (i : Nat) : Prop := (s.take i).count '"' % 2 = 1

/-- A double slash starts at the place. -/
def SlashesAt (s : List Char) (i : Nat) : Prop := s[i]? = some '/' ∧ s[i + 1]? = some '/'

/-- From offset `lo` on, the place is in quotes or behind a double slash that is not. -/
def Marked (s : List Char) (lo j : Nat) : Prop := InQuotes s j ∨ ∃ p, lo ≤ p ∧ p < j ∧ SlashesAt s p ∧ ¬InQuotes s p

section Quotes

variable {s : List Char} {i : Nat}

theorem not_inQuotes_zero (s : List Char) : ¬InQuotes s 0 := by
  simp [InQuotes]

/-- A quote changes whether the next place is in quotes, and nothing else does. -/
theorem inQuotes_succ : InQuotes s (i + 1) ↔ (s[i]? = some '"' ↔ ¬InQuotes s i) := by
  rw [InQuotes, InQuotes, List.take_add_one, List.count_append]
  by_cases hquote : s[i]? = some '"'
  · rw [hquote, Option.toList_some, List.count_singleton_self]
    simp only [true_iff]
    omega
  · have hnone : s[i]?.toList.count '"' = 0 := by
      refine List.count_eq_zero_of_not_mem fun hmem => hquote ?_
      simpa using hmem
    rw [hnone, Nat.add_zero]
    simp only [hquote, false_iff, Classical.not_not]

theorem inQuotes_congr {a b : Nat} (hab : a ≤ b) (h : ∀ k, a ≤ k → k < b → s[k]? ≠ some '"') :
    InQuotes s b ↔ InQuotes s a := by
  induction b, hab using Nat.le_induction with
  | base => rfl
  | succ b hab ih =>
    have hquote := h b hab (Nat.lt_succ_self b)
    rw [inQuotes_succ, ← ih fun k hak hkb => h k hak (Nat.lt_succ_of_lt hkb)]
    simp only [hquote, false_iff, Classical.not_not]

/-- Nothing is marked up to the first place where a literal opens. -/
theorem not_marked_of_not_opensAt {lo j : Nat} (hlo : ¬InQuotes s lo) (hj : lo ≤ j)
    (h : ∀ k, lo ≤ k → k < j → ¬OpensAt s k) : ¬Marked s lo j := by
  have hquotes : InQuotes s j ↔ InQuotes s lo := inQuotes_congr hj fun k hk hkj hquote => h k hk hkj (.inl hquote)
  rintro (hin | ⟨p, hlop, hpj, hslashes, _⟩)
  · exact hlo (hquotes.mp hin)
  · exact h p hlop hpj (.inr ⟨hslashes.1, .inl hslashes.2⟩)

end Quotes

section Guesses

variable {s : List Char} {i p : Nat}

theorem unescapedCount_eq_count (quote : Char) (h : '\\' ∉ s) : Guess.unescapedCount quote s = s.count quote := by
  fun_induction Guess.unescapedCount quote s with
  | case1 => rfl
  | case2 => simp at h
  | case3 => simp at h
  | case4 c r _ _ ih =>
    rw [ih (List.not_mem_of_not_mem_cons h), List.count_cons, Nat.add_comm]
    simp only [beq_iff_eq]

theorem slashesAt_of_mem_doubleSlashes (h : p ∈ Guess.doubleSlashes i s) : i ≤ p ∧ SlashesAt s (p - i) := by
  fun_induction Guess.doubleSlashes i s with
  | case1 => cases h
  | case2 i r ih =>
    rcases List.mem_cons.mp h with rfl | h
    · exact ⟨Nat.le_refl _, by simp [SlashesAt]⟩
    · obtain ⟨hle, hslashes⟩ := ih h
      obtain ⟨k, rfl⟩ := Nat.exists_eq_add_of_le hle
      refine ⟨by omega, ?_⟩
      rw [Nat.add_sub_cancel_left] at hslashes
      rwa [show i + 2 + k - i = k + 2 by omega]
  | case3 i c r _ ih =>
    obtain ⟨hle, hslashes⟩ := ih h
    obtain ⟨k, rfl⟩ := Nat.exists_eq_add_of_le hle
    refine ⟨by omega, ?_⟩
    rw [Nat.add_sub_cancel_left] at hslashes
    rwa [show i + 1 + k - i = k + 1 by omega]

/-- A double slash is one of those that are looked at, or overlaps one that starts a place before it. -/
theorem mem_doubleSlashes_of_slashesAt {k : Nat} (h : SlashesAt s k) :
    i + k ∈ Guess.doubleSlashes i s ∨ ∃ j, k = j + 1 ∧ s[j]? = some '/' ∧ i + j ∈ Guess.doubleSlashes i s := by
  fun_induction Guess.doubleSlashes i s generalizing k with
  | case1 => simp [SlashesAt] at h
  | case2 i r ih =>
    match k, h with
    | 0, _ => exact .inl List.mem_cons_self
    | 1, _ => exact .inr ⟨0, rfl, rfl, List.mem_cons_self⟩
    | k + 2, h =>
      rcases ih h with hmem | ⟨j, rfl, hslash, hmem⟩
      · exact .inl (List.mem_cons_of_mem _ (by rwa [show i + (k + 2) = i + 2 + k by omega]))
      · exact .inr ⟨j + 2, rfl, hslash, List.mem_cons_of_mem _ (by rwa [show i + (j + 2) = i + 2 + j by omega])⟩
  | case3 i c r hnot ih =>
    cases k with
    | zero =>
      obtain ⟨hc, hr⟩ := h
      obtain ⟨r', rfl⟩ : ∃ r', r = '/' :: r' := by
        cases r with
        | nil => simp at hr
        | cons y r' => exact ⟨r', by simpa using hr⟩
      exact absurd rfl (hnot r' (by simpa using hc))
    | succ k =>
      rcases ih h with hmem | ⟨j, rfl, hslash, hmem⟩
      · exact .inl (by rwa [show i + (k + 1) = i + 1 + k by omega])
      · exact .inr ⟨j + 1, rfl, hslash, by rwa [show i + (j + 1) = i + 1 + j by omega]⟩

namespace PlainLine

theorem inString_iff (h : PlainLine s) (i : Nat) : Guess.inString s i Guess.quoteChars = true ↔ InQuotes s i := by
  have hcount (quote : Char) : Guess.unescapedCount quote (s.take i) = (s.take i).count quote :=
    unescapedCount_eq_count quote fun hmem => h.unescaped (List.mem_of_mem_take hmem)
  have hapostrophe : (s.take i).count '\'' = 0 :=
    List.count_eq_zero_of_not_mem fun hmem => h.no_apostrophe (List.mem_of_mem_take hmem)
  have hbacktick : (s.take i).count '`' = 0 :=
    List.count_eq_zero_of_not_mem fun hmem => h.no_backtick (List.mem_of_mem_take hmem)
  simp [Guess.inString, Guess.quoteChars, InQuotes, hcount, hapostrophe, hbacktick]

/-- The line does not read like the body of a block comment. -/
theorem inComment_eq_any (h : PlainLine s) (i : Nat) : Guess.inComment s i =
    (Guess.doubleSlashes 0 s).any fun p => decide (p < i) && !Guess.inString s p Guess.quoteChars := by
  have hblock : Text.startsWith (Text.trimLeft s) ['/', '*'] = false := by
    rw [← Bool.not_eq_true, Text.startsWith, List.isPrefixOf_iff_prefix]
    intro hprefix
    have hinfix : ['/', '*'] <:+: s := hprefix.isInfix.trans (List.dropWhile_suffix _).isInfix
    rw [← Text.hasText_iff, h.no_block] at hinfix
    exact Bool.false_ne_true hinfix
  have hstar : Text.startsWith (Text.trimLeft s) ['*'] = false := by
    rw [← Bool.not_eq_true, Text.startsWith, List.isPrefixOf_iff_prefix]
    rintro ⟨r, hr⟩
    exact h.no_star (by rw [← hr]; rfl)
  simp only [Guess.inComment, hblock, hstar, Bool.false_or]

/-- Only some double slashes are looked at, but one of them is outside quotes where any is. -/
theorem inComment_iff (h : PlainLine s) (i : Nat) :
    Guess.inComment s i = true ↔ ∃ p < i, SlashesAt s p ∧ ¬InQuotes s p := by
  have hany : Guess.inComment s i = true ↔ ∃ p ∈ Guess.doubleSlashes 0 s, p < i ∧ ¬InQuotes s p := by
    simp only [h.inComment_eq_any, List.any_eq_true, Bool.and_eq_true, decide_eq_true_eq, Bool.not_eq_true',
      ← Bool.not_eq_true, h.inString_iff]
  rw [hany]
  constructor
  · rintro ⟨p, hp, hpi, hquotes⟩
    exact ⟨p, hpi, (slashesAt_of_mem_doubleSlashes hp).2, hquotes⟩
  · rintro ⟨p, hpi, hslashes, hquotes⟩
    rcases mem_doubleSlashes_of_slashesAt (i := 0) hslashes with hmem | ⟨j, rfl, hslash, hmem⟩
    · exact ⟨p, by rwa [Nat.zero_add] at hmem, hpi, hquotes⟩
    · rw [inQuotes_succ, hslash] at hquotes
      exact ⟨j, by rwa [Nat.zero_add] at hmem, by omega, by simpa using hquotes⟩

end PlainLine

end Guesses

namespace PlainLine

variable {s : List Char} {a b : Nat}

theorem taken_eq_false (h : PlainLine s) (a n : Nat) : taken s a n = false := by
  cases n with
  | zero => rfl
  | succ n =>
    have hback : s[a + n]? ≠ some '\\' := fun hback => h.unescaped (List.mem_of_getElem? hback)
    simp [taken, hback]

theorem not_star_of_slash (h : PlainLine s) (hslash : s[a]? = some '/') : s[a + 1]? ≠ some '*' := by
  intro hstar
  have hdrop : s.drop a = '/' :: '*' :: s.drop (a + 2) := by
    obtain ⟨ha, hslash⟩ := List.getElem?_eq_some_iff.mp hslash
    obtain ⟨ha', hstar⟩ := List.getElem?_eq_some_iff.mp hstar
    rw [List.drop_eq_getElem_cons ha, List.drop_eq_getElem_cons ha', hslash, hstar]
  have hinfix : ['/', '*'] <:+: s := ⟨s.take a, s.drop (a + 2), by
    rw [List.append_assoc, List.cons_append, List.cons_append, List.nil_append, ← hdrop, List.take_append_drop]⟩
  rw [← Text.hasText_iff, h.no_block] at hinfix
  exact Bool.false_ne_true hinfix

/-- Between its ends a string has no quote. -/
theorem not_quote_of_stringStop (h : PlainLine s) (hstop : StringStop s a b) {k : Nat} (hak : a < k) (hkb : k + 1 < b) :
    s[k]? ≠ some '"' := by
  intro hquote
  have hbreaks : Breaks s a (k - a) :=
    ⟨by omega, h.taken_eq_false a _, .inl (by rwa [Nat.add_sub_cancel' (Nat.le_of_lt hak)])⟩
  rcases hstop with ⟨n, _, hfirst, ⟨_, rfl⟩ | ⟨hline, _⟩⟩ | ⟨hnone, _⟩
  · exact hfirst (k - a) (by omega) hbreaks
  · exact h.single (List.mem_of_getElem? hline)
  · exact hnone (k - a) hbreaks

/-- A string that ends before the line does is closed by a quote. -/
theorem quote_of_stringStop (h : PlainLine s) (hstop : StringStop s a b) (hb : b < s.length) :
    ∃ k, a < k ∧ b = k + 1 ∧ s[k]? = some '"' := by
  rcases hstop with ⟨n, hbreaks, _, ⟨hquote, rfl⟩ | ⟨hline, _⟩⟩ | ⟨_, rfl⟩
  · exact ⟨a + n, Nat.lt_add_of_pos_right hbreaks.1, rfl, hquote⟩
  · exact absurd (List.mem_of_getElem? hline) h.single
  · exact absurd hb (Nat.lt_irrefl _)

theorem inQuotes_of_stringStop (h : PlainLine s) (hopen : s[a]? = some '"') (hstop : StringStop s a b)
    (ha : ¬InQuotes s a) {j : Nat} (haj : a < j) (hjb : j < b) : InQuotes s j := by
  rw [inQuotes_congr (Nat.succ_le_of_lt haj) fun k hak hkj => h.not_quote_of_stringStop hstop hak (by omega),
    inQuotes_succ]
  exact ⟨fun _ => ha, fun _ => hopen⟩

theorem not_inQuotes_stop (h : PlainLine s) (hopen : s[a]? = some '"') (hstop : StringStop s a b) (ha : ¬InQuotes s a)
    (hb : b < s.length) : ¬InQuotes s b := by
  obtain ⟨k, hak, rfl, hquote⟩ := h.quote_of_stringStop hstop hb
  have hin := h.inQuotes_of_stringStop hopen hstop ha hak (Nat.lt_succ_self k)
  rw [inQuotes_succ]
  exact fun hiff => hiff.mp hquote hin

/-- Behind a string nothing but what follows it counts: a double slash in it is in quotes. -/
theorem marked_behind (h : PlainLine s) (hopen : s[a]? = some '"') (hstop : StringStop s a b) (ha : ¬InQuotes s a)
    {lo j : Nat} (hlo : lo ≤ b) (hfront : ∀ k, lo ≤ k → k < a → ¬OpensAt s k) : Marked s lo j ↔ Marked s b j := by
  refine or_congr_right ⟨?_, ?_⟩
  · rintro ⟨p, hlop, hpj, hslashes, hquotes⟩
    refine ⟨p, ?_, hpj, hslashes, hquotes⟩
    by_contra hpb
    rcases Nat.lt_trichotomy p a with hpa | rfl | hap
    · exact hfront p hlop hpa (.inr ⟨hslashes.1, .inl hslashes.2⟩)
    · have hquote := hslashes.1
      simp [hopen] at hquote
    · exact hquotes (h.inQuotes_of_stringStop hopen hstop ha hap (Nat.lt_of_not_le hpb))
  · rintro ⟨p, hbp, hrest⟩
    exact ⟨p, Nat.le_trans hlo hbp, hrest⟩

theorem guess_iff_marked (h : PlainLine s) (i : Nat) :
    Guess.inComment s i = true ∨ Guess.inString s i Guess.quoteChars = true ↔ Marked s 0 i := by
  rw [h.inComment_iff, h.inString_iff, or_comm, Marked]
  simp only [Nat.zero_le, true_and]

/-- The literals from a place on, where no quotes are open, have the places that are marked from there on. -/
theorem covered_iff_marked (h : PlainLine s) {lo j : Nat} {ls : List Literal} (hls : LexedFrom s lo ls)
    (hlo : ¬InQuotes s lo) (hj : lo ≤ j) (hlength : j < s.length) (hstart : ∀ l ∈ ls, l.start ≠ j) :
    Covered j ls ↔ Marked s lo j := by
  induction ls generalizing lo with
  | nil =>
    have hnone : ¬Covered j [] := by simp [Covered]
    have hmarked := not_marked_of_not_opensAt hlo hj fun k hk _ => hls.outside k hk (by simp [Covered])
    exact iff_of_false hnone hmarked
  | cons l ls ih =>
    have hbounded := hls.bounded l List.mem_cons_self
    have hlater := hls.later l List.mem_cons_self
    have hfront : ∀ k, lo ≤ k → k < l.start → ¬OpensAt s k := fun k hk hkl => hls.outside k hk (hls.not_covered hkl)
    have hopen : ¬InQuotes s l.start := by
      rwa [inQuotes_congr hlater fun k hk hkl hquote => hfront k hk hkl (.inl hquote)]
    rcases Nat.lt_trichotomy j l.start with hjl | rfl | hlj
    · have hmarked := not_marked_of_not_opensAt hlo hj fun k hk hkj => hfront k hk (Nat.lt_trans hkj hjl)
      exact iff_of_false (hls.not_covered hjl) hmarked
    · exact absurd rfl (hstart l List.mem_cons_self)
    · by_cases hin : j < l.stop
      · refine iff_of_true ⟨l, List.mem_cons_self, Nat.le_of_lt hlj, hin⟩ ?_
        cases hls.spelled l List.mem_cons_self with
        | line h₁ h₂ _ => exact .inr ⟨_, hlater, hlj, ⟨h₁, h₂⟩, hopen⟩
        | block h₁ h₂ _ => exact absurd h₂ (h.not_star_of_slash h₁)
        | string h₁ hstop => exact .inl (h.inQuotes_of_stringStop h₁ hstop hopen hlj hin)
      · have hstop : l.stop ≤ j := Nat.le_of_not_lt hin
        rw [covered_cons_of_le hstop]
        cases hls.spelled l List.mem_cons_self with
        | line _ _ hend =>
          rcases hend.2 with hline | hend
          · exact absurd (List.mem_of_getElem? hline) h.single
          · exact absurd hlength (by simp only at hstop; omega)
        | block h₁ h₂ _ => exact absurd h₂ (h.not_star_of_slash h₁)
        | string h₁ hend =>
          rw [h.marked_behind h₁ hend hopen (by simp only at hbounded hlater; omega) hfront]
          exact ih hls.tail (h.not_inQuotes_stop h₁ hend hopen (Nat.lt_of_le_of_lt hstop hlength)) hstop
            fun l hl => hstart l (List.mem_cons_of_mem _ hl)

end PlainLine

/-- A place that no literal starts at is guessed to be in one exactly if it is. -/
theorem PlainLine.guess_iff_covered {s : List Char} (h : PlainLine s) {i : Nat} (hi : i < s.length)
    (hstart : ∀ l ∈ literals s, l.start ≠ i) :
    Guess.inComment s i = true ∨ Guess.inString s i Guess.quoteChars = true ↔ Covered i (literals s) := by
  have hlexed : LexedFrom s 0 (literals s) := (lexed_literals s).lexedFrom
  rw [h.guess_iff_marked, h.covered_iff_marked hlexed (not_inQuotes_zero s) (Nat.zero_le i) hi hstart]

/-- On a plain line a place is guessed to be in a comment or in a string exactly if a literal of the line has it. The
places at which literals start are left out: the character that opens a literal is no part of what the guesses tell. -/
theorem guess_iff_covers {s : List Char} (h : PlainLine s) {i : Nat} (hi : i < s.length)
    (hstart : ∀ l ∈ literals s, l.start ≠ i) :
    Guess.inComment s i = true ∨ Guess.inString s i Guess.quoteChars = true ↔ (literalIndex s).covers i = true := by
  rw [h.guess_iff_covered hi hstart, covers_literalIndex_iff]

/-- The second slash of an address in a string, on a line that ends in a comment with a quote. -/
theorem guess_iff_covers_address :
    let s := "let a = \"https://b\" // \"c".toList
    PlainLine s ∧ 16 < s.length ∧ (∀ l ∈ literals s, l.start ≠ 16) ∧
      (Guess.inComment s 16 = true ∨ Guess.inString s 16 Guess.quoteChars = true ↔
        (literalIndex s).covers 16 = true) := by
  intro s
  have hplain : PlainLine s := ⟨by decide, by decide, by decide, by decide, by decide +kernel, by decide +kernel⟩
  have hstart : ∀ l ∈ literals s, l.start ≠ 16 := by decide +kernel
  exact ⟨hplain, by decide, hstart, guess_iff_covers hplain (by decide) hstart⟩

end CadenceUplift
