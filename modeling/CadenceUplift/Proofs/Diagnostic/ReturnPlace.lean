import CadenceUplift.Proofs.Diagnostic.Marks
import CadenceUplift.Proofs.Matching.Conformance

namespace CadenceUplift

open Text Pattern

/-- No part of the text up to some place closes more brackets than it opens. -/
def Contained (opening closing : Char) (u : List Char) : Prop := ∀ p, p <+: u → p.count closing ≤ p.count opening

/-- The text ends within the brackets that the first opening one in it starts. -/
def EndsWithin (opening closing : Char) (u : List Char) : Prop :=
  ∃ a b, u = a ++ opening :: b ∧ opening ∉ a ∧ Contained opening closing b

/-- The text ends where the first opening bracket in it may be closed: all others in it are. -/
def EndsReady (opening closing : Char) (u : List Char) : Prop :=
  ∃ a b, u = a ++ opening :: b ∧ opening ∉ a ∧ Contained opening closing b ∧ b.count closing = b.count opening

section Brackets

variable {opening closing : Char}

theorem contained_nil : Contained opening closing [] := by
  intro p hp
  rw [List.prefix_nil.mp hp]
  exact Nat.le_refl _

/-- A text is contained, or it closes one bracket too many behind some contained text. -/
theorem contained_or_closes (opening closing : Char) (u : List Char) :
    Contained opening closing u ∨
      ∃ b q, u = b ++ closing :: q ∧ Contained opening closing b ∧ b.count closing = b.count opening := by
  induction u using List.reverseRecOn with
  | nil => exact .inl contained_nil
  | append_singleton u c ih =>
    rcases ih with hu | ⟨b, q, rfl, hb, hcount⟩
    · by_cases hc : c = closing ∧ u.count closing = u.count opening
      · obtain ⟨rfl, hcount⟩ := hc
        exact .inr ⟨u, [], rfl, hu, hcount⟩
      · refine .inl ?_
        intro p hp
        rcases List.prefix_concat_iff.mp hp with rfl | hp
        · have hle := hu u (List.prefix_refl u)
          rw [List.count_append, List.count_append]
          by_cases hclosing : c = closing
          · have hlt : u.count closing ≠ u.count opening := fun hcount => hc ⟨hclosing, hcount⟩
            rw [hclosing, List.count_singleton_self]
            omega
          · rw [List.count_singleton', if_neg hclosing]
            omega
        · exact hu p hp
    · exact .inr ⟨b, q ++ [c], by simp, hb, hcount⟩

/-- A text has no opening bracket, or it ends within those that the first one starts, or these are closed in it. -/
theorem endsWithin_or_closes (opening closing : Char) (u : List Char) :
    opening ∉ u ∨ EndsWithin opening closing u ∨ ∃ w q, u = w ++ closing :: q ∧ EndsReady opening closing w := by
  by_cases hmem : opening ∈ u
  · refine .inr ?_
    obtain ⟨a, b, rfl, ha⟩ := List.eq_append_cons_of_mem hmem
    rcases contained_or_closes opening closing b with hb | ⟨b', q, rfl, hb', hcount⟩
    · exact .inl ⟨a, b, rfl, ha, hb⟩
    · exact .inr ⟨a ++ opening :: b', q, by simp, a, b', rfl, ha, hb', hcount⟩
  · exact .inl hmem

theorem EndsReady.not_endsWithin {w q : List Char} (h : EndsReady opening closing w) (hne : closing ≠ opening) :
    ¬ EndsWithin opening closing (w ++ closing :: q) := by
  obtain ⟨a, b, rfl, ha, _, hcount⟩ := h
  rintro ⟨a', b', heq, ha', hb'⟩
  rw [List.append_assoc, List.cons_append] at heq
  obtain ⟨_, rfl⟩ := append_cons_inj_of_not_mem ha ha' heq
  have hle := hb' (b ++ [closing]) ⟨q, by simp⟩
  rw [List.count_append, List.count_append, List.count_singleton_self, List.count_singleton', if_neg hne] at hle
  omega

theorem EndsReady.endsWithin {w : List Char} (h : EndsReady opening closing w) : EndsWithin opening closing w := by
  obtain ⟨a, b, hw, ha, hb, _⟩ := h
  exact ⟨a, b, hw, ha, hb⟩

/-- The bracket that closes the first opening one of a text stands in one place only. -/
theorem EndsReady.unique {w w' q q' : List Char} (h : EndsReady opening closing w) (h' : EndsReady opening closing w')
    (hne : closing ≠ opening) (heq : w ++ closing :: q = w' ++ closing :: q') : w = w' ∧ q = q' := by
  rcases List.append_eq_append_iff.mp heq with ⟨z, rfl, hz⟩ | ⟨z, rfl, hz⟩
  · cases z with
    | nil => simpa using hz
    | cons c z =>
      obtain ⟨rfl, _⟩ := List.cons.inj hz
      exact absurd h'.endsWithin (h.not_endsWithin hne)
  · cases z with
    | nil => simpa [eq_comm] using hz
    | cons c z =>
      obtain ⟨rfl, _⟩ := List.cons.inj hz
      exact absurd h.endsWithin (h'.not_endsWithin hne)

end Brackets

section Parameters

theorem forall_prefix_cons {P : List Char → Prop} {c : Char} {u : List Char} :
    (∀ p, p <+: c :: u → P p) ↔ P [] ∧ ∀ p, p <+: u → P (c :: p) := by
  constructor
  · intro h
    exact ⟨h [] List.nil_prefix, fun p hp => h (c :: p) ((List.prefix_cons_inj c).mpr hp)⟩
  · rintro ⟨hnil, hcons⟩ p hp
    rcases List.prefix_cons_iff.mp hp with rfl | ⟨q, rfl, hq⟩
    · exact hnil
    · exact hcons q hq

/-- The text closes so many round brackets more than it opens, and nowhere in it more than that. -/
def Lowers (depth : Nat) (y : List Char) : Prop :=
  (∀ p, p <+: y → p.count ')' ≤ depth + p.count '(') ∧ y.count ')' = depth + y.count '('

theorem Lowers.cons {depth depth' : Nat} {c : Char} {y : List Char} (h : Lowers depth' y)
    (hstep : ∀ p, (c :: p).count ')' + depth' + p.count '(' = p.count ')' + depth + (c :: p).count '(') :
    Lowers depth (c :: y) := by
  refine ⟨forall_prefix_cons.mpr ⟨Nat.zero_le _, ?_⟩, ?_⟩
  · intro p hp
    have hle := h.1 p hp
    have hc := hstep p
    omega
  · have hcount := h.2
    have hc := hstep y
    omega

/-- The bracket that closes a parameter list is found if enough brackets are closed for those that are opened. -/
theorem exists_closingRound (i depth : Nat) {r : List Char} (h : r.count '(' + depth < r.count ')') :
    ∃ y after, r = y ++ ')' :: after ∧ closingRound i (depth + 1) r = some (i + y.length) ∧ Lowers depth y := by
  induction r generalizing i depth with
  | nil => simp at h
  | cons c r ih =>
    have hpass (depth' : Nat) (hrun : closingRound i (depth + 1) (c :: r) = closingRound (i + 1) (depth' + 1) r)
        (hstep : ∀ p, (c :: p).count ')' + depth' + p.count '(' = p.count ')' + depth + (c :: p).count '(') :
        ∃ y after, c :: r = y ++ ')' :: after ∧ closingRound i (depth + 1) (c :: r) = some (i + y.length) ∧
          Lowers depth y := by
      have hr := hstep r
      obtain ⟨y, after, rfl, hclosing, hy⟩ := ih (i + 1) depth' (by omega)
      refine ⟨c :: y, after, rfl, ?_, hy.cons hstep⟩
      rw [hrun, hclosing, List.length_cons, Nat.add_right_comm, Nat.add_assoc]
    by_cases hopen : c = '('
    · refine hpass (depth + 1) (by rw [closingRound, if_pos hopen]) ?_
      intro p
      rw [hopen, List.count_cons_self, List.count_cons_of_ne (by decide)]
      omega
    · by_cases hclose : c = ')'
      · cases depth with
        | zero =>
          refine ⟨[], r, by rw [hclose]; rfl, ?_, by simp [Lowers]⟩
          rw [closingRound, if_neg hopen, if_pos hclose]
          rfl
        | succ depth =>
          refine hpass depth (by rw [closingRound, if_neg hopen, if_pos hclose, if_neg (by omega)]; rfl) ?_
          intro p
          rw [hclose, List.count_cons_self, List.count_cons_of_ne (by decide)]
          omega
      · refine hpass depth (by rw [closingRound, if_neg hopen, if_neg hclose]) ?_
        intro p
        rw [List.count_cons_of_ne hopen, List.count_cons_of_ne hclose]

/-- In a text that closes all round brackets from its first one on, the one that closes the first is found. -/
theorem exists_closed {w r : List Char} (hw : ∀ c ∈ w, c ≠ '(' ∧ c ≠ ')')
    (h : occurrences '(' (w ++ '(' :: r) ≤ occurrences ')' (w ++ '(' :: r)) :
    ∃ y, r = y ++ ')' :: afterParameters (w ++ '(' :: r) ∧
      closingRound 0 0 ((w ++ '(' :: r).dropWhile (· != '(')) = some (y.length + 1) ∧ Contained '(' ')' y ∧
      y.count ')' = y.count '(' := by
  have hopening : '(' ∉ w := fun hmem => (hw _ hmem).1 rfl
  have hclosing : ')' ∉ w := fun hmem => (hw _ hmem).2 rfl
  have hlt : r.count '(' + 0 < r.count ')' := by
    rwa [occurrences, occurrences, List.count_append, List.count_append, List.count_eq_zero_of_not_mem hopening,
      List.count_eq_zero_of_not_mem hclosing, List.count_cons_self, List.count_cons_of_ne (by decide), Nat.zero_add,
      Nat.zero_add] at h
  obtain ⟨y, after, rfl, hround, hy, hcount⟩ := exists_closingRound 1 0 hlt
  have hdrop : (w ++ '(' :: (y ++ ')' :: after)).dropWhile (· != '(') = '(' :: (y ++ ')' :: after) := by
    rw [List.dropWhile_append_of_pos fun c hc => bne_iff_ne.mpr (hw c hc).1]
    rfl
  have hfirst : closingRound 0 0 ('(' :: (y ++ ')' :: after)) = some (y.length + 1) := by
    rw [Nat.add_comm]
    exact hround
  have hafter : afterParameters (w ++ '(' :: (y ++ ')' :: after)) = after := by
    rw [afterParameters, hdrop, hfirst]
    simp
  refine ⟨y, by rw [hafter], by rw [hdrop, hfirst], ?_, by omega⟩
  intro p hp
  simpa using hy p hp

/-- Such a text is a parameter list and what is taken to follow it. -/
theorem exists_parameters {w r : List Char} (hw : ∀ c ∈ w, c ≠ '(' ∧ c ≠ ')')
    (h : occurrences '(' (w ++ '(' :: r) ≤ occurrences ')' (w ++ '(' :: r)) :
    ∃ parameters, w ++ '(' :: r = parameters ++ ')' :: afterParameters (w ++ '(' :: r) ∧
      EndsReady '(' ')' parameters := by
  obtain ⟨y, hr, _, hy, hcount⟩ := exists_closed hw h
  have hopening : '(' ∉ w := fun hmem => (hw _ hmem).1 rfl
  refine ⟨w ++ '(' :: y, ?_, w, y, rfl, hopening, hy, hcount⟩
  rw [List.append_assoc, List.cons_append, ← hr]

/-- The text in front of a match, and the text from it on with a way of the pattern through it. -/
theorem exists_reach_of_isMatch {p : Pattern} (hp : p.isRegular = true) {l : List Char} {M : Match}
    (h : p.IsMatch l.toArray M) :
    ∃ a u e, l = a ++ u ∧ a.length = M.start ∧ Reach (a ++ u).toArray p ⟨a.length, []⟩ e := by
  obtain ⟨hstart, ok, h⟩ := h
  obtain ⟨s, hs, _⟩ := Option.map_eq_some_iff.mp h
  obtain ⟨e, hreach, _⟩ := run_sound hp hs
  have hlength : (l.take M.start).length = M.start := List.length_take_of_le (by simpa using hstart)
  refine ⟨l.take M.start, l.drop M.start, e, (List.take_append_drop _ _).symm, hlength, ?_⟩
  rwa [List.take_append_drop, hlength]

theorem ne_round_of_isWord {c : Char} (h : isWord c = true) : c ≠ '(' ∧ c ≠ ')' := by
  refine ⟨?_, ?_⟩ <;> rintro rfl <;> exact absurd h (by decide)

theorem ne_round_of_isBlank {c : Char} (h : isBlank c = true) : c ≠ '(' ∧ c ≠ ')' := by
  refine ⟨?_, ?_⟩ <;> rintro rfl <;> exact absurd h (by decide)

theorem exists_opening_of_functionPattern {l : List Char} {M : Match} (h : functionPattern.IsMatch l.toArray M) :
    ∃ w r, l.drop M.start = w ++ '(' :: r ∧ ∀ c ∈ w, c ≠ '(' ∧ c ≠ ')' := by
  have hblanks : (many blank).isTextual = true := by decide
  have hgap : (many1 blank).isTextual = true := by decide
  have hname : (all Legacy.plainName).isTextual = true := by decide
  have hbracket : (Pattern.char '(').isTextual = true := rfl
  obtain ⟨a, u, e, rfl, hlength, hreach⟩ := exists_reach_of_isMatch (by decide) h
  rw [functionPattern, List.cons_append, reach_edge_cons, Legacy.chars, reach_chars_append] at hreach
  simp only [reach_textual_cons hblanks, reach_textual_cons hgap, reach_group_cons hname, reach_textual_cons hbracket,
    mem_language_many1_blank, mem_language_many_blank, mem_language_plainName, mem_language_char] at hreach
  obtain ⟨_, _, rfl, x, _, rfl, ⟨_, hx⟩, n, _, rfl, ⟨⟨_, hn⟩, _⟩, y, _, rfl, hy, _, r, rfl, rfl, _⟩ := hreach
  refine ⟨"fun".toList ++ (x ++ (n ++ y)), r, by simp [← hlength], ?_⟩
  simp only [List.forall_mem_append]
  exact ⟨by simp, fun c hc => ne_round_of_isBlank (hx c hc), fun c hc => ne_round_of_isWord (hn c hc),
    fun c hc => ne_round_of_isBlank (hy c hc)⟩

end Parameters

section Lines

/-- A return statement with a value on one of some lines. -/
structure ValueReturn (lines : List (List Char)) where
  before : List (List Char)
  /-- What stands in front of the statement on its line. -/
  head : List Char
  tail : List Char
  behind : List (List Char)
  lines_eq : lines = before ++ (head ++ tail) :: behind
  matched : (returnValuePattern.matchAt (head ++ tail).toArray head.length).isSome

namespace ValueReturn

variable {lines : List (List Char)}

/-- All that stands in front of the statement. -/
def passed (v : ValueReturn lines) : List Char := v.before.flatten ++ v.head

/-- The statement is behind the first brace and not behind the one that closes it. -/
def InBody (v : ValueReturn lines) : Prop := EndsWithin '\x7b' '\x7d' v.passed

/-- The ways in which a statement outside the body is met while the body is read line by line. -/
inductive Misplaced (v : ValueReturn lines) : Prop
  /-- The line of the statement opens the body behind it. -/
  | inFront : '\x7b' ∉ v.passed → '\x7b' ∈ v.tail → v.Misplaced
  /-- The line of the statement closes the body in front of it. -/
  | sameLine {x q : List Char} :
      v.head = x ++ '\x7d' :: q → EndsReady '\x7b' '\x7d' (v.before.flatten ++ x) → v.Misplaced
  /-- An earlier line closes the body, and opens more braces behind it than it closes. -/
  | laterLine {ds post : List (List Char)} {x q : List Char} :
      v.before = ds ++ (x ++ '\x7d' :: q) :: post → EndsReady '\x7b' '\x7d' (ds.flatten ++ x) →
      q.count '\x7d' < q.count '\x7b' → v.Misplaced

/-- A return statement among the lines after a first one. -/
def skip (l : List Char) (v : ValueReturn lines) : ValueReturn (l :: lines) where
  before := l :: v.before
  head := v.head
  tail := v.tail
  behind := v.behind
  lines_eq := congrArg (l :: ·) v.lines_eq
  matched := v.matched

/-- The body, read line by line, has started with the line of the statement and has not ended before it. -/
structure Met (depth : Int) (opened : Bool) (v : ValueReturn lines) : Prop where
  started : opened = true ∨ '\x7b' ∈ v.passed ++ v.tail
  deep : ∀ ds l post, v.before = ds ++ l :: post → opened = true ∨ '\x7b' ∈ ds.flatten ++ l →
    0 < depth + braceBalance (ds.flatten ++ l)

end ValueReturn

theorem braceBalance_append (s s' : List Char) : braceBalance (s ++ s') = braceBalance s + braceBalance s' := by
  simp only [braceBalance, occurrences, List.count_append]
  omega

/-- A value that is found in the first lines is met there, from the depth that the lines read before have left. -/
theorem exists_met_of_returnsValue {depth : Int} {opened : Bool} {n : Nat} {lines : List (List Char)}
    (h : returnsValue depth opened (lines.take n) = true) :
    ∃ v : ValueReturn lines, v.Met depth opened ∧ v.before.length < n := by
  induction lines generalizing depth opened n with
  | nil => cases n <;> cases h
  | cons l lines ih =>
    cases n with
    | zero => cases h
    | succ n =>
      rw [List.take_succ_cons, returnsValue] at h
      split at h
      next hfound =>
        rw [Bool.and_eq_true, Bool.or_eq_true, List.contains_iff_mem, occursIn_iff] at hfound
        obtain ⟨hopened, i, hi, hmatch⟩ := hfound
        have hlength : (l.take i).length = i := List.length_take_of_le hi
        refine ⟨⟨[], l.take i, l.drop i, lines, by simp, by rwa [List.take_append_drop, hlength]⟩, ⟨?_, ?_⟩,
          Nat.succ_pos n⟩
        · simpa [ValueReturn.passed] using hopened
        · intro ds l' post hbefore
          simp at hbefore
      next =>
        dsimp only at h
        split at h
        next => cases h
        next hdeep =>
          obtain ⟨v, ⟨hstarted, hv⟩, hlength⟩ := ih h
          rw [Bool.or_eq_true, List.contains_iff_mem] at hstarted
          rw [Bool.and_eq_true, Bool.or_eq_true, List.contains_iff_mem, decide_eq_true_eq] at hdeep
          refine ⟨v.skip l, ⟨?_, ?_⟩, Nat.succ_lt_succ hlength⟩
          · simpa [ValueReturn.passed, ValueReturn.skip, or_assoc] using hstarted
          · intro ds l' post hbefore hopen
            cases ds with
            | nil =>
              obtain ⟨rfl, _⟩ := List.cons.inj hbefore
              by_contra hle
              exact hdeep ⟨hopen, Int.not_lt.mp hle⟩
            | cons d ds =>
              obtain ⟨rfl, hrest⟩ := List.cons.inj hbefore
              have hlt := hv ds l' post hrest (by simpa [or_assoc] using hopen)
              rw [List.flatten_cons, List.append_assoc, braceBalance_append]
              omega

/-- A character in front of the end of some lines is on the last of them or on one before it. -/
theorem mem_line_of_flatten {before : List (List Char)} {head w q : List Char} {c : Char}
    (h : before.flatten ++ head = w ++ c :: q) :
    (∃ x, head = x ++ c :: q ∧ w = before.flatten ++ x) ∨
      ∃ ds x q' post, before = ds ++ (x ++ c :: q') :: post ∧ w = ds.flatten ++ x := by
  induction before generalizing w with
  | nil => exact .inl ⟨w, h, rfl⟩
  | cons l before ih =>
    have hlater {z : List Char} (hw : w = l ++ z) (hz : before.flatten ++ head = z ++ c :: q) :
        (∃ x, head = x ++ c :: q ∧ w = (l :: before).flatten ++ x) ∨
          ∃ ds x q' post, l :: before = ds ++ (x ++ c :: q') :: post ∧ w = ds.flatten ++ x := by
      rcases ih hz with ⟨x, hhead, rfl⟩ | ⟨ds, x, q', post, rfl, rfl⟩
      · exact .inl ⟨x, hhead, by simp [hw]⟩
      · exact .inr ⟨l :: ds, x, q', post, rfl, by simp [hw]⟩
    rw [List.flatten_cons, List.append_assoc] at h
    rcases List.append_eq_append_iff.mp h with ⟨z, hw, hz⟩ | ⟨z, hl, hz⟩
    · exact hlater hw hz
    · cases z with
      | nil => exact hlater (z := []) (by simp [hl]) hz.symm
      | cons d z =>
        obtain ⟨rfl, _⟩ := List.cons.inj hz
        exact .inr ⟨[], w, z, before, by rw [hl]; rfl, rfl⟩

theorem EndsReady.braceBalance_le {w : List Char} (h : EndsReady '\x7b' '\x7d' w) : braceBalance w ≤ 1 := by
  obtain ⟨a, b, rfl, ha, _, hcount⟩ := h
  rw [braceBalance, occurrences, occurrences, List.count_append, List.count_append, List.count_eq_zero_of_not_mem ha,
    List.count_cons_self, List.count_cons_of_ne (by decide)]
  omega

/-- A statement that is met is in the body unless it is misplaced. -/
theorem ValueReturn.Met.inBody_or_misplaced {lines : List (List Char)} {v : ValueReturn lines} (h : v.Met 0 false) :
    v.InBody ∨ v.Misplaced := by
  rcases endsWithin_or_closes '\x7b' '\x7d' v.passed with hnone | hbody | ⟨w, q, hpassed, hready⟩
  · have hmem : '\x7b' ∈ v.passed ++ v.tail := h.started.resolve_left Bool.false_ne_true
    exact .inr (.inFront hnone ((List.mem_append.mp hmem).resolve_left hnone))
  · exact .inl hbody
  · refine .inr ?_
    rcases mem_line_of_flatten hpassed with ⟨x, hhead, rfl⟩ | ⟨ds, x, q', post, hbefore, rfl⟩
    · exact .sameLine hhead hready
    · refine .laterLine hbefore hready ?_
      have hopened : '\x7b' ∈ ds.flatten ++ x := by
        obtain ⟨a, b, hab, _⟩ := hready
        simp [hab]
      have hdeep := h.deep ds _ post hbefore (.inr (by rw [← List.append_assoc]; exact List.mem_append_left _ hopened))
      rw [← List.append_assoc, braceBalance_append] at hdeep
      have hle := hready.braceBalance_le
      have hrest : braceBalance ('\x7d' :: q') = (q'.count '\x7b' : Int) - (q'.count '\x7d' + 1) := by
        rw [braceBalance, occurrences, occurrences, List.count_cons_self, List.count_cons_of_ne (by decide)]
        rfl
      omega

theorem ValueReturn.Misplaced.not_inBody {lines : List (List Char)} {v : ValueReturn lines} (h : v.Misplaced) :
    ¬ v.InBody := by
  cases h with
  | inFront hnone _ =>
    rintro ⟨a, b, hpassed, _⟩
    exact hnone (by simp [hpassed])
  | @sameLine x q hhead hready =>
    have hpassed : v.passed = v.before.flatten ++ x ++ '\x7d' :: q := by simp [passed, hhead]
    rw [InBody, hpassed]
    exact hready.not_endsWithin (by decide)
  | @laterLine ds post x q hbefore hready _ =>
    have hpassed : v.passed = ds.flatten ++ x ++ '\x7d' :: (q ++ post.flatten ++ v.head) := by simp [passed, hbefore]
    rw [InBody, hpassed]
    exact hready.not_endsWithin (by decide)

end Lines

/-- The declaration that an error is about: the first on its line, up to the end of the parameter list. -/
structure FunctionError.Site (ls : List (List Char)) (e : FunctionError) where
  line : List Char
  found : Match
  parameters : List Char
  after : List Char
  line_pos : 1 ≤ e.line
  line_eq : ls[e.line - 1]? = some line
  found_eq : functionPattern.search line.toArray = some found
  column_eq : e.column = found.start + 1
  split : line.drop found.start = parameters ++ ')' :: after
  closed : EndsReady '(' ')' parameters

/-- The lines from the end of the parameter list on. -/
def FunctionError.Site.lines {ls : List (List Char)} {e : FunctionError} (d : e.Site ls) : List (List Char) :=
  d.after :: ls.drop e.line

/-- The type of a function is missed when its signature is closed and its body is found to return a value. -/
theorem returnsValue_of_missingReturnType {l : List Char} {M : Match} {flag : Bool} {rest : List (List Char)}
    (h : .missingReturnType ∈ functionFaults l M flag rest) :
    occurrences '(' (l.drop M.start) ≤ occurrences ')' (l.drop M.start) ∧
      returnsValue 0 false ((afterParameters (l.drop M.start) :: rest).take returnLookahead) = true := by
  rw [functionFaults] at h
  dsimp only at h
  split at h
  next => simp at h
  next hcount =>
    refine ⟨Nat.not_lt.mp hcount, ?_⟩
    rcases List.mem_append.mp h with h | h
    · split at h
      next => cases h
      next => simp at h
    · split at h
      next => cases h
      next =>
        split at h
        next hreturns => exact hreturns
        next => cases h

/-- A return statement is attributed to a function that has no type only if it is in the body of the function, or is met
because the line that opens or closes the body holds more than the body. -/
theorem missingReturnType_statement {ls : List (List Char)} {e : FunctionError} (h : e ∈ functionErrors ls)
    (hfault : e.fault = .missingReturnType) :
    ∃ (d : e.Site ls) (v : ValueReturn d.lines), (v.InBody ∨ v.Misplaced) ∧ v.before.length < returnLookahead := by
  obtain ⟨k, l, M, flag, hl, hM, hmem, hline, hcolumn⟩ := exists_search_of_functionErrors h
  rw [hfault] at hmem
  obtain ⟨hcount, hreturns⟩ := returnsValue_of_missingReturnType hmem
  obtain ⟨w, r, hw, hround⟩ := exists_opening_of_functionPattern (isMatch_of_search hM)
  rw [hw] at hcount
  obtain ⟨parameters, hsplit, hclosed⟩ := exists_parameters hround hcount
  rw [← hw] at hsplit
  have hnumber : e.line = k + 1 := by omega
  let d : e.Site ls :=
    { line := l, found := M, parameters, after := afterParameters (l.drop M.start), line_pos := by omega,
      line_eq := by rw [hnumber]; exact hl, found_eq := hM, column_eq := hcolumn, split := hsplit, closed := hclosed }
  have hlines : d.lines = afterParameters (l.drop M.start) :: ls.drop (k + 1) := by rw [← hnumber]; rfl
  rw [← hlines] at hreturns
  obtain ⟨v, hmet, hlength⟩ := exists_met_of_returnsValue hreturns
  exact ⟨d, v, hmet.inBody_or_misplaced, hlength⟩

theorem missingReturnType_statement_next_line :
    ∃ (d : FunctionError.Site ["fun f() \x7b".toList, "return 42".toList, ['\x7d']] ⟨1, 1, "f", .missingReturnType⟩)
      (v : ValueReturn d.lines), (v.InBody ∨ v.Misplaced) ∧ v.before.length < returnLookahead :=
  missingReturnType_statement (by decide +kernel) rfl

section OneLine

/-- The line of a function with an empty body and, behind it, another function. -/
def twoFunctions : List Char := "access(all) fun f() \x7b\x7d fun g(): Int \x7b return 1 \x7d".toList

/-- What follows the parameter list of the first function. -/
def behindFirst : List Char := " \x7b\x7d fun g(): Int \x7b return 1 \x7d".toList

theorem misplaced_of_behindFirst {l : List Char} (hl : l = behindFirst) (v : ValueReturn [l]) : v.Misplaced := by
  obtain ⟨before, head, tail, behind, hlines, hmatch⟩ := v
  obtain ⟨rfl, hcons⟩ : before = [] ∧ head ++ tail = behindFirst := by
    cases before with
    | nil =>
      obtain ⟨hline, _⟩ := List.cons.inj hlines
      exact ⟨rfl, hline.symm.trans hl⟩
    | cons d before => simp at hlines
  have hplace : ∀ i ≤ behindFirst.length, (returnValuePattern.matchAt behindFirst.toArray i).isSome → i = 19 := by
    decide +kernel
  have hlength : head.length = 19 := by
    rw [hcons] at hmatch
    exact hplace _ (by simp [← hcons]) hmatch
  have hhead : head = behindFirst.take 19 := by rw [← hcons, ← hlength, List.take_left]
  exact .sameLine (x := " \x7b".toList) (q := " fun g(): Int \x7b ".toList) hhead
    ⟨[' '], [], rfl, by decide, contained_nil, rfl⟩

/-- The return statement of the second function on a line is attributed to the first, whose body is empty. -/
theorem missingReturnType_of_neighbour :
    ∃ e ∈ functionErrors [twoFunctions], e.fault = .missingReturnType ∧
      ∀ (d : e.Site [twoFunctions]) (v : ValueReturn d.lines), ¬ v.InBody := by
  refine ⟨⟨1, 13, "f", .missingReturnType⟩, by decide +kernel, rfl, ?_⟩
  intro d v
  have hafter : d.after = behindFirst := by
    have hline : twoFunctions = d.line := Option.some.inj d.line_eq
    have hstart : 13 = d.found.start + 1 := d.column_eq
    have hsplit : "fun f(".toList ++ ')' :: behindFirst = d.parameters ++ ')' :: d.after := by
      rw [← d.split, ← hline, ← Nat.succ.inj hstart]
      rfl
    have hclosed : EndsReady '(' ')' "fun f(".toList := ⟨"fun f".toList, [], rfl, by decide, contained_nil, rfl⟩
    exact (hclosed.unique d.closed (by decide) hsplit).2.symm
  exact (misplaced_of_behindFirst hafter v).not_inBody

end OneLine

end CadenceUplift
