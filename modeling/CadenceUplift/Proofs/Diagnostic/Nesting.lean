import CadenceUplift.Proofs.Diagnostic.Brackets
import CadenceUplift.Proofs.Diagnostic.Marks
import Mathlib.Data.List.Nodup

namespace CadenceUplift

open CadenceUplift.Bracket

/-- Words of brackets that fall into pairs of one kind, one within another or side by side. -/
inductive Nested : List Char → Prop
  | nil : Nested []
  | pair (b : Bracket) {u v : List Char} : Nested u → Nested v → Nested (b.opening :: (u ++ b.closing :: v))

/-- The brackets of a text are well nested. -/
def WellNested (s : List Char) : Prop := Nested (s.filter isBracket)

section Positions

open Text (Position)

/-- The place right behind a text: on the line after its last line end, and behind what follows that. -/
def positionBehind (u : List Char) : Position := ⟨u.count '\n' + 1, (u.reverse.takeWhile (· ≠ '\n')).length + 1⟩

/-- The character stands at the place. -/
def StandsAt (s : List Char) (c : Char) (p : Position) : Prop := ∃ u v, s = u ++ c :: v ∧ p = positionBehind u

/-- One place is read before another. -/
def ReadBefore (p q : Position) : Prop := p.line < q.line ∨ p.line = q.line ∧ p.column < q.column

theorem ReadBefore.trans {p q r : Position} (h : ReadBefore p q) (h' : ReadBefore q r) : ReadBefore p r := by
  unfold ReadBefore at h h' ⊢
  omega

theorem ReadBefore.ne {p q : Position} (h : ReadBefore p q) : p ≠ q := by
  rintro rfl
  unfold ReadBefore at h
  omega

/-- The place of the next character. -/
def Text.Position.next (p : Position) (c : Char) : Position :=
  if c = '\n' then ⟨p.line + 1, 1⟩ else ⟨p.line, p.column + 1⟩

/-- The place behind a text that starts at a place. -/
def Text.Position.behind (p : Position) (u : List Char) : Position := u.foldl Position.next p

theorem readBefore_next (p : Position) (c : Char) : ReadBefore p (p.next c) := by
  unfold Text.Position.next ReadBefore
  split
  next => exact .inl (Nat.lt_succ_self _)
  next => exact .inr ⟨rfl, Nat.lt_succ_self _⟩

theorem readBefore_behind (p : Position) (c : Char) (u : List Char) : ReadBefore p (p.behind (c :: u)) := by
  induction u generalizing p c with
  | nil => exact readBefore_next p c
  | cons d u ih => exact (readBefore_next p c).trans (ih (p.next c) d)

theorem behind_eq_positionBehind (u : List Char) : Position.behind ⟨1, 1⟩ u = positionBehind u := by
  induction u using List.reverseRecOn with
  | nil => rfl
  | append_singleton u c ih =>
    have hsnoc : Position.behind ⟨1, 1⟩ (u ++ [c]) = (Position.behind ⟨1, 1⟩ u).next c := by
      simp [Text.Position.behind]
    rw [hsnoc, ih, Text.Position.next, positionBehind]
    by_cases hc : c = '\n'
    · simp [positionBehind, hc]
    · simp [positionBehind, hc]

end Positions

section Tokens

variable {p : Text.Position} {s : List Char}

/-- The character of a bracket. -/
def BracketToken.char : BracketToken → Char
  | .opener b _ => b.opening
  | .closer b _ => b.closing

theorem Bracket.opening_of_opened? {c : Char} {b : Bracket} (h : opened? c = some b) : b.opening = c := by
  simpa using List.find?_some h

theorem Bracket.closing_of_closed? {c : Char} {b : Bracket} (h : closed? c = some b) : b.closing = c := by
  simpa using List.find?_some h

/-- A character is an opening bracket, a closing one, or none. -/
theorem bracketTokens_cons (p : Text.Position) (c : Char) (r : List Char) :
    (∃ b, c = b.opening ∧ isBracket c = true ∧ bracketTokens p (c :: r) = .opener b p :: bracketTokens (p.next c) r) ∨
      (∃ b, c = b.closing ∧ isBracket c = true ∧ bracketTokens p (c :: r) = .closer b p :: bracketTokens (p.next c) r) ∨
      isBracket c = false ∧ bracketTokens p (c :: r) = bracketTokens (p.next c) r := by
  rw [bracketTokens]
  cases hopen : opened? c with
  | some b => exact .inl ⟨b, (opening_of_opened? hopen).symm, by simp [isBracket, hopen], rfl⟩
  | none =>
    cases hclose : closed? c with
    | some b => exact .inr (.inl ⟨b, (closing_of_closed? hclose).symm, by simp [isBracket, hclose], rfl⟩)
    | none => exact .inr (.inr ⟨by simp [isBracket, hopen, hclose], rfl⟩)

theorem map_char_bracketTokens (p : Text.Position) (s : List Char) :
    (bracketTokens p s).map BracketToken.char = s.filter isBracket := by
  induction s generalizing p with
  | nil => rfl
  | cons c s ih =>
    obtain ⟨b, rfl, hc, htokens⟩ | ⟨b, rfl, hc, htokens⟩ | ⟨hc, htokens⟩ := bracketTokens_cons p c s
    · rw [htokens, List.map_cons, ih, List.filter_cons_of_pos hc]
      rfl
    · rw [htokens, List.map_cons, ih, List.filter_cons_of_pos hc]
      rfl
    · rw [htokens, ih, List.filter_cons_of_neg (by simp [hc])]

theorem bracketTokens_append (p : Text.Position) (u r : List Char) :
    bracketTokens p (u ++ r) = bracketTokens p u ++ bracketTokens (p.behind u) r := by
  induction u generalizing p with
  | nil => rfl
  | cons c u ih =>
    have hrest := ih (p.next c)
    rw [Text.Position.next] at hrest
    rw [List.cons_append, bracketTokens, bracketTokens, hrest]
    cases opened? c <;> cases closed? c <;> rfl

/-- A bracket that is read stands in the text. -/
theorem exists_split_of_mem_bracketTokens {k : BracketToken} (h : k ∈ bracketTokens p s) :
    ∃ u v, s = u ++ k.char :: v ∧ k.position = p.behind u := by
  induction s generalizing p with
  | nil => cases h
  | cons c s ih =>
    have hlater (h : k ∈ bracketTokens (p.next c) s) : ∃ u v, c :: s = u ++ k.char :: v ∧ k.position = p.behind u := by
      obtain ⟨u, v, rfl, hposition⟩ := ih h
      exact ⟨c :: u, v, rfl, hposition⟩
    obtain ⟨b, hc, _, htokens⟩ | ⟨b, hc, _, htokens⟩ | ⟨_, htokens⟩ := bracketTokens_cons p c s
    · rw [htokens] at h
      rcases List.mem_cons.mp h with rfl | h
      · exact ⟨[], s, by rw [hc]; rfl, rfl⟩
      · exact hlater h
    · rw [htokens] at h
      rcases List.mem_cons.mp h with rfl | h
      · exact ⟨[], s, by rw [hc]; rfl, rfl⟩
      · exact hlater h
    · rw [htokens] at h
      exact hlater h

theorem standsAt_of_mem_bracketTokens {k : BracketToken} (h : k ∈ bracketTokens ⟨1, 1⟩ s) :
    StandsAt s k.char k.position := by
  obtain ⟨u, v, hs, hposition⟩ := exists_split_of_mem_bracketTokens h
  exact ⟨u, v, hs, by rw [hposition, behind_eq_positionBehind]⟩

/-- Brackets are read from the first to the last. -/
theorem bracketTokens_pairwise (p : Text.Position) (s : List Char) :
    (bracketTokens p s).Pairwise fun k k' => ReadBefore k.position k'.position := by
  induction s generalizing p with
  | nil => exact .nil
  | cons c s ih =>
    have hlater : ∀ k ∈ bracketTokens (p.next c) s, ReadBefore p k.position := by
      intro k hk
      obtain ⟨u, v, _, hposition⟩ := exists_split_of_mem_bracketTokens hk
      rw [hposition]
      exact readBefore_behind p c u
    obtain ⟨b, _, _, htokens⟩ | ⟨b, _, _, htokens⟩ | ⟨_, htokens⟩ := bracketTokens_cons p c s
    · rw [htokens]
      exact .cons hlater (ih _)
    · rw [htokens]
      exact .cons hlater (ih _)
    · rw [htokens]
      exact ih _

end Tokens

section Nesting

variable {ts : List BracketToken}

theorem Bracket.opened?_opening (b : Bracket) : opened? b.opening = some b := by cases b <;> rfl

theorem Bracket.closed?_closing (b : Bracket) : closed? b.closing = some b := by cases b <;> rfl

theorem Bracket.opening_ne_closing (b b' : Bracket) : b.opening ≠ b'.closing := by
  cases b <;> cases b' <;> decide

theorem BracketToken.eq_opener {k : BracketToken} {b : Bracket} (h : k.char = b.opening) :
    k = .opener b k.position := by
  cases k with
  | opener b' p =>
    have hkind : opened? b'.opening = opened? b.opening := congrArg opened? h
    rw [opened?_opening, opened?_opening] at hkind
    rw [Option.some.inj hkind]
    rfl
  | closer b' p => exact absurd h.symm (opening_ne_closing b b')

theorem BracketToken.eq_closer {k : BracketToken} {b : Bracket} (h : k.char = b.closing) :
    k = .closer b k.position := by
  cases k with
  | opener b' p => exact absurd h (opening_ne_closing b' b)
  | closer b' p =>
    have hkind : closed? b'.closing = closed? b.closing := congrArg closed? h
    rw [closed?_closing, closed?_closing] at hkind
    rw [Option.some.inj hkind]
    rfl

/-- Nested brackets are read without an error and leave open what was open. -/
theorem Nested.matchBrackets {w : List Char} (h : Nested w) (hts : ts.map BracketToken.char = w)
    (stack : List OpenBracket) (rest : List BracketToken) :
    matchBrackets stack (ts ++ rest) = CadenceUplift.matchBrackets stack rest := by
  induction h generalizing ts stack rest with
  | nil =>
    obtain rfl : ts = [] := List.map_eq_nil_iff.mp hts
    rfl
  | @pair b u v _ _ ihu ihv =>
    obtain ⟨k, ts', rfl, hk, hts'⟩ := List.map_eq_cons_iff.mp hts
    obtain ⟨us, ts'', rfl, hus, hts''⟩ := List.map_eq_append_iff.mp hts'
    obtain ⟨k', vs, rfl, hk', hvs⟩ := List.map_eq_cons_iff.mp hts''
    rw [BracketToken.eq_opener hk, BracketToken.eq_closer hk', List.cons_append, List.append_assoc, List.cons_append,
      CadenceUplift.matchBrackets, ihu hus, CadenceUplift.matchBrackets, if_pos rfl, ihv hvs]

/-- A word that closes the open brackets, latest first, with nested brackets in between. -/
inductive Closes : List Bracket → List Char → Prop
  | done {w : List Char} : Nested w → Closes [] w
  | next {b : Bracket} {stack : List Bracket} {u v : List Char} :
      Nested u → Closes stack v → Closes (b :: stack) (u ++ b.closing :: v)

/-- A pair in front of a word does not change what it closes. -/
theorem Closes.pair {stack : List Bracket} {b : Bracket} {u v : List Char} (hu : Nested u) (hv : Closes stack v) :
    Closes stack (b.opening :: (u ++ b.closing :: v)) := by
  cases hv with
  | done hv => exact .done (.pair b hu hv)
  | @next b' stack u' v' hu' hv' =>
    have hfront := Closes.next (b := b') (.pair b hu hu') hv'
    simpa using hfront

theorem Closes.exists_split {b : Bracket} {stack : List Bracket} {w : List Char} (h : Closes (b :: stack) w) :
    ∃ u v, w = u ++ b.closing :: v ∧ Nested u ∧ Closes stack v := by
  cases h with
  | next hu hv => exact ⟨_, _, rfl, hu, hv⟩

theorem closes_of_matchBrackets {stack : List OpenBracket} (h : matchBrackets stack ts = []) :
    Closes (stack.map (·.bracket)) (ts.map BracketToken.char) := by
  fun_induction matchBrackets stack ts with
  | case1 stack =>
    obtain rfl : stack = [] := by simpa using h
    exact .done .nil
  | case2 stack b p rest ih =>
    obtain ⟨u, v, hrest, hu, hv⟩ := (ih h).exists_split
    rw [List.map_cons, hrest]
    exact .pair hu hv
  | case3 b p rest ih => cases h
  | case4 o stack p rest ih => exact .next .nil (ih h)
  | case5 o stack b p rest hne ih => cases h

theorem bracketErrors_eq_nil_iff (s : List Char) : bracketErrors s = [] ↔ WellNested s := by
  have hchars := map_char_bracketTokens ⟨1, 1⟩ s
  constructor
  · intro h
    have hcloses := closes_of_matchBrackets h
    rw [hchars] at hcloses
    cases hcloses with
    | done hw => exact hw
  · intro h
    have hrun := h.matchBrackets hchars [] []
    rw [List.append_nil] at hrun
    exact hrun

/-- One bracket that is left open between nested ones. -/
theorem bracketErrors_open (b : Bracket) {u v : List Char} (hu : WellNested u) (hv : WellNested v) :
    bracketErrors (u ++ b.opening :: v) = [⟨positionBehind u, .unclosed b⟩] := by
  have hopen : bracketTokens (Text.Position.behind ⟨1, 1⟩ u) (b.opening :: v) =
      .opener b (positionBehind u) :: bracketTokens ((positionBehind u).next b.opening) v := by
    rw [behind_eq_positionBehind]
    cases b <;> rfl
  have hrest := hv.matchBrackets (map_char_bracketTokens ((positionBehind u).next b.opening) v)
    [⟨b, positionBehind u⟩] []
  rw [List.append_nil] at hrest
  rw [bracketErrors, bracketTokens_append, hu.matchBrackets (map_char_bracketTokens _ u), hopen, matchBrackets, hrest]
  rfl

end Nesting

section Order

/-- The closing bracket that a fault is about. -/
def BracketFault.closer? : BracketFault → Option Bracket
  | .unexpected b => some b
  | .mismatched _ _ b => some b
  | .unclosed _ => none

/-- A closing bracket as it is read. -/
def BracketToken.closer? : BracketToken → Option (Bracket × Text.Position)
  | .opener _ _ => none
  | .closer b p => some (b, p)

/-- An opening bracket as it is kept. -/
def BracketToken.opener? : BracketToken → Option OpenBracket
  | .opener b p => some ⟨b, p⟩
  | .closer _ _ => none

/-- The errors are about some of the closing brackets, and then about brackets that were open or are opened. -/
theorem matchBrackets_split (stack : List OpenBracket) (ts : List BracketToken) :
    ∃ (errors : List BracketError) (left : List OpenBracket),
      matchBrackets stack ts = errors ++ left.map (fun o => ⟨o.position, .unclosed o.bracket⟩) ∧
      (errors.map fun e => (e.fault.closer?, e.position)).Sublist
        ((ts.filterMap BracketToken.closer?).map fun k => (some k.1, k.2)) ∧
      left.Sublist (stack.reverse ++ ts.filterMap BracketToken.opener?) := by
  fun_induction matchBrackets stack ts with
  | case1 stack => exact ⟨[], stack.reverse, rfl, .slnil, by simp⟩
  | case2 stack b p rest ih =>
    obtain ⟨errors, left, heq, herrors, hleft⟩ := ih
    refine ⟨errors, left, heq, herrors, ?_⟩
    simpa [BracketToken.opener?] using hleft
  | case3 b p rest ih =>
    obtain ⟨errors, left, heq, herrors, hleft⟩ := ih
    exact ⟨⟨p, .unexpected b⟩ :: errors, left, by rw [heq]; rfl, herrors.cons_cons _, hleft⟩
  | case4 o stack p rest ih =>
    obtain ⟨errors, left, heq, herrors, hleft⟩ := ih
    refine ⟨errors, left, heq, herrors.cons _, hleft.trans ?_⟩
    rw [List.reverse_cons, List.append_assoc]
    exact List.Sublist.append_left (List.sublist_cons_self _ _) _
  | case5 o stack b p rest hne ih =>
    obtain ⟨errors, left, heq, herrors, hleft⟩ := ih
    refine ⟨⟨p, .mismatched o.bracket o.position.line b⟩ :: errors, left, by rw [heq]; rfl, herrors.cons_cons _,
      hleft.trans ?_⟩
    rw [List.reverse_cons, List.append_assoc]
    exact List.Sublist.append_left (List.sublist_cons_self _ _) _

/-- Two brackets do not stand at one place. -/
theorem bracketTokens_inj {p : Text.Position} {s : List Char} {k k' : BracketToken} (hk : k ∈ bracketTokens p s)
    (hk' : k' ∈ bracketTokens p s) (h : k.position = k'.position) : k = k' := by
  have hnodup : ((bracketTokens p s).map BracketToken.position).Nodup :=
    List.pairwise_map.mpr ((bracketTokens_pairwise p s).imp ReadBefore.ne)
  exact List.inj_on_of_nodup_map hnodup hk hk' h

theorem BracketToken.eq_of_closer? {k : BracketToken} {b : Bracket} {p : Text.Position} (h : k.closer? = some (b, p)) :
    k = .closer b p := by
  cases k with
  | opener b' p' => cases h
  | closer b' p' => cases h; rfl

theorem BracketToken.eq_of_opener? {k : BracketToken} {o : OpenBracket} (h : k.opener? = some o) :
    k = .opener o.bracket o.position := by
  cases k with
  | opener b' p' => cases h; rfl
  | closer b' p' => cases h

/-- The errors on closing brackets and the brackets left open, as the text has them. -/
theorem bracketErrors_split (s : List Char) :
    ∃ (errors : List BracketError) (left : List OpenBracket),
      bracketErrors s = errors ++ left.map (fun o => ⟨o.position, .unclosed o.bracket⟩) ∧
      (∀ e ∈ errors, ∃ b, e.fault.closer? = some b ∧ .closer b e.position ∈ bracketTokens ⟨1, 1⟩ s) ∧
      (∀ o ∈ left, .opener o.bracket o.position ∈ bracketTokens ⟨1, 1⟩ s) ∧
      errors.Pairwise (fun e e' => ReadBefore e.position e'.position) ∧
      left.Pairwise (fun o o' => ReadBefore o.position o'.position) := by
  obtain ⟨errors, left, heq, herrors, hleft⟩ := matchBrackets_split [] (bracketTokens ⟨1, 1⟩ s)
  have hread := bracketTokens_pairwise ⟨1, 1⟩ s
  refine ⟨errors, left, heq, ?_, ?_, ?_, ?_⟩
  · intro e he
    obtain ⟨k, hk, hsame⟩ := List.mem_map.mp (herrors.subset (List.mem_map_of_mem he))
    obtain ⟨t, ht, hcloser⟩ := List.mem_filterMap.mp hk
    obtain ⟨hfault, hposition⟩ := Prod.mk.inj hsame
    refine ⟨k.1, hfault.symm, ?_⟩
    rw [← hposition, ← BracketToken.eq_of_closer? hcloser]
    exact ht
  · intro o ho
    obtain ⟨t, ht, hopener⟩ := List.mem_filterMap.mp (hleft.subset ho)
    rw [← BracketToken.eq_of_opener? hopener]
    exact ht
  · have hclosers : ((bracketTokens ⟨1, 1⟩ s).filterMap BracketToken.closer?).Pairwise
        fun k k' => ReadBefore k.2 k'.2 := by
      refine hread.filterMap _ fun t t' h k hk k' hk' => ?_
      rw [BracketToken.eq_of_closer? hk, BracketToken.eq_of_closer? hk'] at h
      exact h
    have hmapped : (errors.map fun e => (e.fault.closer?, e.position)).Pairwise fun x y => ReadBefore x.2 y.2 :=
      List.Pairwise.sublist herrors (List.pairwise_map.mpr hclosers)
    rw [List.pairwise_map] at hmapped
    exact hmapped
  · have hopeners : ((bracketTokens ⟨1, 1⟩ s).filterMap BracketToken.opener?).Pairwise
        fun o o' => ReadBefore o.position o'.position := by
      refine hread.filterMap _ fun t t' h o ho o' ho' => ?_
      rw [BracketToken.eq_of_opener? ho, BracketToken.eq_of_opener? ho'] at h
      exact h
    exact List.Pairwise.sublist hleft hopeners

end Order

/-- Bracket errors are none just if the brackets are well nested; else they are, each in reading order, errors on
closing brackets and behind them the brackets left open, no two at one place; and one bracket left open between
well-nested texts is the one error, at its place. -/
theorem bracketErrors_exact (s : List Char) :
    (bracketErrors s = [] ↔ WellNested s) ∧ ((bracketErrors s).map (·.position)).Nodup ∧
      (∃ closers openers, bracketErrors s = closers ++ openers ∧
        (∀ e ∈ closers, ∃ b, e.fault.closer? = some b ∧ StandsAt s b.closing e.position) ∧
        (∀ e ∈ openers, ∃ b, e.fault = .unclosed b ∧ StandsAt s b.opening e.position) ∧
        closers.Pairwise (fun e e' => ReadBefore e.position e'.position) ∧
        openers.Pairwise (fun e e' => ReadBefore e.position e'.position)) ∧
      ∀ b v, WellNested s → WellNested v →
        bracketErrors (s ++ b.opening :: v) = [⟨positionBehind s, .unclosed b⟩] := by
  obtain ⟨errors, left, heq, herrors, hleft, hclosers, hopeners⟩ := bracketErrors_split s
  refine ⟨bracketErrors_eq_nil_iff s, ?_, ⟨errors, _, heq, ?_, ?_, hclosers, List.pairwise_map.mpr hopeners⟩,
    fun b v hs hv => bracketErrors_open b hs hv⟩
  · rw [heq, List.map_append, List.map_map]
    refine List.nodup_append.mpr ⟨List.pairwise_map.mpr (hclosers.imp ReadBefore.ne),
      List.pairwise_map.mpr (hopeners.imp ReadBefore.ne), ?_⟩
    intro p hp q hq hpq
    obtain ⟨e, he, rfl⟩ := List.mem_map.mp hp
    obtain ⟨o, ho, rfl⟩ := List.mem_map.mp hq
    obtain ⟨b, _, htoken⟩ := herrors e he
    cases bracketTokens_inj htoken (hleft o ho) hpq
  · intro e he
    obtain ⟨b, hfault, htoken⟩ := herrors e he
    exact ⟨b, hfault, standsAt_of_mem_bracketTokens htoken⟩
  · intro e he
    obtain ⟨o, ho, rfl⟩ := List.mem_map.mp he
    exact ⟨o.bracket, rfl, standsAt_of_mem_bracketTokens (hleft o ho)⟩

/-- A brace left open on the second line, behind a pair on the first and before another. -/
theorem bracketErrors_exact_brace :
    WellNested "f(a)\n  ".toList ∧ WellNested "[[]()]".toList ∧
      (bracketErrors ("f(a)\n  ".toList ++ '\x7b' :: "[[]()]".toList)).map (·.issue.report) =
        ["Line 2:3 - Unclosed bracket '\x7b' (Add closing bracket '\x7d')"] := by
  have hfront : WellNested "f(a)\n  ".toList := .pair .round .nil .nil
  have hback : WellNested "[[]()]".toList :=
    .pair .square (.pair .square .nil (.pair .round .nil .nil)) .nil
  have herrors := (bracketErrors_exact "f(a)\n  ".toList).2.2.2 .curly "[[]()]".toList hfront hback
  refine ⟨hfront, hback, ?_⟩
  change (bracketErrors (_ ++ Bracket.curly.opening :: _)).map _ = _
  rw [herrors]
  decide

end CadenceUplift
