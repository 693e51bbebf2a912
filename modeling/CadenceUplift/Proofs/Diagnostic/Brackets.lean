import CadenceUplift.Diagnostic.Bracket
import CadenceUplift.Proofs.Literal.Blanked
import CadenceUplift.Proofs.Uplift.Redone

namespace CadenceUplift

open Text

/-- The character is a bracket. -/
def Bracket.isBracket (c : Char) : Bool := (opened? c).isSome || (closed? c).isSome

theorem Bracket.quiet_of_isBracket {c : Char} (hc : isBracket c = true) : Quiet c := quiet_of (by decide) hc

theorem Bracket.mem_of_isBracket {c : Char} (hc : isBracket c = true) : c ∈ all.map opening ++ all.map closing := by
  rw [isBracket, Bool.or_eq_true] at hc
  rcases hc with hc | hc
  · obtain ⟨b, hb⟩ := Option.isSome_iff_exists.mp hc
    have hchar := List.find?_some hb
    exact List.mem_append_left _ (List.mem_map.mpr ⟨b, List.mem_of_find?_eq_some hb, by simpa using hchar⟩)
  · obtain ⟨b, hb⟩ := Option.isSome_iff_exists.mp hc
    have hchar := List.find?_some hb
    exact List.mem_append_right _ (List.mem_map.mpr ⟨b, List.mem_of_find?_eq_some hb, by simpa using hchar⟩)

theorem Bracket.kind_of_isBracket {c : Char} (hc : isBracket c = true) : isWord c = false ∧ isBlank c = false := by
  have hnone : (all.map opening ++ all.map closing).any (fun d => isWord d || isBlank d) = false := by decide
  simpa using List.any_eq_false.mp hnone c (mem_of_isBracket hc)

open CadenceUplift.Bracket

/-- The messages of the errors in a word of brackets, given the open ones. -/
def bracketMessages : List Bracket → List Char → List String
  | stack, [] => stack.reverse.map fun b => (BracketFault.unclosed b).message
  | stack, c :: r =>
    match opened? c, closed? c with
    | some b, _ => bracketMessages (b :: stack) r
    | none, some b =>
      match stack with
      | [] => (BracketFault.unexpected b).message :: bracketMessages [] r
      | o :: stack =>
        if o = b then bracketMessages stack r
        else (BracketFault.mismatched o 0 b).message :: bracketMessages stack r
    | none, none => bracketMessages stack r

/-- Messages do not tell where a bracket stands. -/
theorem map_message_matchBrackets (s : List Char) (stack : List OpenBracket) (p : Text.Position) :
    (matchBrackets stack (bracketTokens p s)).map (·.fault.message) =
      bracketMessages (stack.map (·.bracket)) (s.filter isBracket) := by
  induction s generalizing stack p with
  | nil => simp [bracketTokens, matchBrackets, bracketMessages]
  | cons c s ih =>
    rw [bracketTokens, List.filter_cons]
    cases hopen : opened? c with
    | some b =>
      have hbracket : isBracket c = true := by simp [isBracket, hopen]
      simp only [hbracket, if_true, bracketMessages, hopen, matchBrackets]
      exact ih _ _
    | none =>
      cases hclose : closed? c with
      | none =>
        have hbracket : isBracket c = false := by simp [isBracket, hopen, hclose]
        simp only [hbracket, Bool.false_eq_true, if_false]
        exact ih _ _
      | some b =>
        have hbracket : isBracket c = true := by simp [isBracket, hclose]
        simp only [hbracket, if_true, bracketMessages, hopen, hclose]
        cases stack with
        | nil => simp only [matchBrackets, List.map_cons, List.map_nil, ih]
        | cons o stack =>
          simp only [matchBrackets, List.map_cons]
          split
          next => exact ih _ _
          next => rw [List.map_cons, ih]; rfl

/-- Words of brackets, the second with pairs of round ones put in. -/
inductive Padded : List Char → List Char → Prop
  | nil : Padded [] []
  | keep (c : Char) {w w' : List Char} : Padded w w' → Padded (c :: w) (c :: w')
  | pair {w w' : List Char} : Padded w w' → Padded w ('(' :: ')' :: w')

theorem Padded.append_left {w w' : List Char} (u : List Char) (h : Padded w w') : Padded (u ++ w) (u ++ w') := by
  induction u with
  | nil => exact h
  | cons c u ih => exact .keep c ih

theorem bracketMessages_pair (stack : List Bracket) (w : List Char) :
    bracketMessages stack ('(' :: ')' :: w) = bracketMessages stack w := rfl

/-- Whatever is open, pairs that are put in are not reported, and hide nothing. -/
theorem Padded.messages_eq {w w' : List Char} (h : Padded w w') (stack : List Bracket) :
    bracketMessages stack w' = bracketMessages stack w := by
  induction h generalizing stack with
  | nil => rfl
  | pair _ ih => rw [bracketMessages_pair, ih]
  | keep c _ ih =>
    cases hopen : opened? c with
    | some b => simp only [bracketMessages, hopen, ih]
    | none =>
      cases hclose : closed? c with
      | none => simp only [bracketMessages, hopen, hclose, ih]
      | some b => cases stack <;> simp only [bracketMessages, hopen, hclose, ih]

section Steps

theorem codeChars_append (p : Char → Bool) (σ : Reader) (u r : List Char) :
    σ.codeChars p (u ++ r) = σ.codeChars p u ++ (σ.after u).codeChars p r := by
  induction u generalizing σ with
  | nil => rfl
  | cons c u ih =>
    rw [List.cons_append, Reader.codeChars, Reader.codeChars, ih, Reader.after_cons]
    split <;> rfl

theorem codeChars_none {p : Char → Bool} {u : List Char} (h : u.any p = false) (σ : Reader) :
    σ.codeChars p u = [] := by
  induction u generalizing σ with
  | nil => rfl
  | cons c u ih =>
    rw [List.any_cons, Bool.or_eq_false_iff] at h
    rw [Reader.codeChars, h.1, Bool.and_false]
    exact ih h.2 _

theorem codeChars_plain (p : Char → Bool) {σ : Reader} (hσ : σ.inCode = true) {ps : List Piece}
    (hps : ∀ x ∈ ps, Plain x ∧ x.Valid) : σ.codeChars p (textOf ps) = (textOf ps).filter p := by
  have hstay := plains_stay hps
  generalize textOf ps = u at hstay
  induction u generalizing σ with
  | nil => rfl
  | cons c u ih =>
    rw [Reader.codeChars, hσ, Bool.true_and, List.filter_cons, ih (hstay c (by simp) σ hσ) fun d hd => hstay d (by simp [hd])]

/-- Pieces whose symbols are not brackets. -/
theorem filter_among {cs : List Char} (hcs : cs.any isBracket = false) {ps : List Piece}
    (hps : ∀ x ∈ ps, Plain x ∧ x.Valid) (hamong : ∀ x ∈ ps, x.Among cs) : (textOf ps).filter isBracket = [] := by
  rw [List.filter_eq_nil_iff]
  intro c hc hbracket
  obtain ⟨x, hx, hcx⟩ := List.mem_flatMap.mp hc
  have hvalid := (hps x hx).2
  have hx := hamong x hx
  have hkind := kind_of_isBracket hbracket
  cases x with
  | word w => simp [hvalid.2 c hcx] at hkind
  | blank b => simp [hvalid.2 c hcx] at hkind
  | symbol d =>
    rw [Piece.text, List.mem_singleton] at hcx
    exact List.any_eq_false.mp hcs d hx (hcx ▸ hbracket)

/-- The brackets of an access keyword. -/
theorem filter_keyword {b : Bool} {ps c : List Piece} (h : KeywordAt b ps c) (hps : ∀ x ∈ ps, Plain x ∧ x.Valid) :
    (textOf ps).filter isBracket = if b then ['(', ')'] else [] := by
  obtain ⟨g, kw, rfl, _, rfl⟩ := h
  have hgap : (textOf [.blank g]).filter isBracket = [] :=
    filter_among (List.any_nil (f := isBracket)) (fun x hx => hps x (List.mem_append_right _ hx)) (by simp [Piece.Among])
  rw [textOf_append, List.filter_append, hgap, List.append_nil]
  cases b <;> decide +kernel

/-- What a step makes of a stretch has its brackets, with perhaps a pair more. -/
theorem padded_swap {st : Step} {σ : Reader} {u u' : List Char} (h : st.Swap σ u u') {w w' : List Char}
    (hw : Padded w w') : Padded (σ.codeChars isBracket u ++ w) (σ.codeChars isBracket u' ++ w') := by
  cases st with
  | getter =>
    obtain ⟨rfl, rfl⟩ := h
    rw [codeChars_none (by decide), codeChars_none (by decide)]
    exact hw
  | target t =>
    obtain ⟨hσ, ps, ps', c, hat, hout, rfl, rfl, _, _, hps, hps'⟩ := h
    rw [codeChars_plain _ hσ hps, codeChars_plain _ hσ hps']
    cases t with
    | keyword b =>
      obtain rfl : ps' = accessPieces := hout
      have haccess : (textOf accessPieces).filter isBracket = ['(', ')'] := by decide +kernel
      rw [filter_keyword hat hps, haccess]
      cases b with
      | true => exact hw.append_left ['(', ')']
      | false => exact .pair hw
    | conformance =>
      obtain ⟨l, rfl, rfl⟩ := hout
      have hnone : listSymbols.any isBracket = false := by decide
      rw [filter_among hnone hps (list_among l.head l.item_ok _), filter_among hnone hps' (list_among l.head l.item_ok _)]
      exact hw
    | member m =>
      obtain ⟨v, _, rfl, _⟩ := hat
      obtain ⟨v₁, v₂, hpath, _, _⟩ := m.path_eq
      obtain rfl : ps' = .word Word.account :: .symbol '.' :: m.path := hout
      have hnone : ['.'].any isBracket = false := by decide
      rw [filter_among hnone hps (by simp [memberPieces, Piece.Among]),
        filter_among hnone hps' (by simp [hpath, Piece.Among])]
      exact hw

theorem Redone.padded {st : Step} {σ : Reader} {s s' : List Char} (h : Redone st.Swap σ s s') :
    Padded (σ.codeChars isBracket s) (σ.codeChars isBracket s') := by
  induction h with
  | nil σ => exact .nil
  | keep c _ ih =>
    rw [Reader.codeChars, Reader.codeChars]
    split
    next => exact .keep c ih
    next => exact ih
  | change hswap hafter _ ih =>
    rw [codeChars_append, codeChars_append, hafter]
    exact padded_swap hswap ih

end Steps

/-- The messages of the bracket errors of a text with its literals blanked. -/
theorem messages_codeOnly (s : List Char) :
    (bracketErrors (codeOnly s)).map (·.issue.message) = bracketMessages [] (Reader.code.codeChars isBracket s) := by
  rw [← filter_codeOnly (fun _ => quiet_of_isBracket) (by decide)]
  exact map_message_matchBrackets (codeOnly s) [] ⟨1, 1⟩

theorem messages_afterSteps (ss : List Step) (s : List Char) :
    (bracketErrors (codeOnly (afterSteps true ss s))).map (·.issue.message) =
      (bracketErrors (codeOnly s)).map (·.issue.message) := by
  induction ss generalizing s with
  | nil => rfl
  | cons st ss ih =>
    have hstep := (st.redone_after true s).padded.messages_eq []
    refine (ih (st.after true s)).trans ?_
    rw [messages_codeOnly, messages_codeOnly]
    exact hstep

/-- With the starting rules and literals left alone, an uplift ends, and the brackets in the code of its text give the
same messages in the same order as those of the text before it. In particular they match after the uplift if and only
if they matched before. -/
theorem uplift_keeps_bracket_messages [CharacterNames] (o : RunOptions) (ho : o.preserves = true) (s : List Char) :
    ∃ u, (RuleSet.mk o Rule.defaults).uplift s = .ok u ∧
      (bracketErrors (codeOnly u.text)).map (·.issue.message) = (bracketErrors (codeOnly s)).map (·.issue.message) ∧
      (bracketErrors (codeOnly u.text)).length = (bracketErrors (codeOnly s)).length ∧
      (bracketErrors (codeOnly u.text) = [] ↔ bracketErrors (codeOnly s) = []) := by
  refine ⟨_, uplift_eq o s, ?_⟩
  dsimp only
  rw [ho]
  have hmessages := messages_afterSteps steps s
  have hlength := congrArg List.length hmessages
  rw [List.length_map, List.length_map] at hlength
  refine ⟨hmessages, hlength, ?_⟩
  rw [← List.length_eq_zero_iff, ← List.length_eq_zero_iff, hlength]

theorem uplift_keeps_bracket_messages_unbalanced :
    ({} : RunOptions).preserves = true ∧
      ∃ u, (RuleSet.mk {} Rule.defaults).uplift "pub fun f() \x7b ] // )\n(".toList = .ok u ∧
        (bracketErrors (codeOnly u.text)).map (·.issue.message) =
          (bracketErrors (codeOnly "pub fun f() \x7b ] // )\n(".toList)).map (·.issue.message) ∧
        (bracketErrors (codeOnly u.text)).length =
          (bracketErrors (codeOnly "pub fun f() \x7b ] // )\n(".toList)).length ∧
        (bracketErrors (codeOnly u.text) = [] ↔ bracketErrors (codeOnly "pub fun f() \x7b ] // )\n(".toList) = []) :=
  ⟨rfl, uplift_keeps_bracket_messages {} rfl _⟩

end CadenceUplift
