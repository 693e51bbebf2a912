import CadenceUplift.Proofs.Uplift.Defaults

namespace CadenceUplift

open Text

/-- Texts that differ in some stretches, with a reader in front of them. -/
inductive Redone (R : Reader → List Char → List Char → Prop) : Reader → List Char → List Char → Prop
  | nil (σ : Reader) : Redone R σ [] []
  | keep {σ : Reader} {r r' : List Char} (c : Char) : Redone R (σ.next c) r r' → Redone R σ (c :: r) (c :: r')
  | change {σ : Reader} {m m' r r' : List Char} :
      R σ m m' → σ.after m' = σ.after m → Redone R (σ.after m) r r' → Redone R σ (m ++ r) (m' ++ r')

theorem Redone.append_left {R : Reader → List Char → List Char → Prop} {σ : Reader} {r r' : List Char} (u : List Char)
    (h : Redone R (σ.after u) r r') : Redone R σ (u ++ r) (u ++ r') := by
  induction u generalizing σ with
  | nil => exact h
  | cons c u ih => exact .keep c (ih h)

/-- The text of lexemes. -/
def lexedText (ts : List Lexeme) : List Char := textOf (ts.map Lexeme.piece)

theorem tagged_eq_append {σ : Reader} {xs : List Piece} {m r : List Lexeme} (h : tagged σ xs = m ++ r) :
    ∃ ys, xs = m.map Lexeme.piece ++ ys ∧ r = tagged (σ.after (lexedText m)) ys := by
  induction m generalizing σ xs with
  | nil => exact ⟨xs, rfl, h.symm⟩
  | cons x m ih =>
    cases xs with
    | nil => cases h
    | cons y xs =>
      obtain ⟨rfl, htail⟩ := List.cons.inj h
      obtain ⟨ys, rfl, hr⟩ := ih htail
      refine ⟨ys, rfl, ?_⟩
      rw [hr, lexedText, lexedText, List.map_cons, textOf_cons, Reader.after_append]

section Edits

variable {E : List Lexeme → List Lexeme → List Lexeme → Prop} {R : Reader → List Char → List Char → Prop}

/-- Lexemes that are edited have texts that are redone, if this holds of each edit. -/
theorem Edited.redone
    (hE : ∀ {σ : Reader} {xs : List Piece} {m m' r : List Lexeme}, E m m' r → tagged σ xs = m ++ r →
      (∀ x ∈ xs, x.Valid) → (∀ x ∈ m'.map Lexeme.piece, x.Valid) →
      σ.after (lexedText m') = σ.after (lexedText m) ∧
        ∀ u u', Redone R (σ.after (lexedText m)) u u' → Redone R σ (lexedText m ++ u) (lexedText m' ++ u'))
    {ts ts' : List Lexeme} {n : Nat} (h : Edited E ts ts' n) :
    ∀ {σ : Reader} {xs xs' : List Piece}, tagged σ xs = ts → tagged σ xs' = ts' → (∀ x ∈ xs, x.Valid) →
      (∀ x ∈ xs', x.Valid) → Redone R σ (textOf xs) (textOf xs') := by
  induction h with
  | nil =>
    intro σ xs xs' hxs hxs' _ _
    obtain rfl : xs = [] := by simpa [map_piece_tagged] using congrArg (List.map Lexeme.piece) hxs
    obtain rfl : xs' = [] := by simpa [map_piece_tagged] using congrArg (List.map Lexeme.piece) hxs'
    exact .nil σ
  | keep x _ ih =>
    intro σ xs xs' hxs hxs' hv hv'
    obtain ⟨ys, rfl, hys⟩ := tagged_eq_append (m := [x]) hxs
    obtain ⟨ys', rfl, hys'⟩ := tagged_eq_append (m := [x]) hxs'
    rw [textOf_append, textOf_append]
    refine Redone.append_left _ (ih hys.symm hys'.symm ?_ ?_)
    · exact fun y hy => hv y (List.mem_append_right _ hy)
    · exact fun y hy => hv' y (List.mem_append_right _ hy)
  | @change m m' r r' n he _ ih =>
    intro σ xs xs' hxs hxs' hv hv'
    obtain ⟨ys', rfl, hys'⟩ := tagged_eq_append hxs'
    obtain ⟨hafter, hchange⟩ := hE he hxs hv fun y hy => hv' y (List.mem_append_left _ hy)
    obtain ⟨ys, rfl, hys⟩ := tagged_eq_append hxs
    rw [hafter] at hys'
    rw [textOf_append, textOf_append]
    refine hchange _ _ (ih hys.symm hys'.symm ?_ ?_)
    · exact fun y hy => hv y (List.mem_append_right _ hy)
    · exact fun y hy => hv' y (List.mem_append_right _ hy)

end Edits

theorem lexedText_inCode (ps : List Piece) : lexedText (inCode ps) = textOf ps := by
  rw [lexedText, inCode, map_piece_mk]

namespace Step

/-- The stretches that a step changes, each with what it becomes. -/
def Swap : Step → Reader → List Char → List Char → Prop
  | .target t => fun σ u u' => σ.inCode = true ∧ ∃ ps ps' c, t.At ps c ∧ t.out ps ps' ∧ u = textOf ps ∧ u' = textOf ps' ∧
      ps ≠ [] ∧ ps' ≠ [] ∧ (∀ x ∈ ps, Plain x ∧ x.Valid) ∧ ∀ x ∈ ps', Plain x ∧ x.Valid
  | .getter => fun _ u u' => u = Word.function ∧ u' = Word.view ++ ' ' :: Word.function

/-- A construct in code, as characters. -/
theorem swap_target {t : Target} {σ : Reader} {xs : List Piece} {m m' r : List Lexeme} (h : t.Edit m m' r)
    (hxs : tagged σ xs = m ++ r) (hv : ∀ x ∈ xs, x.Valid) (hv' : ∀ x ∈ m'.map Lexeme.piece, x.Valid) :
    (Step.target t).Swap σ (lexedText m) (lexedText m') := by
  rw [t.edit_eq] at h
  obtain ⟨ps, ps', c, r₀, hat, hout, rfl, rfl, rfl⟩ := h
  have hR := t.rewrites (ε := Unit)
  obtain ⟨w, ps₀, rfl⟩ := hR.opens hat
  obtain ⟨w', ps₀', rfl⟩ := hR.out_opens hat hout
  obtain ⟨ys, rfl, _⟩ := tagged_eq_append hxs
  rw [lexedText_inCode, lexedText_inCode]
  have hpieces (qs : List Piece) : (inCode qs).map Lexeme.piece = qs := map_piece_mk qs .code
  rw [hpieces] at hxs hv hv'
  have hσ : σ.inCode = true := by
    have hregion := congrArg (fun ts => ts.head?.map Lexeme.region) hxs
    exact (region_word σ w _).mp (Option.some.inj hregion)
  refine ⟨hσ, _, _, c, hat, hout, rfl, rfl, by simp, by simp, ?_, ?_⟩
  · exact fun x hx => ⟨Target.at_plain hat x (List.mem_append_left _ hx), hv x (List.mem_append_left _ hx)⟩
  · exact fun x hx => ⟨Target.out_plain hout x hx, hv' x hx⟩

theorem after_swap {st : Step} {σ : Reader} {u u' : List Char} (h : st.Swap σ u u') : σ.after u' = σ.after u := by
  cases st with
  | target t =>
    obtain ⟨hσ, ps, ps', c, _, _, rfl, rfl, hne, hne', hps, hps'⟩ := h
    rw [after_plains hσ hps hne, after_plains hσ hps' hne']
  | getter =>
    obtain ⟨rfl, rfl⟩ := h
    cases σ <;> rfl

/-- The word in front of which a view modifier is put stays, and so does the bracket before it. -/
theorem redone_insert {σ : Reader} {m m' r : List Lexeme} (h : InsertEdit m m' r) :
    σ.after (lexedText m') = σ.after (lexedText m) ∧
      ∀ u u', Redone Step.getter.Swap (σ.after (lexedText m)) u u' →
        Redone Step.getter.Swap σ (lexedText m ++ u) (lexedText m' ++ u') := by
  obtain ⟨b, ρ, rfl, rfl⟩ := h
  have hold : lexedText ((insertion b false).map (⟨·, ρ⟩)) = ')' :: b ++ Word.function := by
    rw [lexedText, map_piece_mk]
    simp [insertion, Piece.text]
  have hnew : lexedText ((insertion b true).map (⟨·, ρ⟩)) = ')' :: b ++ (Word.view ++ ' ' :: Word.function) := by
    rw [lexedText, map_piece_mk]
    simp [insertion, Piece.text]
  have hswap (τ : Reader) : Step.getter.Swap τ Word.function (Word.view ++ ' ' :: Word.function) := ⟨rfl, rfl⟩
  have hafter := after_swap (hswap (σ.after (')' :: b)))
  rw [hold, hnew, Reader.after_append σ (')' :: b) Word.function, Reader.after_append σ (')' :: b)]
  refine ⟨hafter, ?_⟩
  intro u u' hu
  rw [List.append_assoc, List.append_assoc]
  exact Redone.append_left _ (.change (hswap _) hafter hu)

/-- A step redoes the stretches that it changes. -/
theorem redone_after (st : Step) (skipLiterals : Bool) (s : List Char) :
    Redone st.Swap (readerFor skipLiterals) s (st.after skipLiterals s) := by
  have hvalid (u : List Char) : ∀ x ∈ pieces u, x.Valid := (divided_pieces u).valid
  suffices hs : ∃ s', st.after skipLiterals s = s' ∧
      Redone st.Swap (readerFor skipLiterals) (textOf (pieces s)) (textOf (pieces s')) by
    obtain ⟨s', hs', hredone⟩ := hs
    rwa [textOf_pieces, textOf_pieces, ← hs'] at hredone
  cases st with
  | target t =>
    obtain ⟨s', n, hrun, _, hpass⟩ := t.rewrites.replaceInCode s skipLiterals
    refine ⟨s', after_of_run hrun, hpass.edited.redone ?_ rfl rfl (hvalid s) (hvalid s')⟩
    intro σ xs m m' r he hxs hv hv'
    have hswap := swap_target he hxs hv hv'
    exact ⟨after_swap hswap, fun u u' hu => .change hswap (after_swap hswap) hu⟩
  | getter =>
    obtain ⟨s', n, hrun, _, hpass⟩ := getter_rewrites.replaceInCode s skipLiterals
    refine ⟨s', after_of_run hrun, hpass.inserted.redone ?_ rfl rfl (hvalid s) (hvalid s')⟩
    intro σ xs m m' r he _ _ _
    exact redone_insert he

end Step

end CadenceUplift
