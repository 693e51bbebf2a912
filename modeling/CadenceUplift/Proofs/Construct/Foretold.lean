import CadenceUplift.Proofs.Construct.Edits

namespace CadenceUplift

open Text Scanner

section Foretelling

variable {State : Type} {B : Scanner State} {ts ts' : List Lexeme}

/-- What a scanner accepts in the new lexemes, it accepts in the old ones, or something it accepts starts there. -/
structure Foretold (B : Scanner State) (ts ts' : List Lexeme) : Prop where
  feed : ∀ v, B.feed v (ts'.map Lexeme.piece) = .accept →
    B.feed v (ts.map Lexeme.piece) = .accept ∨ hits B Lexeme.piece ts ≠ 0
  hits : hits B Lexeme.piece ts' ≠ 0 → hits B Lexeme.piece ts ≠ 0

theorem hits_append_ne_zero {r : List Lexeme} (h : hits B Lexeme.piece r ≠ 0) (m : List Lexeme) :
    hits B Lexeme.piece (m ++ r) ≠ 0 := by
  have hle := hits_le_append (B := B) Lexeme.piece m r
  omega

theorem Foretold.nil : Foretold B [] [] where
  feed _ hv := .inl hv
  hits h := h

theorem Foretold.cons (x : Lexeme) (h : Foretold B ts ts') : Foretold B (x :: ts) (x :: ts') where
  feed v hv := by
    cases v with
    | fail => simp at hv
    | accept => exact .inl (feed_accept _)
    | go q => exact (h.feed _ hv).imp_right fun hits => hits_append_ne_zero hits [x]
  hits hits := by
    rcases hits_cons_ne_zero.mp hits with ⟨hcode, hacc⟩ | hrest
    · obtain ⟨q, hq, hfeed⟩ := accepts_cons.mp hacc
      rcases h.feed _ hfeed with hold | hold
      · exact hits_cons_ne_zero.mpr (.inl ⟨hcode, accepts_cons.mpr ⟨q, hq, hold⟩⟩)
      · exact hits_append_ne_zero hold [x]
    · exact hits_append_ne_zero (h.hits hrest) [x]

/-- What each edit foretells, all of them do. -/
theorem Edited.foretold {E : List Lexeme → List Lexeme → List Lexeme → Prop}
    (hE : ∀ {m m' r r'}, E m m' r → Foretold B r r' → Foretold B (m ++ r) (m' ++ r')) {n : Nat}
    (h : Edited E ts ts' n) : Foretold B ts ts' := by
  induction h with
  | nil => exact .nil
  | keep x _ ih => exact ih.cons x
  | change he _ ih => exact hE he ih

/-- A scanner for a construct with brackets in it: there it goes over anything but the closing bracket, and
elsewhere over no separator of conformances. -/
structure Encloses (B : Scanner State) (inside : State → Bool) (close : Piece) : Prop where
  opens : ∀ {x q}, B.first x = some q → x.kind = .word
  stays : ∀ {q x}, inside q = true → x ≠ close → B.step q x = .go q
  mark : ∀ {q d}, inside q = false → d = ',' ∨ d = '&' → B.step q (.symbol d) = .fail
  blank : ∀ {q} b, inside q = false →
    B.step q (.blank b) = .fail ∨ ∃ q', inside q' = false ∧ B.step q (.blank b) = .go q'

variable {inside : State → Bool} {close : Piece} {m m' r r' : List Lexeme}

theorem Encloses.feed_inside (hB : Encloses B inside close) {q : State} (hq : inside q = true) {xs : List Piece}
    (hxs : close ∉ xs) : B.feed (.go q) xs = .go q :=
  feed_stays fun _ hx => hB.stays hq fun heq => hxs (heq ▸ hx)

/-- What is accepted within brackets has their end in it. -/
theorem Encloses.inv_inside (hB : Encloses B inside close) {q : State} (hq : inside q = true) {xs : List Piece}
    (h : B.feed (.go q) xs = .accept) :
    ∃ ys r, xs = ys ++ close :: r ∧ close ∉ ys ∧ B.feed (B.step q close) r = .accept := by
  obtain ⟨ys, r, heq, hys, hr⟩ := feed_closes (p := fun _ => True) (fun x hx => .inr ⟨trivial, hB.stays hq hx⟩) h
  exact ⟨ys, r, heq, fun hmem => (hys close hmem).1 rfl, hr⟩

/-- A stretch that the scanner gets over in brackets only may give way to another one like that. -/
theorem Encloses.foretold (hB : Encloses B inside close) {ps ps' : List Piece} (hps : close ∉ ps) (hps' : close ∉ ps')
    (hstuck : ∀ q, inside q = false → B.feed (.go q) ps' = .fail) (hsilent : ∀ r, B.Silent ps' r)
    (h : Foretold B r r') : Foretold B (inCode ps ++ r) (inCode ps' ++ r') where
  feed v hv := by
    rw [List.map_append, map_inCode fun _ => rfl] at hv ⊢
    cases v with
    | fail => simp at hv
    | accept => exact .inl (feed_accept _)
    | go q =>
      cases hq : inside q with
      | false =>
        rw [feed_append, hstuck q hq, feed_fail] at hv
        cases hv
      | true =>
        rw [feed_append, hB.feed_inside hq hps'] at hv
        rw [feed_append, hB.feed_inside hq hps]
        exact (h.feed _ hv).imp_right fun hits => hits_append_ne_zero hits _
  hits hits := by
    rw [hits_append (by rw [map_inCode fun _ => rfl]; exact hsilent _)] at hits
    exact hits_append_ne_zero (h.hits hits) _

theorem Encloses.foretold_separator (hB : Encloses B inside close) (hclose : close = .symbol ')' ∨ close = .symbol '>')
    (he : SeparatorEdit m m' r) (h : Foretold B r r') : Foretold B (m ++ r) (m' ++ r') := by
  obtain ⟨g, d, g', hg, hd, hg', rfl, rfl⟩ := he
  have hgap {g : List Piece} (hg : IsGap g) : close ∉ g := by
    obtain rfl | ⟨b, rfl⟩ := hg <;> rcases hclose with rfl | rfl <;> simp
  have hmark {d : Char} (hd : d = ',' ∨ d = '&') : close ≠ .symbol d := by
    rcases hd with rfl | rfl <;> rcases hclose with rfl | rfl <;> decide
  refine hB.foretold ?_ ?_ ?_ ?_ h
  · simp [hgap hg, hgap hg', hmark hd]
  · rcases hclose with rfl | rfl <;> decide
  · intro q hq
    rcases hB.blank [' '] hq with hblank | ⟨q', hq', hblank⟩
    · rw [feed_go_cons, hblank, feed_fail]
    · rw [feed_go_cons, hblank, feed_go_cons, hB.mark hq' (.inr rfl), feed_fail]
  · intro r
    refine silent_of_first ?_
    intro x hx
    rw [Option.eq_none_iff_forall_ne_some]
    intro q hq
    have hword := hB.opens hq
    simp only [List.mem_cons, List.not_mem_nil, or_false] at hx
    rcases hx with rfl | rfl | rfl <;> cases hword

end Foretelling

end CadenceUplift
