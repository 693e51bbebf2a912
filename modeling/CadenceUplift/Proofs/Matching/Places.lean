import CadenceUplift.Proofs.Uplift.Steps

namespace CadenceUplift

open Text Pattern Scanner

/-- The pattern matches somewhere outside the literals of the text. -/
def standsInCode (p : Pattern) (s : List Char) : Bool :=
  (List.range s.length).any fun i => !(literalIndex s).covers i && (p.matchAt s.toArray i).isSome

section Places

variable {State : Type} {B : Scanner State}

theorem exists_word_of_accepts (hB : ∀ {x q}, B.first x = some q → x.kind = .word) {xs : List Piece}
    (h : B.accepts xs = true) : ∃ w r, xs = .word w :: r := by
  cases xs with
  | nil => simp [accepts] at h
  | cons x r =>
    obtain ⟨q, hq, _⟩ := accepts_cons.mp h
    have hword := hB hq
    cases x with
    | word w => exact ⟨w, r, rfl⟩
    | blank b => cases hword
    | symbol c => cases hword

/-- A scanner that starts on words only has hits where it accepts in code. -/
theorem hits_tagged_ne_zero (hB : ∀ {x q}, B.first x = some q → x.kind = .word) {σ : Reader} {xs : List Piece} :
    hits B Lexeme.piece (tagged σ xs) ≠ 0 ↔
      ∃ ys w r, xs = ys ++ .word w :: r ∧ (σ.after (textOf ys)).inCode = true ∧ B.accepts (.word w :: r) = true := by
  induction xs generalizing σ with
  | nil => simp [tagged, hits]
  | cons x xs ih =>
    rw [tagged, hits_cons_ne_zero, map_piece_tagged, ih]
    constructor
    · rintro (⟨hcode, hacc⟩ | ⟨ys, w, r, rfl, hcode, hacc⟩)
      · obtain ⟨w, r, hxs⟩ := exists_word_of_accepts hB hacc
        obtain ⟨rfl, rfl⟩ := List.cons.inj hxs
        exact ⟨[], w, xs, rfl, (region_word σ w _).mp hcode, hacc⟩
      · exact ⟨x :: ys, w, r, rfl, by rwa [textOf_cons, Reader.after_append], hacc⟩
    · rintro ⟨ys, w, r, heq, hcode, hacc⟩
      rcases List.cons_eq_append_iff.mp heq with ⟨rfl, hxs⟩ | ⟨zs, rfl, rfl⟩
      · obtain ⟨rfl, rfl⟩ := List.cons.inj hxs
        exact .inl ⟨(region_word σ w _).mpr hcode, hacc⟩
      · rw [textOf_cons, Reader.after_append] at hcode
        exact .inr ⟨zs, w, r, rfl, hcode, hacc⟩

variable {p : Pattern} {s : List Char}

/-- What a scanner accepts in code, a pattern that takes it finds outside literals. -/
theorem standsInCode_of_hits (hB : ∀ {x q}, B.first x = some q → x.kind = .word) (hp : p.isRegular = true)
    (hcomplete : ∀ {a : List Char} {xs : List Piece}, endsWord a = false → Divided xs → B.accepts xs = true →
      ∃ e, Reach (a ++ textOf xs).toArray p ⟨a.length, []⟩ e)
    (h : hits B Lexeme.piece (lexemes true s) ≠ 0) : standsInCode p s = true := by
  obtain ⟨ys, w, r, hpieces, hcode, hacc⟩ := (hits_tagged_ne_zero hB).mp h
  obtain ⟨rfl, hdiv⟩ := pieces_eq_iff.mp hpieces
  have hrest := (divided_append.mp hdiv).2.1
  obtain ⟨e, he⟩ := hcomplete (endsWord_of_word hdiv) hrest hacc
  have hcovers := covers_skipIndex (textOf (ys ++ .word w :: r)) true (textOf ys) w r (textOf_append _ _) hrest
  have hin : ((readerFor true).after (textOf ys)).inCode = true := hcode
  refine List.any_eq_true.mpr ⟨(textOf ys).length, ?_, ?_⟩
  · have hne := List.length_pos_of_ne_nil (hrest.valid (.word w) (by simp)).1
    rw [List.mem_range, textOf_append, List.length_append, textOf_cons, List.length_append]
    change _ < _ + (w.length + _)
    omega
  · rw [hin] at hcovers
    change (literalIndex _).covers _ = false at hcovers
    have hsome := matchAt_isSome hp he
    rw [← textOf_append] at hsome
    rw [hcovers, hsome]
    rfl

/-- Where a pattern finds only what a scanner accepts, a match outside literals is a hit in code. -/
theorem hits_of_match (hB : ∀ {x q}, B.first x = some q → x.kind = .word) (hp : p.isRegular = true)
    (hadvances : p.advances = true)
    (hsound : ∀ {a u : List Char} {M : Match}, p.matchAt (a ++ u).toArray a.length = some M →
      endsWord a = false ∧ B.accepts (pieces u) = true)
    {M : Match} (hM : M ∈ matchesOutside p s.toArray (literalIndex s)) : hits B Lexeme.piece (lexemes true s) ≠ 0 := by
  obtain ⟨hfound, hcovers⟩ := List.mem_filter.mp hM
  obtain ⟨a, u, rfl, ha, hmatch⟩ := exists_split_of_mem_allMatches hp hadvances hfound
  obtain ⟨hends, hacc⟩ := hsound hmatch
  obtain ⟨w, r, hu⟩ := exists_word_of_accepts hB hacc
  obtain ⟨rfl, hdiv⟩ := pieces_eq_iff.mp hu
  have hstart : startsWord (textOf (.word w :: r)) = true := startsWord_iff.mpr ⟨w, r, hu⟩
  have hin := covers_skipIndex (a ++ textOf (.word w :: r)) true a w r rfl hdiv
  change (literalIndex _).covers _ = _ at hin
  rw [ha] at hin
  rw [hin] at hcovers
  refine (hits_tagged_ne_zero hB).mpr ⟨pieces a, w, r, ?_, ?_, hu ▸ hacc⟩
  · rw [pieces_append hends hstart, hu]
  · rw [textOf_pieces]
    simpa using hcovers

end Places

end CadenceUplift
