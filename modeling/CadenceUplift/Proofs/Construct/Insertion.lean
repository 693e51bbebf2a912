import CadenceUplift.Proofs.Construct.Edits
import CadenceUplift.Proofs.Construct.Getter

namespace CadenceUplift

open Text Scanner

theorem Pass.inserted {ts ts' : List Lexeme} {n : Nat} (h : Pass GetterAt GetterEdit ts ts' n) :
    Edited InsertEdit ts ts' n := by
  induction h with
  | nil => exact .nil
  | keep _ _ ih => exact .keep _ ih
  | skip _ _ _ _ ih => exact ih.append_left _
  | @change x m m' r r' c r₀ n _ _ _ he _ ih =>
    obtain ⟨_, front, old, new, rest, hins, hm, hm'⟩ := he
    have hins' : InsertEdit old new (rest ++ r) := hins
    rw [hm, hm', List.append_assoc, List.append_assoc, List.append_assoc, List.append_assoc]
    exact (Edited.change hins' (ih.append_left rest)).append_left front

/-- The scanner starts nowhere in an insertion, and no state gets over one with a view modifier. -/
structure Barred {State : Type} (B : Scanner State) : Prop where
  silent : ∀ b viewed r, B.Silent (insertion b viewed) r
  bars : ∀ q b, B.feed (.go q) (insertion b true) = .fail

theorem insertion_silent {State : Type} {B : Scanner State} {words : List (List Char)} {q : State}
    (hB : B.first = opensAmong words q) (hview : Word.view ∉ words) (hfun : Word.function ∉ words) (b : List Char)
    (viewed : Bool) (r : List Piece) : B.Silent (insertion b viewed) r := by
  refine silent_of_words hB ?_ r
  intro w hw hmem
  have hne : w ≠ Word.view := fun h => hview (h ▸ hw)
  have hne' : w ≠ Word.function := fun h => hfun (h ▸ hw)
  cases viewed <;> simp [insertion, hne, hne'] at hmem

theorem keyword_barred (a : Bool) : Barred (keywordScanner a) where
  silent := insertion_silent (keywordScanner_first a) (by decide) (by decide)
  bars q b := by
    have hview : Word.view ∉ Word.declarations := by decide
    cases q <;> simp [insertion, keywordStep, hview]

theorem member_barred (names : List (List Char)) (call : Bool) : Barred (memberScanner names call) where
  silent := insertion_silent (memberScanner_first names call) (by decide) (by decide)
  bars q b := by cases q <;> simp [insertion, memberStep]

theorem conformance_barred : Barred conformanceScanner where
  silent := insertion_silent conformanceScanner_first (by decide) (by decide)
  bars q b := by cases q <;> simp [insertion, conformanceStep, afterItem]

section Counting

variable {State : Type} {B : Scanner State} {ts ts' : List Lexeme} {n : Nat}

theorem Barred.feed_of_inserted (hB : Barred B) (h : Edited InsertEdit ts ts' n) (v : Progress State)
    (hv : B.feed v (ts'.map Lexeme.piece) = .accept) : B.feed v (ts.map Lexeme.piece) = .accept := by
  induction h generalizing v with
  | nil => exact hv
  | keep x _ ih =>
    cases v with
    | fail => simp at hv
    | accept => exact feed_accept _
    | go q => exact ih _ hv
  | change he _ _ =>
    obtain ⟨b, ρ, rfl, rfl⟩ := he
    cases v with
    | fail => simp at hv
    | accept => exact feed_accept _
    | go q =>
      rw [List.map_append, map_piece_mk, feed_append, hB.bars, feed_fail] at hv
      exact absurd hv (by simp)

/-- View modifiers make no construct. -/
theorem Barred.hits_le (hB : Barred B) (h : Edited InsertEdit ts ts' n) :
    hits B Lexeme.piece ts' ≤ hits B Lexeme.piece ts := by
  induction h with
  | nil => exact Nat.le_refl _
  | @keep x r r' n hr ih =>
    have hacc : B.accepts (x.piece :: r'.map Lexeme.piece) = true → B.accepts (x.piece :: r.map Lexeme.piece) = true := by
      intro hacc
      obtain ⟨q, hq, hfeed⟩ := accepts_cons.mp hacc
      exact accepts_cons.mpr ⟨q, hq, hB.feed_of_inserted hr _ hfeed⟩
    rw [hits_cons, hits_cons]
    by_cases h' : x.region = .code ∧ B.accepts (x.piece :: r'.map Lexeme.piece) = true
    · rw [if_pos h', if_pos ⟨h'.1, hacc h'.2⟩]
      omega
    · rw [if_neg h']
      omega
  | change he hr ih =>
    obtain ⟨b, ρ, rfl, rfl⟩ := he
    rw [hits_append (by rw [map_piece_mk]; exact hB.silent b true _),
      hits_append (by rw [map_piece_mk]; exact hB.silent b false _)]
    exact ih

theorem Target.hits_inserted (t : Target) (h : Edited InsertEdit ts ts' n) :
    t.hits Lexeme.piece ts' ≤ t.hits Lexeme.piece ts := by
  cases t with
  | keyword b => exact (keyword_barred b).hits_le h
  | conformance => exact conformance_barred.hits_le h
  | member m => exact (member_barred _ _).hits_le h

end Counting

end CadenceUplift
