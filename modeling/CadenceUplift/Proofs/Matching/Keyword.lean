import CadenceUplift.Proofs.Construct.Keyword
import CadenceUplift.Proofs.Matching.Basic

namespace CadenceUplift

open Text Pattern

/-- The pattern of a keyword in front of a declaration. -/
def keywordPattern (bracketed : Bool) : Pattern :=
  if bracketed then Legacy.pubSetDeclaration else Legacy.pubDeclaration

/-- The characters of a keyword. -/
def keywordText (bracketed : Bool) : List Char := textOf (keywordPieces bracketed)

theorem keywordPattern_eq (b : Bool) :
    keywordPattern b =
      all (edge :: ((keywordText b).map .char ++ [many1 blank, Legacy.declarationAhead])) := by
  cases b <;> decide

theorem declarations_eq : Legacy.declarationKeywords.map String.toList = Word.declarations := by decide

theorem mem_language_declarations {u : List Char} :
    u ∈ (Legacy.wordsOf Legacy.declarationKeywords).language ↔ u ∈ Word.declarations := by
  rw [mem_language_wordsOf (by decide), ← declarations_eq, List.mem_map]
  simp only [eq_comm]

theorem declarations_valid : ∀ w ∈ Word.declarations, (Piece.word w).Valid := by decide

theorem keywordPieces_divided (b : Bool) {g w : List Char} (hg : (Piece.blank g).Valid)
    (hw : (Piece.word w).Valid) : Divided (keywordPieces b ++ [.blank g, .word w]) := by
  have hpub : (Piece.word Word.pub).Valid := by decide
  have hset : (Piece.word Word.set).Valid := by decide
  have hopen : (Piece.symbol '(').Valid := by decide
  have hclose : (Piece.symbol ')').Valid := by decide
  have hnil : Divided [] := divided_pieces []
  cases b <;>
    simp [keywordPieces, divided_cons, Piece.Apart, hpub, hset, hopen, hclose, hg, hw, hnil]

/-- Where the pattern of a keyword gets to. -/
theorem reach_keyword {b : Bool} {a u : List Char} {cs : List Capture} {e : Place} :
    Reach (a ++ u).toArray (keywordPattern b) ⟨a.length, cs⟩ e ↔
      endsWord a ≠ startsWord u ∧ ∃ g w r, u = keywordText b ++ (g ++ (w ++ r)) ∧ (Piece.blank g).Valid ∧
        w ∈ Word.declarations ∧ startsWord r = false ∧ e = ⟨(a ++ (keywordText b ++ g)).length, cs⟩ := by
  have hblank : (many1 blank).isTextual = true := rfl
  have hwords : (Legacy.wordsOf Legacy.declarationKeywords).isTextual = true := by decide
  rw [keywordPattern_eq, reach_edge_cons, reach_chars_append]
  simp only [reach_textual_cons hblank, reach_all_singleton, Legacy.declarationAhead, reach_ahead,
    reach_textual_cons hwords, reach_edge_behind, mem_language_many1_blank, mem_language_declarations]
  refine and_congr_right fun _ => ?_
  constructor
  · rintro ⟨_, rfl, g, _, rfl, hg, ⟨_, w, r, rfl, hw, hedge, rfl⟩, rfl⟩
    rw [(declarations_valid w hw).endsWord] at hedge
    exact ⟨g, w, r, rfl, hg, hw, by simpa using hedge.symm, by simp⟩
  · rintro ⟨g, w, r, rfl, hg, hw, hr, rfl⟩
    refine ⟨_, rfl, g, _, rfl, hg, ⟨_, w, r, rfl, hw, ?_, rfl⟩, by simp⟩
    rw [(declarations_valid w hw).endsWord, hr]
    simp

theorem keyword_pieces {b : Bool} {g w r : List Char} (hg : (Piece.blank g).Valid) (hw : w ∈ Word.declarations)
    (hr : startsWord r = false) :
    pieces (keywordText b ++ (g ++ (w ++ r))) = keywordPieces b ++ [.blank g] ++ ([.word w] ++ pieces r) := by
  have hdiv := keywordPieces_divided b hg (declarations_valid w hw)
  have happ := pieces_textOf_append hdiv (s := r) (by simpa using apart_word_pieces hr w)
  simpa [keywordText, Piece.text] using happ

theorem keyword_starts (b : Bool) (r : List Char) : startsWord (keywordText b ++ r) = true := by
  cases b <;> rfl

theorem keyword_reads (b : Bool) : Reads (keywordPattern b) (KeywordAt b) := by
  refine .of_reach (by cases b <;> decide) (by cases b <;> decide) (keyword_finds b).opens ?_ ?_
  · intro a u e h
    obtain ⟨hedge, g, w, r, rfl, hg, hw, hr, rfl⟩ := reach_keyword.mp h
    rw [keyword_starts] at hedge
    refine ⟨by simpa using hedge, _, _, _, keyword_pieces hg hw hr, ⟨g, w, rfl, hw, rfl⟩, ?_⟩
    simp [keywordText, Piece.text]
  · rintro a m c r ha hdiv ⟨g, w, rfl, hw, rfl⟩
    have hg : (Piece.blank g).Valid := hdiv.valid _ (by simp)
    have hr : startsWord (textOf r) = false := (divided_append.mp hdiv).2.1.startsWord_tail
    have htext : textOf (keywordPieces b ++ [.blank g] ++ ([.word w] ++ r)) =
        keywordText b ++ (g ++ (w ++ textOf r)) := by simp [keywordText, Piece.text]
    refine ⟨_, reach_keyword.mpr ⟨?_, g, w, textOf r, htext, hg, hw, hr, rfl⟩⟩
    rw [htext, keyword_starts, ha]
    simp

end CadenceUplift
