import CadenceUplift.Proofs.Construct.Member
import CadenceUplift.Proofs.Matching.Basic

namespace CadenceUplift

open Text Pattern

/-- The pattern of a member of an account; `call` asks for type arguments or a bracket after it. -/
def memberPattern (name : List Pattern) (call : Bool) : Pattern :=
  if call then Legacy.storageCallOf name
  else all (edge :: Legacy.chars "account." ++ name ++ [edge])

/-- An account with the dot after it. -/
def accountDot : List Char := Word.account ++ ['.']

/-- What the pattern asks for after the member. -/
def callAhead (call : Bool) : List Pattern :=
  if call then [.ahead false (all [many blank, among "<("])] else []

theorem memberPattern_eq (name : List Pattern) (call : Bool) :
    memberPattern name call = all (edge :: (accountDot.map .char ++ (name ++ edge :: callAhead call))) := by
  have hdot : Legacy.chars "account." = accountDot.map .char := by decide
  cases call <;> simp [memberPattern, Legacy.storageCallOf, callAhead, hdot]

theorem opensCall_iff {s : List Char} :
    (∃ g d r, s = g ++ d :: r ∧ (∀ c ∈ g, isBlank c = true) ∧ (d = '<' ∨ d = '(')) ↔
      ∃ c r, pieces s = c ++ r ∧ OpensCall c := by
  constructor
  · rintro ⟨g, d, r, rfl, hg, hd⟩
    have hv : (Piece.symbol d).Valid := by rcases hd with rfl | rfl <;> decide
    refine ⟨gapOf g ++ [.symbol d], pieces r, ?_, gapOf g, d, isGap_gapOf g, hd, rfl⟩
    have hstart : startsBlank (d :: r) = false := hv.2
    rw [pieces_gap_append hg hstart, pieces_symbol_cons hv]
    simp
  · rintro ⟨c, r, hs, g, d, hg, hd, rfl⟩
    obtain ⟨rfl, hdiv⟩ := pieces_eq_iff.mp hs
    refine ⟨textOf g, d, textOf r, by simp [Piece.text], hg.blank fun x hx => hdiv.valid x (by simp [hx]), hd⟩

theorem reach_callAhead {call : Bool} {a u : List Char} {cs : List Capture} {e : Place} :
    Reach (a ++ u).toArray (all (callAhead call)) ⟨a.length, cs⟩ e ↔
      (call = true → ∃ c r, pieces u = c ++ r ∧ OpensCall c) ∧ e = ⟨a.length, cs⟩ := by
  cases call with
  | false => simp [callAhead, reach_all_nil]
  | true =>
    have hblank : (many blank).isTextual = true := rfl
    have hopen : (among "<(").isTextual = true := rfl
    simp only [callAhead, ↓reduceIte, reach_all_singleton, reach_ahead, reach_textual_cons hblank,
      reach_textual hopen, mem_language_many_blank, mem_language_among, ← opensCall_iff, forall_const]
    refine and_congr_left fun _ => ?_
    constructor
    · rintro ⟨_, g, _, rfl, hg, x, r, rfl, ⟨d, hd, rfl⟩, _⟩
      exact ⟨g, d, r, rfl, hg, by simpa using hd⟩
    · rintro ⟨g, d, r, rfl, hg, hd⟩
      exact ⟨_, g, _, rfl, hg, [d], r, rfl, ⟨d, by simpa using hd, rfl⟩, rfl⟩

section Reading

variable {name : List Pattern} {names : List (List Char)} {call : Bool}

/-- Where the pattern of a member gets to. -/
theorem reach_member (hname : (all name).isTextual = true) (hlang : ∀ u, u ∈ (all name).language ↔ u ∈ names)
    (hvalid : ∀ w ∈ names, (Piece.word w).Valid) {a u : List Char} {cs : List Capture} {e : Place} :
    Reach (a ++ u).toArray (memberPattern name call) ⟨a.length, cs⟩ e ↔
      endsWord a ≠ startsWord u ∧ ∃ w r, u = accountDot ++ (w ++ r) ∧ w ∈ names ∧ startsWord r = false ∧
        (call = true → ∃ c r₀, pieces r = c ++ r₀ ∧ OpensCall c) ∧ e = ⟨(a ++ (accountDot ++ w)).length, cs⟩ := by
  rw [memberPattern_eq, reach_edge_cons, reach_chars_append]
  refine and_congr_right fun _ => ?_
  simp only [reach_all_append, reach_textual hname, hlang]
  constructor
  · rintro ⟨_, rfl, _, ⟨w, r, rfl, hw, rfl⟩, h⟩
    rw [← List.append_assoc, reach_edge_cons, (hvalid w hw).endsWord, reach_callAhead] at h
    obtain ⟨hedge, hcall, rfl⟩ := h
    exact ⟨w, r, rfl, hw, by simpa using hedge.symm, hcall, by simp⟩
  · rintro ⟨w, r, rfl, hw, hr, hcall, rfl⟩
    refine ⟨_, rfl, _, ⟨w, r, rfl, hw, rfl⟩, ?_⟩
    rw [← List.append_assoc, reach_edge_cons, (hvalid w hw).endsWord, reach_callAhead, hr]
    exact ⟨by simp, hcall, by simp⟩

theorem member_divided {w : List Char} (hw : (Piece.word w).Valid) : Divided (memberPieces w) := by
  have haccount : (Piece.word Word.account).Valid := by decide
  have hdot : (Piece.symbol '.').Valid := by decide
  have hnil : Divided [] := divided_pieces []
  simp [memberPieces, divided_cons, Piece.Apart, haccount, hdot, hw, hnil]

theorem textOf_memberPieces (w : List Char) : textOf (memberPieces w) = accountDot ++ w := by
  simp [memberPieces, accountDot, Piece.text]

theorem member_reads (hname : (all name).isTextual = true) (hlang : ∀ u, u ∈ (all name).language ↔ u ∈ names)
    (hvalid : ∀ w ∈ names, (Piece.word w).Valid) (hreg : (memberPattern name call).isRegular = true)
    (hadv : (memberPattern name call).advances = true) : Reads (memberPattern name call) (MemberAt names call) := by
  refine .of_reach hreg hadv ?_ ?_ ?_
  · rintro m c ⟨w, _, rfl, _⟩
    exact ⟨_, _, rfl⟩
  · intro a u e h
    obtain ⟨hedge, w, r, rfl, hw, hr, hcall, rfl⟩ := (reach_member hname hlang hvalid).mp h
    have hstart : startsWord (accountDot ++ (w ++ r)) = true := rfl
    rw [hstart] at hedge
    have hpieces : pieces (accountDot ++ (w ++ r)) = memberPieces w ++ pieces r := by
      rw [← List.append_assoc, ← textOf_memberPieces]
      exact pieces_textOf_append (member_divided (hvalid w hw)) (by simpa [memberPieces] using apart_word_pieces hr w)
    refine ⟨by simpa using hedge, ?_⟩
    cases call with
    | false =>
      exact ⟨memberPieces w, [], pieces r, hpieces, ⟨w, hw, rfl, rfl⟩, by rw [textOf_memberPieces]⟩
    | true =>
      obtain ⟨c, r₀, hc, hopens⟩ := hcall rfl
      exact ⟨memberPieces w, c, r₀, by rw [hpieces, hc], ⟨w, hw, rfl, hopens⟩, by rw [textOf_memberPieces]⟩
  · rintro a m c r ha hdiv ⟨w, hw, rfl, hc⟩
    have hlast : Divided (.word w :: (c ++ r)) := hdiv.tail.tail
    have hcall : call = true → ∃ c' r₀, pieces (textOf (c ++ r)) = c' ++ r₀ ∧ OpensCall c' := by
      rintro rfl
      exact ⟨c, r, pieces_textOf hlast.tail, hc⟩
    have htext : textOf (memberPieces w ++ (c ++ r)) = accountDot ++ (w ++ textOf (c ++ r)) := by
      rw [textOf_append, textOf_memberPieces, List.append_assoc]
    refine ⟨_, (reach_member hname hlang hvalid).mpr ⟨?_, w, _, htext, hw, hlast.startsWord_tail, hcall, rfl⟩⟩
    have hstart : startsWord (accountDot ++ (w ++ textOf (c ++ r))) = true := rfl
    rw [htext, ha, hstart]
    simp

end Reading

end CadenceUplift
