import CadenceUplift.Proofs.Construct.Getter
import CadenceUplift.Proofs.Matching.Conformance
import CadenceUplift.Proofs.Matching.Getter
import CadenceUplift.Proofs.Matching.Keyword
import CadenceUplift.Proofs.Matching.Member

namespace CadenceUplift

open Text Pattern

/-- What a link call starts with. -/
def linkStart : List Char := Word.account ++ ['.', 'l', 'i', 'n', 'k']

/-- The pattern of a link call behind its first edge. -/
def linkRest : List Pattern :=
  linkStart.map .char ++
    [many blank, opt (all [.char '<', many (except ">\n"), .char '>', many blank]), .char '(']

theorem link_eq : Legacy.link = all (edge :: linkRest) := rfl

theorem linkRest_textual : (all linkRest).isTextual = true := rfl

theorem starts_of_language {x : List Char} (h : x ∈ (all linkRest).language) : linkStart <+: x := by
  obtain ⟨y, z, rfl, hy, _⟩ := mem_language_all_append.mp h
  rw [mem_language_chars.mp hy]
  exact List.prefix_append _ _

theorem startsWord_link {x : List Char} (h : linkStart <+: x) : startsWord x = true := by
  obtain ⟨y, rfl⟩ := h
  rfl

theorem reach_link {a u : List Char} {e : Place} :
    Reach (a ++ u).toArray Legacy.link ⟨a.length, []⟩ e ↔
      endsWord a = false ∧ ∃ x r, u = x ++ r ∧ x ∈ (all linkRest).language ∧ e = ⟨(a ++ x).length, []⟩ := by
  rw [link_eq, reach_edge_cons, reach_textual linkRest_textual]
  constructor
  · rintro ⟨hedge, x, r, rfl, hx, rfl⟩
    have hstart : startsWord (x ++ r) = true := startsWord_link ((starts_of_language hx).trans (List.prefix_append _ _))
    rw [hstart] at hedge
    exact ⟨by simpa using hedge, x, r, rfl, hx, rfl⟩
  · rintro ⟨ha, x, r, rfl, hx, rfl⟩
    have hstart : startsWord (x ++ r) = true := startsWord_link ((starts_of_language hx).trans (List.prefix_append _ _))
    rw [ha, hstart]
    exact ⟨by simp, x, r, rfl, hx, rfl⟩

theorem link_regular : Legacy.link.isRegular = true := rfl

theorem link_advances : Legacy.link.advances = true := rfl

/-- What a link pattern took, it takes again. -/
theorem link_again {s : List Char} {M : Match} (h : M ∈ Legacy.link.allMatches s.toArray) :
    (Legacy.link.matchAt (M.text s.toArray).toArray 0).isSome := by
  obtain ⟨a, u, rfl, ha, hM⟩ := exists_split_of_mem_allMatches link_regular link_advances h
  have hreach := (matchAt_eq_some link_regular hM).1
  obtain ⟨_, x, r, rfl, hx, hstop⟩ := reach_link.mp hreach
  have hstop' : M.stop = (a ++ x).length := (Place.mk.inj hstop).1
  have htext : M.text (a ++ (x ++ r)).toArray = x := by
    rw [Match.text, ← ha, hstop']
    simp
  have hagain : Reach ([] ++ x).toArray Legacy.link ⟨([] : List Char).length, []⟩ ⟨([] ++ x).length, []⟩ :=
    reach_link.mpr ⟨rfl, x, [], by simp, hx, rfl⟩
  rw [htext]
  exact matchAt_isSome link_regular hagain

/-- A text that neither is the start of a link call nor starts with it does not match it. -/
theorem link_none {w r : List Char} (h : ¬linkStart <+: w) (h' : ¬w <+: linkStart) :
    (Legacy.link.matchAt (w ++ r).toArray 0).isNone := by
  rw [Option.isNone_iff_eq_none, Option.eq_none_iff_forall_not_mem]
  intro M hM
  have hreach := (matchAt_eq_some link_regular hM).1
  obtain ⟨_, x, r', hx, hlang, _⟩ := (reach_link (a := []) (u := w ++ r)).mp hreach
  have hstart : linkStart <+: w ++ r := by
    rw [hx]
    exact (starts_of_language hlang).trans (List.prefix_append _ _)
  rcases List.prefix_or_prefix_of_prefix hstart (List.prefix_append w r) with hpre | hpre
  · exact h hpre
  · exact h' hpre

/-- The text of a match is what its construct spells. -/
theorem Reads.text {p : Pattern} {At : List Piece → List Piece → Prop} (hR : Reads p At) {s : List Char} {M : Match}
    (h : M ∈ p.allMatches s.toArray) : ∃ m c, At m c ∧ M.text s.toArray = textOf m := by
  obtain ⟨a, u, rfl, ha, hM⟩ := exists_split_of_mem_allMatches hR.regular hR.advances h
  obtain ⟨_, m, c, r, hu, hat, hstop⟩ := hR.sound hM
  refine ⟨m, c, hat, ?_⟩
  have hutext : u = textOf m ++ textOf (c ++ r) := by
    rw [← textOf_append, ← hu, textOf_pieces]
  rw [Match.text, ← ha, hstop, hutext]
  simp

/-- The constructs do not start as link calls do. -/
def NoLink (p : Pattern) : Prop :=
  ∀ (s : List Char), ∀ M ∈ p.allMatches s.toArray, (Legacy.link.matchAt (M.text s.toArray).toArray 0).isNone

theorem Reads.noLink {p : Pattern} {At : List Piece → List Piece → Prop} (hR : Reads p At)
    (h : ∀ m c, At m c → ∃ w r, textOf m = w ++ r ∧ ¬linkStart <+: w ∧ ¬w <+: linkStart) : NoLink p := by
  intro s M hM
  obtain ⟨m, c, hat, htext⟩ := hR.text hM
  obtain ⟨w, r, hm, hw, hw'⟩ := h m c hat
  rw [htext, hm]
  exact link_none hw hw'

theorem keyword_noLink (b : Bool) : NoLink (keywordPattern b) := by
  refine (keyword_reads b).noLink ?_
  rintro _ _ ⟨g, kw, rfl, _, _⟩
  refine ⟨textOf (keywordPieces b), g, by simp [Piece.text], ?_⟩
  cases b <;> decide

theorem body_noLink : NoLink Legacy.conformanceList := by
  refine body_reads.noLink ?_
  rintro _ _ ⟨l, b, _, rfl, _⟩
  refine ⟨l.head.opener, textOf (l.head.rest ++ l.item ++ l.entries.flatMap Entry.pieces ++ b), ?_, ?_⟩
  · simp [CommaList.pieces, DeclarationHead.pieces, Piece.text]
  · have hconflict : ∀ t ∈ Word.types, ¬linkStart <+: t ∧ ¬t <+: linkStart := by decide
    exact hconflict _ l.head.opener_ok

theorem getter_noLink : NoLink Legacy.getter := by
  refine getter_reads.noLink ?_
  rintro _ _ ⟨_, g, rfl⟩
  obtain ⟨r, hr⟩ : ∃ r, g.pieces = .word Word.access :: r := ⟨_, rfl⟩
  refine ⟨Word.access, textOf r, by simp [hr, Piece.text], ?_⟩
  decide

end CadenceUplift
