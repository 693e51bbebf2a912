import CadenceUplift.Proofs.Lexeme.Stretch
import CadenceUplift.Proofs.Text.Lines
import CadenceUplift.Proofs.Uplift.Redone
import Mathlib.Algebra.GroupWithZero.Nat

namespace CadenceUplift

open Text Scanner

section Delimiting

theorem keyword_delimits (b : Bool) : (keywordScanner b).Delimits (KeywordAt b) List.dropLast where
  toFinds := keyword_finds b
  stretch := by
    rintro m c ⟨g, kw, rfl, hkw, rfl⟩ r
    cases b <;> simp [stretch?, opensAmong, keywordPieces, keywordStep, hkw]
  front_eq := by
    rintro m c ⟨g, kw, rfl, _, rfl⟩
    exact List.dropLast_concat

theorem member_delimits {names : List (List Char)} (h : Word.account ∉ names) (call : Bool) :
    (memberScanner names call).Delimits (MemberAt names call) (List.take 3) where
  toFinds := member_finds h call
  stretch := by
    rintro m c ⟨w, hw, rfl, hc⟩ r
    cases call with
    | false =>
      obtain rfl : c = [] := hc
      simp [stretch?, opensAmong, memberPieces, memberStep, hw]
    | true =>
      obtain ⟨g, d, hg, hd, rfl⟩ := hc
      obtain rfl | ⟨b, rfl⟩ := hg <;> simp [stretch?, opensAmong, memberPieces, memberStep, hw, hd]
  front_eq := by
    rintro m c ⟨w, _, rfl, _⟩
    rfl

/-- A declaration up to the brace of its body, without the brace and the blanks in front of it. -/
def beforeBody (xs : List Piece) : List Piece :=
  match xs.dropLast.getLast? with
  | some (.blank _) => xs.dropLast.dropLast
  | _ => xs.dropLast

theorem CommaList.last_pieces (l : CommaList) : ∀ x ∈ l.pieces.getLast?, x.kind ≠ .blank := by
  obtain ⟨e₀, he₀, _⟩ := l.has_comma
  obtain ⟨es, e, hes⟩ := (List.eq_nil_or_concat l.entries).resolve_left (List.ne_nil_of_mem he₀)
  rw [List.concat_eq_append] at hes
  rw [CommaList.pieces, hes, getLast?_entry]
  exact e.item_ok.last []

theorem beforeBody_eq (l : CommaList) {c : List Piece} (h : OpensBody c) : beforeBody (l.pieces ++ c) = l.pieces := by
  obtain ⟨g, hg, rfl⟩ := h
  have hlast : (l.pieces ++ (g ++ [Piece.symbol '\x7b'])).dropLast = l.pieces ++ g := by
    rw [← List.append_assoc, List.dropLast_concat]
  rw [beforeBody, hlast]
  obtain rfl | ⟨b, rfl⟩ := hg
  · have hnot := l.last_pieces
    rw [List.append_nil]
    split
    next b hb => exact absurd rfl (hnot _ hb)
    next => rfl
  · rw [List.getLast?_concat, List.dropLast_concat]

theorem conformance_delimits : conformanceScanner.Delimits ConformanceAt beforeBody where
  toFinds := conformance_finds
  stretch := by
    rintro m c ⟨l, rfl, hc⟩ r
    have hcomma : (l.entries.any fun e => e.mark = ',') = true := by
      obtain ⟨e, he, hmark⟩ := l.has_comma
      exact List.any_eq_true.mpr ⟨e, he, by simp [hmark]⟩
    have hlist : conformanceScanner.feed (.go .opener) (l.head.rest ++ l.item ++ l.entries.flatMap Entry.pieces) =
        .go (.item true) := by
      rw [feed_append, feed_append, conformance_feed_head, conformance_feed_item l.item_ok, conformance_feed_entries,
        hcomma, Bool.or_true]
    have hbody : conformanceScanner.run (.go (.item true)) (c ++ r) = some c := by
      obtain ⟨g, hg, rfl⟩ := hc
      obtain rfl | ⟨b, rfl⟩ := hg <;> simp [conformanceStep, afterItem]
    have hopener : conformanceScanner.first (.word l.head.opener) = some .opener :=
      opensAmong_eq_some.mpr ⟨_, l.head.opener_ok, rfl, rfl⟩
    have hpieces : l.pieces = .word l.head.opener :: (l.head.rest ++ l.item ++ l.entries.flatMap Entry.pieces) := by
      simp [CommaList.pieces, DeclarationHead.pieces]
    rw [hpieces, List.cons_append, stretch?, hopener, Option.bind_some, run_append hlist, hbody]
    rfl
  front_eq := by
    rintro m c ⟨l, rfl, hc⟩
    exact beforeBody_eq l hc

end Delimiting

namespace Target

/-- Each construct has a scanner that delimits it, and that never gets over a keyword of another kind. -/
theorem delimits (t : Target) : ∃ (State : Type) (B : Scanner State) (front : List Piece → List Piece),
    B.Delimits t.At front ∧ ∀ b, t ≠ .keyword b →
      Blocked B Lexeme.piece (KeywordEdit b) ∧ SilentIn B (KeywordAt b) fun _ ps' => ps' = accessPieces := by
  have hsees : SeesCode Lexeme.piece := fun _ => rfl
  cases t with
  | keyword a =>
    refine ⟨_, _, _, keyword_delimits a, ?_⟩
    intro b hb
    have hab : a ≠ b := fun hab => hb (by rw [hab])
    exact ⟨keyword_blocked_by_keyword hsees a b, keyword_silentIn_keyword hab⟩
  | conformance =>
    refine ⟨_, _, _, conformance_delimits, ?_⟩
    intro b _
    exact ⟨conformance_blocked_by_keyword hsees b, conformance_silentIn_keyword b⟩
  | member m =>
    refine ⟨_, _, _, member_delimits (account_not_name m) m.isCall, ?_⟩
    intro b _
    have hpub : Word.pub ∉ [m.name] := by cases m <;> decide
    have haccess : Word.access ∉ [m.name] := by cases m <;> decide
    exact ⟨member_blocked_by_keyword hsees hpub haccess m.isCall b, member_silentIn_keyword _ _ b⟩

theorem pass_after (t : Target) (skipLiterals : Bool) (s : List Char) :
    ∃ n, Pass t.At (EditOf t.At t.out) (lexemes skipLiterals s)
      (lexemes skipLiterals ((Step.target t).after skipLiterals s)) n := by
  obtain ⟨s', n, hrun, _, hpass⟩ := t.rewrites.replaceInCode s skipLiterals
  have hafter : (Step.target t).after skipLiterals s = s' := Step.after_of_run hrun
  rw [t.edit_eq] at hpass
  exact ⟨n, hafter ▸ hpass⟩

/-- The constructs outside literals, as they are spelled. -/
def spellings (skipLiterals : Bool) (t : Target) (s : List Char) : List (List Char) :=
  (matchesOutside t.pattern s.toArray (skipIndex skipLiterals s)).map (·.text s.toArray)

/-- The step for a keyword leaves the other constructs as they are spelled. -/
theorem spellings_after_keyword {t : Target} {b : Bool} (h : t ≠ .keyword b) (skipLiterals : Bool) (s : List Char) :
    t.spellings skipLiterals ((Step.target (.keyword b)).after skipLiterals s) = t.spellings skipLiterals s := by
  obtain ⟨State, B, front, hB, hkeyword⟩ := t.delimits
  obtain ⟨hblocked, hsilent⟩ := hkeyword b h
  obtain ⟨n, hpass⟩ := (Target.keyword b).pass_after skipLiterals s
  have hreads := (t.rewrites (ε := Unit)).toReads
  have hpieces (ps : List Piece) : (inCode ps).map Lexeme.piece = ps := map_piece_mk ps .code
  have hsame : stretches B (lexemes skipLiterals s) =
      stretches B (lexemes skipLiterals ((Step.target (.keyword b)).after skipLiterals s)) := by
    refine hpass.edited.stretches_eq hblocked ?_
    rintro m m' r ⟨ps, ps', c, r₀, hat, hout, rfl, rfl, rfl⟩
    rw [List.map_append, hpieces, hpieces, hpieces]
    exact ⟨hsilent.old hat hout _, hsilent.new hat hout⟩
  rw [lexemes, lexemes] at hsame
  rw [spellings, spellings, hreads.texts_matchesOutside hB, hreads.texts_matchesOutside hB, hsame]

end Target

section Counting

theorem lexedText_append (xs ys : List Lexeme) : lexedText (xs ++ ys) = lexedText xs ++ lexedText ys := by
  rw [lexedText, List.map_append, textOf_append]
  rfl

theorem lexedText_lexemes (skipLiterals : Bool) (s : List Char) : lexedText (lexemes skipLiterals s) = s := by
  rw [lexedText, lexemes, map_piece_tagged, textOf_pieces]

/-- A pass takes away the line ends that its edits take away. -/
theorem Pass.count_lineEnds {State : Type} {B : Scanner State} {At out : List Piece → List Piece → Prop}
    {front : List Piece → List Piece} (hB : B.Delimits At front) {lost : List Char → Nat}
    (hlost : ∀ {m m' c}, At m c → out m m' → (∀ x ∈ m, x.Valid) →
      (textOf m).count '\n' = (textOf m').count '\n' + lost (textOf m))
    {ts ts' : List Lexeme} {n : Nat} (h : Pass At (EditOf At out) ts ts' n) (hdiv : Divided (ts.map Lexeme.piece)) :
    (lexedText ts).count '\n' =
      (lexedText ts').count '\n' + ((stretches B ts).map fun xs => lost (textOf (front xs))).sum := by
  induction h with
  | nil => rfl
  | @keep x r r' n hnot _ ih =>
    have hrest := ih hdiv.tail
    rw [stretches_keep hB.toFinds hdiv hnot]
    rw [← List.singleton_append, ← List.singleton_append (l := r'), lexedText_append, lexedText_append, List.count_append,
      List.count_append]
    omega
  | @skip x m r r' c r₀ n hat hr hx _ ih =>
    rw [List.map_append] at hdiv
    have hrest := ih (divided_append.mp hdiv).2.1
    rw [stretches_hit hB hat hr, if_neg hx, List.nil_append, lexedText_append, lexedText_append, List.count_append,
      List.count_append]
    omega
  | @change x m m' r r' c r₀ n hat hr hx he _ ih =>
    rw [List.map_append] at hdiv
    obtain ⟨hm, hrest, _⟩ := divided_append.mp hdiv
    have hrest := ih hrest
    obtain ⟨ps, ps', c', r₁, hat', hout, hps, rfl, _⟩ := he
    have hpieces : (x :: m).map Lexeme.piece = ps := by rw [hps]; exact map_piece_mk ps .code
    have hcost := hlost hat' hout (hpieces ▸ hm.valid)
    have hold : lexedText (x :: m) = textOf ps := by rw [lexedText, hpieces]
    rw [stretches_hit hB hat hr, if_pos hx, List.singleton_append, List.map_cons, List.sum_cons, hB.front_eq hat, hpieces,
      lexedText_append, lexedText_append, lexedText_inCode, hold, List.count_append, List.count_append]
    omega

/-- The conformances of a declaration: what stands behind its colon and the blanks that follow. -/
def conformancesOf (declaration : List Char) : List Char :=
  ((declaration.dropWhile (· != ':')).drop 1).dropWhile isBlank

/-- The line ends of a construct that its rewrite takes away. -/
def Target.lineEnds : Target → List Char → Nat
  | .keyword _, m => m.count '\n'
  | .conformance, m => (conformancesOf m).count '\n'
  | .member _, _ => 0

theorem IsItem.not_blank {xs : List Piece} (h : IsItem xs) (hv : ∀ x ∈ xs, x.Valid) :
    ∀ c ∈ textOf xs, isBlank c = false := by
  obtain ⟨w, rest, rfl, _, hrest⟩ := h
  refine not_blank_of_kind hv ?_
  intro x hx
  rcases List.mem_cons.mp hx with rfl | hx
  · simp
  · obtain rfl | ⟨v, rfl⟩ := hrest x hx <;> simp

theorem IsItem.count_lineEnds {xs : List Piece} (h : IsItem xs) (hv : ∀ x ∈ xs, x.Valid) : (textOf xs).count '\n' = 0 := by
  apply List.count_eq_zero.mpr
  intro hline
  have hblank := h.not_blank hv _ hline
  exact absurd hblank (by decide)

theorem count_entries_joined (es : List Entry) (hv : ∀ x ∈ es.flatMap Entry.pieces, x.Valid) :
    (textOf ((es.map Entry.joined).flatMap Entry.pieces)).count '\n' = 0 := by
  induction es with
  | nil => rfl
  | cons e es ih =>
    have hitem : ∀ x ∈ e.item, x.Valid := fun x hx => hv x (by simp [Entry.pieces, hx])
    have hrest := ih fun x hx => hv x (List.mem_append_right _ hx)
    have hjoined : textOf e.joined.pieces = ' ' :: '&' :: ' ' :: textOf e.item := rfl
    rw [List.map_cons, List.flatMap_cons, textOf_append, List.count_append, hrest, hjoined]
    simpa using e.item_ok.count_lineEnds hitem

namespace CommaList

/-- What follows the head of a declaration. -/
def list (l : CommaList) : List Piece := l.item ++ l.entries.flatMap Entry.pieces

theorem pieces_eq (l : CommaList) : l.pieces = l.head.pieces ++ l.list := List.append_assoc _ _ _

theorem count_joined (l : CommaList) (hv : ∀ x ∈ l.pieces, x.Valid) :
    (textOf l.pieces).count '\n' = (textOf l.joined).count '\n' + (textOf l.list).count '\n' := by
  have hitem := l.item_ok.count_lineEnds fun x hx => hv x (by simp [pieces, hx])
  have hentries := count_entries_joined l.entries fun x hx => hv x (List.mem_append_right _ hx)
  rw [l.pieces_eq, joined, textOf_append, textOf_append, textOf_append, List.count_append, List.count_append,
    List.count_append, hitem, hentries, Nat.add_zero]

/-- The pieces of a declaration in front of the colon of its head. -/
theorem head_split (l : CommaList) : ∃ xs, l.head.pieces = xs ++ .symbol ':' :: l.head.after ∧
    ∀ x ∈ xs, x.kind ≠ .symbol := by
  refine ⟨.word l.head.opener :: .blank l.head.gap :: l.head.middle ++ .word l.head.name :: l.head.before,
    by simp [DeclarationHead.pieces, DeclarationHead.rest], ?_⟩
  have hmiddle : ∀ x ∈ l.head.middle, x.kind ≠ .symbol := by
    obtain hm | ⟨b, hm⟩ := l.head.middle_ok <;> simp [hm]
  have hbefore : ∀ x ∈ l.head.before, x.kind ≠ .symbol := by
    obtain hg | ⟨b, hg⟩ := l.head.before_gap <;> simp [hg]
  simp only [List.cons_append, List.forall_mem_cons, List.forall_mem_append]
  exact ⟨by simp, by simp, hmiddle, by simp, hbefore⟩

theorem conformancesOf_eq (l : CommaList) (hv : ∀ x ∈ l.pieces, x.Valid) :
    conformancesOf (textOf l.pieces) = textOf l.list := by
  obtain ⟨xs, hhead, hkind⟩ := l.head_split
  rw [l.pieces_eq, hhead] at hv ⊢
  have hcolon : ∀ c ∈ textOf xs, (c != ':') = true := by
    intro c hc
    obtain ⟨x, hx, hcx⟩ := List.mem_flatMap.mp hc
    have hvalid := hv x (by simp [hx])
    have hnot : isWord ':' = false ∧ isBlank ':' = false := by decide
    rw [bne_iff_ne]
    rintro rfl
    cases x with
    | word w => simp [hvalid.2 _ hcx] at hnot
    | blank b => simp [hvalid.2 _ hcx] at hnot
    | symbol d => exact hkind _ hx rfl
  have hgap : ∀ c ∈ textOf l.head.after, isBlank c = true := by
    obtain hg | ⟨b, hg⟩ := l.head.after_gap
    · simp [hg]
    · have hvalid := hv (.blank b) (by simp [hg])
      simpa [hg, Piece.text] using hvalid.2
  have hstop : (textOf l.list).dropWhile isBlank = textOf l.list := by
    obtain ⟨w, rest, hitem, _, _⟩ := l.item_ok
    have hvalid := hv (.word w) (by simp [list, hitem])
    obtain ⟨c, v, rfl⟩ := List.exists_cons_of_ne_nil hvalid.1
    have hc := isBlank_of_isWord (hvalid.2 c (by simp))
    simp [list, hitem, Piece.text, hc]
  have htext : textOf (xs ++ .symbol ':' :: l.head.after ++ l.list) =
      textOf xs ++ ':' :: (textOf l.head.after ++ textOf l.list) := by
    simp [Piece.text]
  rw [conformancesOf, htext, List.dropWhile_append_of_pos hcolon, List.dropWhile_cons_of_neg (by simp), List.drop_one,
    List.tail_cons, List.dropWhile_append_of_pos hgap, hstop]

end CommaList

theorem Target.count_out {t : Target} {m m' c : List Piece} (hat : t.At m c) (hout : t.out m m')
    (hv : ∀ x ∈ m, x.Valid) : (textOf m).count '\n' = (textOf m').count '\n' + t.lineEnds (textOf m) := by
  cases t with
  | keyword b =>
    rw [show m' = _ from hout]
    exact (Nat.zero_add _).symm
  | conformance =>
    obtain ⟨l, rfl, rfl⟩ := hout
    rw [l.count_joined hv, Target.lineEnds, l.conformancesOf_eq hv]
  | member a =>
    obtain ⟨w, hw, rfl, _⟩ := hat
    rw [show m' = _ from hout, List.mem_singleton.mp hw]
    cases a <;> decide +kernel

/-- A step takes away the line ends that its constructs lose. -/
theorem Target.count_after (t : Target) (skipLiterals : Bool) (s : List Char) :
    s.count '\n' = ((Step.target t).after skipLiterals s).count '\n' +
      ((t.spellings skipLiterals s).map t.lineEnds).sum := by
  obtain ⟨State, B, front, hB, _⟩ := t.delimits
  obtain ⟨n, hpass⟩ := t.pass_after skipLiterals s
  have hdiv : Divided ((lexemes skipLiterals s).map Lexeme.piece) := by
    rw [lexemes, map_piece_tagged]
    exact divided_pieces s
  have hcount := hpass.count_lineEnds hB Target.count_out hdiv
  rw [lexedText_lexemes, lexedText_lexemes] at hcount
  rw [hcount, spellings, (t.rewrites (ε := Unit)).toReads.texts_matchesOutside hB, List.map_map]
  rfl

theorem Redone.count_lineEnds {R : Reader → List Char → List Char → Prop}
    (hR : ∀ {σ m m'}, R σ m m' → m'.count '\n' = m.count '\n') {σ : Reader} {s s' : List Char} (h : Redone R σ s s') :
    s'.count '\n' = s.count '\n' := by
  induction h with
  | nil => rfl
  | keep c _ ih => rw [List.count_cons, List.count_cons, ih]
  | change hm _ _ ih => rw [List.count_append, List.count_append, hR hm, ih]

theorem getter_count_after (skipLiterals : Bool) (s : List Char) :
    (Step.getter.after skipLiterals s).count '\n' = s.count '\n' := by
  refine Redone.count_lineEnds ?_ (Step.getter.redone_after skipLiterals s)
  rintro σ m m' ⟨rfl, rfl⟩
  decide

theorem Step.count_after_le (st : Step) (skipLiterals : Bool) (s : List Char) :
    (st.after skipLiterals s).count '\n' ≤ s.count '\n' := by
  cases st with
  | target t =>
    have hcount := t.count_after skipLiterals s
    omega
  | getter => exact (getter_count_after skipLiterals s).le

/-- Steps add no line ends. -/
theorem count_afterSteps_le (skipLiterals : Bool) (ss : List Step) (s : List Char) :
    (afterSteps skipLiterals ss s).count '\n' ≤ s.count '\n' := by
  induction ss generalizing s with
  | nil => exact Nat.le_refl _
  | cons st ss ih => exact (ih _).trans (st.count_after_le skipLiterals s)

/-- The line ends that an uplift takes away: those between a keyword and its declaration, and those within a
conformance list. -/
def swallowedLineEnds (skipLiterals : Bool) (s : List Char) : Nat :=
  ((matchesOutside Legacy.pubSetDeclaration s.toArray (skipIndex skipLiterals s)).map fun M =>
      (M.text s.toArray).count '\n').sum +
    ((matchesOutside Legacy.pubDeclaration s.toArray (skipIndex skipLiterals s)).map fun M =>
      (M.text s.toArray).count '\n').sum +
    ((matchesOutside Legacy.conformance s.toArray (skipIndex skipLiterals s)).map fun M =>
      (conformancesOf (M.text s.toArray)).count '\n').sum

theorem swallowedLineEnds_eq (skipLiterals : Bool) (s : List Char) :
    swallowedLineEnds skipLiterals s =
      (((Target.keyword true).spellings skipLiterals s).map (Target.keyword true).lineEnds).sum +
        (((Target.keyword false).spellings skipLiterals s).map (Target.keyword false).lineEnds).sum +
        ((Target.conformance.spellings skipLiterals s).map Target.conformance.lineEnds).sum := by
  rw [Target.spellings, Target.spellings, Target.spellings, List.map_map, List.map_map, List.map_map]
  rfl

theorem afterSteps_cons (skipLiterals : Bool) (st : Step) (ss : List Step) (s : List Char) :
    afterSteps skipLiterals (st :: ss) s = afterSteps skipLiterals ss (st.after skipLiterals s) := rfl

/-- Neither members of an account nor getters lose line ends. -/
theorem count_afterSteps_members (skipLiterals : Bool) {ss : List Step}
    (hss : ∀ st ∈ ss, st = .getter ∨ ∃ m, st = .target (.member m)) (s : List Char) :
    (afterSteps skipLiterals ss s).count '\n' = s.count '\n' := by
  induction ss generalizing s with
  | nil => rfl
  | cons st ss ih =>
    obtain ⟨hst, hrest⟩ := List.forall_mem_cons.mp hss
    rw [afterSteps_cons, ih hrest]
    obtain rfl | ⟨m, rfl⟩ := hst
    · exact getter_count_after skipLiterals s
    · have hcount := (Target.member m).count_after skipLiterals s
      have hnone : (Target.member m).lineEnds = fun _ => 0 := rfl
      rw [hnone] at hcount
      simpa using hcount.symm

theorem count_afterSteps (skipLiterals : Bool) (s : List Char) :
    (afterSteps skipLiterals steps s).count '\n' + swallowedLineEnds skipLiterals s = s.count '\n' := by
  have h₁ := (Target.keyword true).count_after skipLiterals s
  have h₂ := (Target.keyword false).count_after skipLiterals ((Step.target (.keyword true)).after skipLiterals s)
  have h₃ := Target.conformance.count_after skipLiterals
    ((Step.target (.keyword false)).after skipLiterals ((Step.target (.keyword true)).after skipLiterals s))
  rw [Target.spellings_after_keyword (by decide)] at h₂
  rw [Target.spellings_after_keyword (by decide), Target.spellings_after_keyword (by decide)] at h₃
  rw [steps, afterSteps_cons, afterSteps_cons, afterSteps_cons, count_afterSteps_members skipLiterals (by simp),
    swallowedLineEnds_eq]
  omega

end Counting

/-- With the starting rules and any options, an uplift ends and adds no line ends. What it takes away are the line ends
between a keyword and its declaration and those within a conformance list; where there are none of these, the text
keeps its number of lines. -/
theorem uplift_line_ends [CharacterNames] (o : RunOptions) (s : List Char) :
    ∃ u, (RuleSet.mk o Rule.defaults).uplift s = .ok u ∧
      u.text.count '\n' + swallowedLineEnds o.preserves s = s.count '\n' ∧
      ((lines u.text).length = (lines s).length ↔ swallowedLineEnds o.preserves s = 0) := by
  refine ⟨_, uplift_eq o s, ?_⟩
  dsimp only
  have hcount := count_afterSteps o.preserves s
  rw [length_lines, length_lines]
  exact ⟨hcount, by omega⟩

example : swallowedLineEnds true "pub\nresource R:\nA,\nB \x7b\n\x7d".toList = 2 := by decide +kernel

/-- A keyword at the end of a line: its declaration moves up into that line. -/
theorem uplift_joins_lines :
    ∃ u, (RuleSet.mk {} Rule.defaults).uplift "pub\nvar a: Int".toList = .ok u ∧
      u.text = "access(all) var a: Int".toList ∧ u.text.count '\n' ≠ "pub\nvar a: Int".toList.count '\n' := by
  refine ⟨_, uplift_eq {} _, ?_⟩
  decide +kernel

end CadenceUplift
