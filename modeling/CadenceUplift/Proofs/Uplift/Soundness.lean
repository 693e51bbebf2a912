import CadenceUplift.Migration.Migrate
import CadenceUplift.Proofs.Literal.Blanked
import CadenceUplift.Proofs.Uplift.Idempotence
import CadenceUplift.Proofs.Uplift.LiteralsKept

namespace CadenceUplift

open Text Pattern

section Blanked

variable {t : List Char}

/-- No literal is at an offset where blanked text has a word character. -/
theorem not_covered_of_word {i : Nat} {c : Char} (hget : (codeOnly t)[i]? = some c) (hc : isWord c = true) :
    ¬Covered i (literals t) := by
  rintro ⟨l, hl, hstart, hstop⟩
  have hspelled := (lexed_literals t).spelled l hl
  rw [getElem?_codeOnly_literal hl hstart hstop] at hget
  obtain ⟨d, hd, rfl⟩ := Option.map_eq_some_iff.mp hget
  have hblank := blankAt_quiet (fun _ => quiet_of_isWord) (by decide) hspelled hd
  rw [hc] at hblank
  cases hblank

/-- A stretch of blanked text that starts with a word, has no quote, and in which no comment starts is not blanked. -/
theorem not_covered_of_plain {pre m r : List Char} {c : Char} (hcode : codeOnly t = pre ++ (c :: m ++ r))
    (hc : isWord c = true) (hquote : '"' ∉ m)
    (hcomment : ∀ l ∈ literals t, l.kind = .comment → pre.length < l.start → pre.length + (c :: m).length ≤ l.start)
    {i : Nat} (hi : i < (c :: m).length) : ¬Covered (pre.length + i) (literals t) := by
  have hget {j : Nat} (hj : j < (c :: m).length) : (codeOnly t)[pre.length + j]? = (c :: m)[j]? := by
    rw [hcode, List.getElem?_append_right (by omega), Nat.add_sub_cancel_left, List.getElem?_append_left hj]
  have hfirst : ¬Covered pre.length (literals t) := not_covered_of_word (hget (Nat.succ_pos _)) hc
  rintro ⟨l, hl, hstart, hstop⟩
  have hlater : pre.length < l.start := by
    by_contra hle
    exact hfirst ⟨l, hl, by omega, by omega⟩
  by_cases hkind : l.kind = .comment
  · have hle := hcomment l hl hkind hlater
    omega
  · -- A string would show its opening quote, which blanking keeps.
    obtain ⟨n, hn⟩ := Nat.exists_eq_add_of_lt hlater
    have hopen := getElem?_codeOnly_start hl
    rw [if_neg hkind, hn, Nat.add_assoc, hget (by omega), List.getElem?_cons_succ] at hopen
    exact hquote (List.mem_of_getElem? hopen)

/-- A text in which a stretch stands at an offset. -/
theorem eq_take_append {s m : List Char} {k : Nat} (h : ∀ i < m.length, s[k + i]? = m[i]?) :
    s = s.take k ++ (m ++ s.drop (k + m.length)) := by
  have hsame : (s.drop k).take m.length = m := by
    apply List.ext_getElem?
    intro i
    by_cases hi : i < m.length
    · rw [List.getElem?_take_of_lt hi, List.getElem?_drop, h i hi]
    · rw [List.getElem?_eq_none (by simp; omega), List.getElem?_eq_none (by omega)]
  calc
    s = s.take k ++ s.drop k := (List.take_append_drop k s).symm
    _ = s.take k ++ ((s.drop k).take m.length ++ (s.drop k).drop m.length) := by
      rw [List.take_append_drop m.length]
    _ = s.take k ++ (m ++ s.drop (k + m.length)) := by rw [hsame, List.drop_drop]

theorem endsWord_take_succ {s : List Char} {k : Nat} (hk : k < s.length) :
    endsWord (s.take (k + 1)) = s[k]?.any isWord := by
  rw [endsWord, List.getLast?_eq_getElem?, List.length_take, Nat.min_eq_left (by omega), Nat.add_sub_cancel,
    List.getElem?_take_of_lt (by omega)]

/-- In front of a word that is not blanked, blanking does not hide a word character. -/
theorem endsWord_take {k : Nat} {c : Char} (hget : (codeOnly t)[k]? = some c) (hc : isWord c = true)
    (h : endsWord ((codeOnly t).take k) = false) : endsWord (t.take k) = false := by
  cases k with
  | zero => rfl
  | succ k =>
    have hfree := not_covered_of_word hget hc
    have hcode : t[k + 1]? = some c := by rw [← getElem?_codeOnly hfree, hget]
    rw [endsWord_take_succ (Nat.lt_of_succ_lt (List.getElem?_eq_some_iff.mp hget).1)] at h
    rw [endsWord_take_succ (Nat.lt_of_succ_lt (List.getElem?_eq_some_iff.mp hcode).1)]
    by_cases hcov : Covered k (literals t)
    · -- A literal that ends right here ends in a slash or a quote, or in front of a newline.
      obtain ⟨l, hl, hstart, hstop⟩ := hcov
      have hend : l.stop = k + 1 := by
        by_contra hne
        exact hfree ⟨l, hl, by omega, by omega⟩
      obtain hline | hlength | ⟨j, hj, hmark⟩ := ((lexed_literals t).spelled l hl).stop
      · rw [hend, hcode, Option.some.injEq] at hline
        rw [hline] at hc
        exact absurd hc (by decide)
      · rw [List.getElem?_eq_none (by omega)] at hcode
        cases hcode
      · obtain rfl : j = k := by omega
        rcases hmark with hmark | hmark <;> rw [hmark] <;> decide
    · rwa [getElem?_codeOnly hcov] at h

/-- The kind of the first piece of a text is that of its first character. -/
theorem kind_head_pieces {c : Char} {s : List Char} : ∀ y ∈ (pieces (c :: s)).head?, y.kind = (Piece.single c).kind := by
  intro y hy
  rw [pieces_cons] at hy
  obtain ⟨hp, _⟩ | ⟨w, r, _, hc, hp⟩ | ⟨b, r, _, hc, hp⟩ := push_cases c (pieces s)
  · rw [hp, List.head?_cons, Option.mem_some_iff] at hy
    rw [← hy]
  · rw [hp, List.head?_cons, Option.mem_some_iff] at hy
    rw [← hy, (Piece.kind_single c).1.mpr hc]
    rfl
  · rw [hp, List.head?_cons, Option.mem_some_iff] at hy
    rw [← hy, (Piece.kind_single c).2.mpr hc]
    rfl

/-- Behind a stretch that is not blanked, a piece that is apart from it in blanked text is apart from it in the text. -/
theorem apart_behind {e : Nat} {x : Piece} {r : List Piece} (hcode : (codeOnly t).drop e = textOf r) (hdiv : Divided r)
    (hapart : ∀ y ∈ r.head?, x.Apart y) (hbefore : ∀ l ∈ literals t, l.start ≤ e → e < l.stop → l.start = e) :
    ∀ y ∈ (pieces (t.drop e)).head?, x.Apart y := by
  intro y hy
  cases hd : t.drop e with
  | nil => simp [hd] at hy
  | cons d v =>
    obtain ⟨hget, _, hlt⟩ := drop_eq_cons hd
    rw [hd] at hy
    have hkind := kind_head_pieces y hy
    by_cases hcov : Covered e (literals t)
    · obtain ⟨l, hl, hstart, hstop⟩ := hcov
      have hopens := ((lexed_literals t).spelled l hl).opensAt
      rw [hbefore l hl hstart hstop] at hopens
      have hsymbol : y.kind = .symbol := by
        rcases hopens with hquote | ⟨hslash, _⟩
        · rw [hget] at hquote
          rw [hkind, Option.some.inj hquote]
          decide
        · rw [hget] at hslash
          rw [hkind, Option.some.inj hslash]
          decide
      exact fun hxy => hxy.trans hsymbol
    · have hsame : (textOf r)[0]? = some d := by
        rw [← hcode, List.getElem?_drop, Nat.add_zero, getElem?_codeOnly hcov, hget]
      obtain ⟨v', hv'⟩ : ∃ v', textOf r = d :: v' := by
        cases htext : textOf r with
        | nil => simp [htext] at hsame
        | cons d' v' =>
          rw [htext] at hsame
          obtain rfl : d' = d := Option.some.inj hsame
          exact ⟨v', rfl⟩
      obtain ⟨z, r', rfl⟩ : ∃ z r', r = z :: r' := by
        cases r with
        | nil => cases hv'
        | cons z r' => exact ⟨z, r', rfl⟩
      have hz : z.kind = (Piece.single d).kind := by
        refine kind_head_pieces (s := v') z ?_
        rw [← hv', pieces_textOf hdiv]
        rfl
      intro hxy
      exact hapart z rfl (by rw [hxy, hkind, hz])

theorem opens_not_mem_of_plain {xs : List Piece} (hplain : ∀ x ∈ xs, Plain x) (hvalid : ∀ x ∈ xs, x.Valid) :
    ∀ c ∈ textOf xs, c ≠ '/' ∧ c ≠ '"' := by
  intro c hc
  obtain ⟨x, hx, hcx⟩ := List.mem_flatMap.mp hc
  have hnext := next_plain (σ := .code) rfl (hplain x hx) (hvalid x hx) c hcx
  constructor
  · rintro rfl
    exact absurd hnext (by decide)
  · rintro rfl
    exact absurd hnext (by decide)

/-- Pieces of blanked text in which no comment starts stand in code in the text itself. -/
theorem pieces_of_codeOnly {pre u : List Char} (hcode : codeOnly t = pre ++ u) {w : List Char} {x r : List Piece}
    (hx : pieces u = .word w :: x ++ r) (hplain : ∀ y ∈ .word w :: x, Plain y) (hpre : endsWord pre = false)
    (hcomment : ∀ l ∈ literals t, l.kind = .comment → pre.length < l.start →
      pre.length + (textOf (.word w :: x)).length ≤ l.start) :
    ∃ ys r', pieces t = ys ++ (.word w :: x ++ r') ∧ (Reader.code.after (textOf ys)).inCode = true := by
  obtain ⟨rfl, hdiv⟩ := pieces_eq_iff.mp hx
  obtain ⟨hdivx, hdivr, hapart⟩ := divided_append.mp hdiv
  obtain ⟨c, v, rfl⟩ := List.exists_cons_of_ne_nil (hdivx.valid (.word w) List.mem_cons_self).1
  have hc : isWord c = true := (hdivx.valid (.word (c :: v)) List.mem_cons_self).2 c List.mem_cons_self
  have hquote : '"' ∉ v ++ textOf x := fun hmem =>
    (opens_not_mem_of_plain hplain hdivx.valid '"' (List.mem_cons_of_mem _ hmem)).2 rfl
  generalize hxs : Piece.word (c :: v) :: x = xs at *
  have htext : textOf xs = c :: (v ++ textOf x) := by rw [← hxs]; rfl
  rw [textOf_append] at hcode
  rw [htext] at hcomment
  have hfree {i : Nat} (hi : i < (textOf xs).length) : ¬Covered (pre.length + i) (literals t) := by
    rw [htext] at hcode hi
    exact not_covered_of_plain hcode hc hquote hcomment hi
  have hget {i : Nat} (hi : i < (textOf xs).length) : t[pre.length + i]? = (textOf xs)[i]? := by
    rw [← getElem?_codeOnly (hfree hi), hcode, List.getElem?_append_right (by omega), Nat.add_sub_cancel_left,
      List.getElem?_append_left hi]
  have hpos : 0 < (textOf xs).length := by simp [htext]
  have hsplit := eq_take_append fun i hi => hget (i := i) hi
  have hends : endsWord (t.take pre.length) = false := by
    have hfirst : (codeOnly t)[pre.length]? = some c := by
      rw [getElem?_codeOnly (i := pre.length) (hfree hpos)]
      exact (hget hpos).trans (by rw [htext]; rfl)
    exact endsWord_take hfirst hc (by rwa [hcode, List.take_left])
  have hrest : pieces (textOf xs ++ t.drop (pre.length + (textOf xs).length)) =
      xs ++ pieces (t.drop (pre.length + (textOf xs).length)) := by
    have hbehind : (codeOnly t).drop (pre.length + (textOf xs).length) = textOf r := by
      rw [hcode, ← List.append_assoc, ← List.length_append, List.drop_left]
    refine pieces_textOf_append hdivx fun y hy => apart_behind hbehind hdivr (hapart y hy) ?_
    intro l hl hstart hstop
    by_contra hne
    have hlast := hfree (i := (textOf xs).length - 1) (by omega)
    exact hlast ⟨l, hl, by omega, by omega⟩
  refine ⟨pieces (t.take pre.length), pieces (t.drop (pre.length + (textOf xs).length)), ?_, ?_⟩
  · conv => lhs; rw [hsplit]
    rw [pieces_append hends (by simp [htext, startsWord, hc]), hrest]
  · have hlt : pre.length < t.length := (List.getElem?_eq_some_iff.mp ((hget hpos).trans (List.getElem?_eq_getElem hpos))).1
    have hlength : (t.take pre.length).length = pre.length := List.length_take_of_le (by omega)
    rw [htext] at hsplit
    rw [textOf_pieces]
    by_contra hout
    refine hfree hpos ?_
    rw [Nat.add_zero, ← hlength]
    exact (covered_literals hsplit (quiet_of_isWord hc)).mpr (by simpa using hout)

end Blanked

section Hits

variable {State : Type} {B : Scanner State} {At : List Piece → List Piece → Prop}

theorem not_inCode_of_hits (hB : B.Finds At) {σ : Reader} {ys m c r : List Piece} (hat : At m c)
    (h : hits B Lexeme.piece (tagged σ (ys ++ (m ++ (c ++ r)))) = 0) : (σ.after (textOf ys)).inCode = false := by
  obtain ⟨Y, _, htag⟩ := tagged_append σ ys (m ++ (c ++ r))
  have hle := hits_le_append (B := B) Lexeme.piece Y (tagged (σ.after (textOf ys)) (m ++ (c ++ r)))
  rw [← htag _ (.refl _), h, hits_hit hB hat] at hle
  by_contra hin
  rw [if_pos (by simpa using hin)] at hle
  omega

/-- Where an uplift finds none of a construct, it stands in no code. -/
theorem Target.not_inCode {u : Target} {s : List Char} (hload : (Step.target u).load true s = 0) {ys m c r : List Piece}
    (hs : pieces s = ys ++ (m ++ (c ++ r))) (hat : u.At m c) : (Reader.code.after (textOf ys)).inCode = false := by
  rw [Target.load_eq_hits, lexemes, hs] at hload
  cases u with
  | keyword b => exact not_inCode_of_hits (keyword_finds b) hat hload
  | conformance => exact not_inCode_of_hits conformance_finds hat hload
  | member m => exact not_inCode_of_hits (member_finds (account_not_name m) m.isCall) hat hload

end Hits

section Outdated

/-- What a pattern for an outdated construct reads: a construct that is rewritten, and at its end something that is no
blank. For a call that is the bracket, with blanks between it and what is taken of the construct. -/
structure ReadsTarget (At : List Piece → List Piece → Prop) (call : Bool) : Prop where
  target : ∀ {m c}, At m c → ∃ (u : Target) (m' c' : List Piece), u.At m' c' ∧ m ++ c = m' ++ c'
  last : ∀ {m c}, At m c → ∃ x z, m ++ c = x ++ [z] ∧ z.kind ≠ .blank ∧
    (x <+: m ∨ call = true ∧ ∃ g, IsGap g ∧ x = m ++ g)

theorem keyword_readsTarget (b : Bool) : ReadsTarget (KeywordAt b) false where
  target h := ⟨.keyword b, _, _, h, rfl⟩
  last := by
    rintro m c ⟨g, kw, rfl, _, rfl⟩
    exact ⟨_, _, rfl, by simp, .inl (List.prefix_refl _)⟩

theorem body_readsTarget : ReadsTarget BodyAt false where
  target := by
    rintro m c ⟨l, b, hb, rfl, rfl⟩
    exact ⟨.conformance, l.pieces, b, ⟨l, rfl, hb⟩, by simp⟩
  last := by
    rintro m c ⟨l, b, ⟨g, _, rfl⟩, rfl, rfl⟩
    exact ⟨l.pieces ++ g, .symbol '\x7b', by simp, by decide, .inl ⟨_, List.append_assoc _ _ _⟩⟩

theorem member_readsTarget {names : List (List Char)} {call : Bool}
    (h : ∀ w ∈ names, ∃ a : AccountMember, a.name = w ∧ a.isCall = call) : ReadsTarget (MemberAt names call) call where
  target := by
    rintro m c ⟨w, hw, rfl, hc⟩
    obtain ⟨a, rfl, rfl⟩ := h w hw
    exact ⟨.member a, _, _, ⟨_, List.mem_singleton.mpr rfl, rfl, hc⟩, rfl⟩
  last := by
    rintro m c ⟨w, _, rfl, hc⟩
    cases call with
    | false =>
      obtain rfl : c = [] := by simpa using hc
      exact ⟨[.word Word.account, .symbol '.'], .word w, rfl, by simp, .inl ⟨[.word w], rfl⟩⟩
    | true =>
      obtain ⟨g, d, hg, _, rfl⟩ := hc
      exact ⟨_, _, (List.append_assoc _ g [.symbol d]).symm, by simp, .inr ⟨rfl, g, hg, rfl⟩⟩

theorem storage_reads :
    Reads (Legacy.storageCallAmong ["save", "load", "borrow", "copy"])
      (MemberAt (["save", "load", "borrow", "copy"].map String.toList) true) := by
  have hlanguage : ∀ u, u ∈ (all [Legacy.wordsOf ["save", "load", "borrow", "copy"]]).language ↔
      u ∈ ["save", "load", "borrow", "copy"].map String.toList := by
    intro u
    rw [mem_language_all_singleton, mem_language_wordsOf (by simp), List.mem_map]
    simp only [eq_comm]
  have hreads : Reads (memberPattern [Legacy.wordsOf ["save", "load", "borrow", "copy"]] true) _ :=
    member_reads (by decide) hlanguage (by decide) (by decide) (by decide)
  exact hreads

theorem storage_readsTarget :
    ReadsTarget (MemberAt (["save", "load", "borrow", "copy"].map String.toList) true) true := by
  refine member_readsTarget ?_
  intro w hw
  simp only [List.map_cons, List.map_nil, List.mem_cons, List.not_mem_nil, or_false] at hw
  rcases hw with rfl | rfl | rfl | rfl
  · exact ⟨.save, by decide, rfl⟩
  · exact ⟨.load, by decide, rfl⟩
  · exact ⟨.borrow, by decide, rfl⟩
  · exact ⟨.copy, by decide, rfl⟩

/-- Each outdated construct is one that an uplift rewrites, and of them the storage calls have a bracket ahead. -/
theorem outdated_reads : ∀ p ∈ Legacy.outdated, ∃ At call, Reads p At ∧ ReadsTarget At call ∧
    (call = true → p = Legacy.storageCallAmong ["save", "load", "borrow", "copy"]) := by
  intro p hp
  simp only [Legacy.outdated, List.mem_cons, List.not_mem_nil, or_false] at hp
  rcases hp with rfl | rfl | rfl | rfl | rfl
  · exact ⟨_, _, keyword_reads false, keyword_readsTarget false, by simp⟩
  · exact ⟨_, _, keyword_reads true, keyword_readsTarget true, by simp⟩
  · exact ⟨_, _, body_reads, body_readsTarget, by simp⟩
  · exact ⟨_, _, storage_reads, storage_readsTarget, fun _ => rfl⟩
  · refine ⟨_, false, (Target.rewrites (ε := Unit) (.member .getCapability)).toReads, member_readsTarget ?_, by simp⟩
    intro w hw
    exact ⟨.getCapability, (List.mem_singleton.mp hw).symm, rfl⟩

end Outdated

/-- Where a construct ends that a pattern matches in blanked text: with its match, and a storage call at the bracket
behind it. -/
def constructEnd (p : Pattern) (t : List Char) (M : Match) : Nat :=
  if p = Legacy.storageCallAmong ["save", "load", "borrow", "copy"] then
    M.stop + (((codeOnly t).drop M.stop).takeWhile isBlank).length
  else M.stop

/-- A comment stands within a construct that a pattern matches in blanked text. -/
def Interrupted (p : Pattern) (t : List Char) (M : Match) : Prop :=
  ∃ l ∈ literals t, l.kind = .comment ∧ M.start < l.start ∧ l.stop ≤ constructEnd p t M

section Remains

variable {t pre r : List Char} {l : Literal}

theorem blank_of_comment (hl : l ∈ literals t) (hkind : l.kind = .comment) {i : Nat} (hstart : l.start ≤ i)
    (hstop : i < l.stop) {c : Char} (hc : (codeOnly t)[i]? = some c) : isBlank c = true := by
  rw [getElem?_codeOnly_literal hl hstart hstop] at hc
  obtain ⟨d, _, rfl⟩ := Option.map_eq_some_iff.mp hc
  unfold Literal.blankAt
  rw [hkind]
  split
  next hnewline =>
    rw [hnewline]
    decide
  next => exact (by decide : isBlank ' ' = true)

/-- A comment that starts in front of the end of something that is no blank stands in front of it. -/
theorem stop_le_of_comment {x : List Piece} {z : Piece} (hcode : codeOnly t = pre ++ (textOf (x ++ [z]) ++ r))
    (hz : z.kind ≠ .blank) (hvalid : z.Valid) (hl : l ∈ literals t) (hkind : l.kind = .comment)
    (hlt : l.start < pre.length + (textOf (x ++ [z])).length) : l.stop ≤ pre.length + (textOf x).length := by
  have hnone : ∀ c ∈ z.text, isBlank c = false := by
    intro c hc
    exact not_blank_of_kind (d := [z]) (by simpa using hvalid) (by simpa using hz) c (by simpa using hc)
  have hpos := List.length_pos_iff.mpr hvalid.text_ne_nil
  have htext : textOf (x ++ [z]) = textOf x ++ z.text := by simp
  have hbounded := (lexed_literals t).bounded l hl
  rw [htext, List.length_append] at hlt
  rw [htext, List.append_assoc, ← List.append_assoc] at hcode
  by_contra hgt
  obtain ⟨n, hn⟩ : ∃ n, max l.start (pre.length + (textOf x).length) = (pre ++ textOf x).length + n :=
    Nat.exists_eq_add_of_le (by rw [List.length_append]; exact Nat.le_max_right _ _)
  have hinside : n < z.text.length := by
    rw [List.length_append] at hn
    omega
  have hget : (codeOnly t)[max l.start (pre.length + (textOf x).length)]? = some z.text[n] := by
    rw [hcode, hn, List.getElem?_append_right (Nat.le_add_right _ _), Nat.add_sub_cancel_left,
      List.getElem?_append_left hinside, List.getElem?_eq_getElem hinside]
  have hblank := blank_of_comment hl hkind (Nat.le_max_left _ _) (by omega) hget
  rw [hnone _ (List.getElem_mem hinside)] at hblank
  cases hblank

/-- A comment that starts in blanked text where a construct is read interrupts it. -/
theorem interrupted_of_start {At : List Piece → List Piece → Prop} {call : Bool} {p : Pattern} (hT : ReadsTarget At call)
    (hcall : call = true → p = Legacy.storageCallAmong ["save", "load", "borrow", "copy"]) {m c : List Piece}
    (hat : At m c) (hvalid : ∀ x ∈ m ++ c, x.Valid) (hcode : codeOnly t = pre ++ (textOf (m ++ c) ++ r)) {M : Match}
    (hstart : M.start = pre.length) (hstop : M.stop = pre.length + (textOf m).length) (hl : l ∈ literals t)
    (hkind : l.kind = .comment) (hk : pre.length < l.start)
    (hlt : l.start < pre.length + (textOf (m ++ c)).length) : Interrupted p t M := by
  obtain ⟨x, z, hxz, hz, hends⟩ := hT.last hat
  have hcomment : l.stop ≤ pre.length + (textOf x).length :=
    stop_le_of_comment (hxz ▸ hcode) hz (hvalid z (by simp [hxz])) hl hkind (hxz ▸ hlt)
  refine ⟨l, hl, hkind, by omega, hcomment.trans ?_⟩
  unfold constructEnd
  rcases hends with ⟨m₂, rfl⟩ | ⟨htrue, g, hg, rfl⟩
  · rw [textOf_append, List.length_append] at hstop
    split <;> omega
  · rw [if_pos (hcall htrue), textOf_append, List.length_append, hstop]
    have hgap : ∀ c ∈ textOf g, isBlank c = true :=
      hg.blank fun y hy => hvalid y (by rw [hxz]; simp [hy])
    have hdrop : (codeOnly t).drop (pre.length + (textOf m).length) = textOf g ++ (z.text ++ r) := by
      have htext : textOf (m ++ g ++ [z]) = textOf m ++ (textOf g ++ z.text) := by simp
      rw [hcode, hxz, htext, List.append_assoc, List.append_assoc, ← List.append_assoc pre, ← List.length_append,
        List.drop_left]
    rw [hdrop, List.takeWhile_append_of_pos hgap, List.length_append]
    omega

/-- Where an uplift finds nothing more, every outdated construct of the blanked text is interrupted. -/
theorem interrupted_of_settled (hsettled : ∀ u : Target, (Step.target u).load true t = 0) {p : Pattern}
    (hp : p ∈ Legacy.outdated) {M : Match} (hM : M ∈ p.allMatches (codeOnly t).toArray) : Interrupted p t M := by
  obtain ⟨At, call, hR, hT, hcall⟩ := outdated_reads p hp
  obtain ⟨hsize, hmatch⟩ := matchAt_of_mem_allMatches hR.regular hR.advances hM
  have hlength : ((codeOnly t).take M.start).length = M.start := by
    rw [List.length_take]
    exact Nat.min_eq_left (by simpa using hsize)
  have hsplit : codeOnly t = (codeOnly t).take M.start ++ (codeOnly t).drop M.start := (List.take_append_drop _ _).symm
  generalize (codeOnly t).take M.start = pre at hlength hsplit
  generalize (codeOnly t).drop M.start = u at hsplit
  rw [hsplit, ← hlength] at hmatch
  obtain ⟨hends, m, c, r, hu, hat, hstop⟩ := hR.sound hmatch
  obtain ⟨target, m', c', hat', hsame⟩ := hT.target hat
  have hvalid : ∀ x ∈ m ++ c, x.Valid := by
    intro x hx
    refine (divided_pieces u).valid x ?_
    rw [hu, ← List.append_assoc]
    exact List.mem_append_left _ hx
  rw [← List.append_assoc] at hu
  have hcode : codeOnly t = pre ++ (textOf (m ++ c) ++ textOf r) := by
    rw [hsplit, ← textOf_append, ← hu, textOf_pieces]
  by_contra hnot
  have hcomment : ∀ l ∈ literals t, l.kind = .comment → pre.length < l.start →
      pre.length + (textOf (m ++ c)).length ≤ l.start := by
    intro l hl hkind hk
    by_contra hlt
    exact hnot (interrupted_of_start hT hcall hat hvalid hcode hlength.symm hstop hl hkind hk (by omega))
  obtain ⟨w, m₀, rfl⟩ := hR.opens hat
  have hplain : ∀ y ∈ .word w :: m₀ ++ c, Plain y := by
    rw [hsame]
    exact Target.at_plain hat'
  obtain ⟨ys, r', hpieces, hin⟩ := pieces_of_codeOnly hsplit hu hplain hends hcomment
  have hraw : pieces t = ys ++ (m' ++ (c' ++ r')) := by
    rw [hpieces, ← List.append_assoc m', ← hsame]
    rfl
  have hliteral := Target.not_inCode (hsettled target) hraw hat'
  rw [hin] at hliteral
  cases hliteral

end Remains

theorem exists_mem_allMatches {p : Pattern} {s : List Char} (h : p.occursIn s = true) :
    ∃ M, M ∈ p.allMatches s.toArray := by
  obtain ⟨M, hM⟩ := Option.isSome_iff_exists.mp h
  have hfind : p.find? s.toArray 0 true = some M := hM
  refine ⟨M, ?_⟩
  rw [allMatches, matchesFrom, hfind]
  exact List.mem_cons_self

/-- With the starting rules and literals left alone, an uplift ends, and whatever still needs migration in its text is
a construct with a comment within it. A text without comments needs no migration after an uplift. -/
theorem uplift_leaves_interrupted [CharacterNames] (o : RunOptions) (ho : o.preserves = true) (s : List Char) :
    ∃ u, (RuleSet.mk o Rule.defaults).uplift s = .ok u ∧
      (∀ p ∈ Legacy.outdated, ∀ M ∈ p.allMatches (codeOnly u.text).toArray, Interrupted p u.text M) ∧
      ((∀ l ∈ literals s, l.kind ≠ .comment) → isLegacy (codeOnly u.text) = false) := by
  refine ⟨_, uplift_eq o s, ?_⟩
  dsimp only
  rw [ho]
  have hsettled : ∀ u : Target, (Step.target u).load true (afterSteps true steps s) = 0 := by
    intro u
    have hmem : Step.target u ∈ steps := by
      cases u with
      | keyword b => cases b <;> decide
      | conformance => decide
      | member m => cases m <;> decide
    exact afterSteps_settled steps_pairwise true s _ hmem
  have hremains : ∀ p ∈ Legacy.outdated, ∀ M ∈ p.allMatches (codeOnly (afterSteps true steps s)).toArray,
      Interrupted p (afterSteps true steps s) M := fun p hp M hM => interrupted_of_settled hsettled hp hM
  refine ⟨hremains, ?_⟩
  intro hnone
  rw [isLegacy, List.any_eq_false]
  intro p hp hoccurs
  obtain ⟨M, hM⟩ := exists_mem_allMatches hoccurs
  obtain ⟨l, hl, hkind, _⟩ := hremains p hp M hM
  have hkinds : l.kind ∈ (literals s).map Literal.kind := by
    rw [← kinds_afterSteps steps s]
    exact List.mem_map_of_mem hl
  obtain ⟨l', hl', hsame⟩ := List.mem_map.mp hkinds
  exact hnone l' hl' (hsame.trans hkind)

theorem uplift_leaves_interrupted_literals :
    ({} : RunOptions).preserves = true ∧
      ∃ u, (RuleSet.mk {} Rule.defaults).uplift "pub var a = \"// b\"".toList = .ok u ∧
        (∀ p ∈ Legacy.outdated, ∀ M ∈ p.allMatches (codeOnly u.text).toArray, Interrupted p u.text M) ∧
        ((∀ l ∈ literals "pub var a = \"// b\"".toList, l.kind ≠ .comment) → isLegacy (codeOnly u.text) = false) :=
  ⟨rfl, uplift_leaves_interrupted {} rfl _⟩

/-- A comment behind the keyword keeps an uplift from changing it, and does not keep the text from needing one. -/
theorem uplift_leaves_pub_before_comment :
    ∃ u, (RuleSet.mk {} Rule.defaults).uplift "pub /* x */ var a: Int".toList = .ok u ∧
      u.text = "pub /* x */ var a: Int".toList ∧ isLegacy (codeOnly u.text) = true := by
  have hsettled : ∀ st ∈ steps, st.load true "pub /* x */ var a: Int".toList = 0 := by decide +kernel
  exact ⟨_, uplift_settled (o := {}) hsettled, rfl, by decide +kernel⟩

end CadenceUplift
