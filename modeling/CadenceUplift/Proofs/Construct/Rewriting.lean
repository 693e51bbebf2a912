import CadenceUplift.Proofs.Construct.Edits
import CadenceUplift.Proofs.Matching.Getter
import CadenceUplift.Proofs.Matching.Keyword
import CadenceUplift.Proofs.Matching.Member
import CadenceUplift.Proofs.Matching.Separator

namespace CadenceUplift

open Text Pattern

section Plain

variable {ε : Type} {p : Pattern} {f : Match → Array Char → Except ε (List Char)}
  {At out : List Piece → List Piece → Prop}

/-- A construct of plain pieces that gives way to plain pieces. -/
theorem Rewrites.of_plain (hR : Reads p At)
    (hwrites : ∀ {pre u : List Char} {M : Match} {m c r : List Piece},
      p.matchAt (pre ++ u).toArray pre.length = some M → pieces u = m ++ (c ++ r) → At m c →
      M.stop = pre.length + (textOf m).length → ∃ m', out m m' ∧ f M (pre ++ u).toArray = .ok (textOf m'))
    (hopens : ∀ {m m' c}, At m c → out m m' → ∃ w m₀, m' = .word w :: m₀)
    (hdivided : ∀ {m m' c}, At m c → out m m' → Divided m → Divided m')
    (hlast : ∀ {m m' c}, At m c → out m m' → m'.getLast?.map Piece.kind = m.getLast?.map Piece.kind)
    (hplain : ∀ {m c}, At m c → ∀ x ∈ m ++ c, Plain x)
    (hplain' : ∀ {m m' c}, At m c → out m m' → ∀ x ∈ m', Plain x) : Rewrites p f At out (EditOf At out) where
  toReads := hR
  writes := hwrites
  out_opens := hopens
  out_divided := hdivided
  out_last := hlast
  edits := by
    intro σ m m' c r r' hσ hat hout hdiv hdiv' _
    obtain ⟨w, m₀, rfl⟩ := hR.opens hat
    obtain ⟨w', m₀', rfl⟩ := hopens hat hout
    have hm : ∀ x ∈ .word w :: m₀, Plain x ∧ x.Valid :=
      fun x hx => ⟨hplain hat x (List.mem_append_left _ hx), hdiv.valid x (List.mem_append_left _ hx)⟩
    have hm' : ∀ x ∈ .word w' :: m₀', Plain x ∧ x.Valid := fun x hx => ⟨hplain' hat hout x hx, hdiv'.valid x hx⟩
    have hc : ∀ x ∈ c, Plain x ∧ x.Valid := fun x hx =>
      ⟨hplain hat x (List.mem_append_right _ hx), hdiv.valid x (by simp [hx])⟩
    have hsettle := after_plains hσ hm (by simp)
    have hσ' : σ.settle.inCode = true := by rw [Reader.inCode_settle, hσ]
    have hrest : ∃ r₀, tagged σ.settle (c ++ r) = inCode c ++ r₀ := by
      by_cases hne : c = []
      · exact ⟨tagged σ.settle r, by rw [hne]; rfl⟩
      · exact ⟨_, tagged_plain hσ' hc hne r⟩
    obtain ⟨r₀, hr₀⟩ := hrest
    refine ⟨⟨.word w, .code⟩, inCode m₀, inCode (.word w' :: m₀'), ?_, ?_, ?_, ?_⟩
    · exact map_inCode (fun _ => rfl) (.word w :: m₀)
    · rw [hsettle, tagged_plain hσ hm (by simp)]
      rfl
    · rw [hsettle, tagged_plain hσ hm' (by simp)]
    · exact ⟨_, _, c, r₀, hat, hout, rfl, rfl, by rw [hsettle, hr₀]⟩

end Plain

theorem plain_word (w : List Char) : Plain (.word w) := by simp [Plain]

theorem plain_blank (b : List Char) : Plain (.blank b) := by simp [Plain]

theorem plain_symbol {c : Char} (h : c ≠ '/' ∧ c ≠ '*' ∧ c ≠ '"') : Plain (.symbol c) := by simpa [Plain] using h

/-- The piece is not a symbol, or one of the given ones. -/
def Text.Piece.Among (cs : List Char) : Piece → Prop
  | .symbol c => c ∈ cs
  | .word _ | .blank _ => True

theorem plain_of_among {cs : List Char} {x : Piece} (h : x.Among cs) (hcs : '/' ∉ cs ∧ '*' ∉ cs ∧ '"' ∉ cs) :
    Plain x := by
  cases x with
  | word w => exact plain_word w
  | blank b => exact plain_blank b
  | symbol c =>
    obtain ⟨hslash, hstar, hquote⟩ := hcs
    exact plain_symbol ⟨ne_of_mem_of_not_mem h hslash, ne_of_mem_of_not_mem h hstar, ne_of_mem_of_not_mem h hquote⟩

theorem Text.IsGap.among {g : List Piece} (h : IsGap g) (cs : List Char) : ∀ x ∈ g, x.Among cs := by
  obtain rfl | ⟨b, rfl⟩ := h <;> simp [Piece.Among]

theorem Text.IsGap.plain {g : List Piece} (h : IsGap g) : ∀ x ∈ g, Plain x := fun x hx =>
  plain_of_among (h.among [] x hx) (by simp)

namespace Target

/-- Where the construct stands. -/
def At : Target → List Piece → List Piece → Prop
  | .keyword b => KeywordAt b
  | .conformance => ConformanceAt
  | .member m => MemberAt [m.name] m.isCall

/-- What the construct becomes. -/
def out : Target → List Piece → List Piece → Prop
  | .keyword _ => fun _ ps' => ps' = accessPieces
  | .conformance => fun ps ps' => ∃ l : CommaList, ps = l.pieces ∧ ps' = l.joined
  | .member m => fun _ ps' => ps' = .word Word.account :: .symbol '.' :: m.path

theorem edit_eq (t : Target) : t.Edit = EditOf t.At t.out := by cases t <;> rfl

/-- The pattern of the construct. -/
def pattern : Target → Pattern
  | .keyword b => keywordPattern b
  | .conformance => Legacy.conformance
  | .member m => memberPattern (m.name.map .char) m.isCall

/-- What a match of the pattern becomes. -/
def write : Target → Match → Array Char → List Char
  | .keyword _ => fun _ _ => textOf accessPieces
  | .conformance => joinConformances
  | .member m => fun _ _ => textOf (.word Word.account :: .symbol '.' :: m.path)

end Target

section Rewrites

variable {ε : Type}

theorem access_divided : Divided accessPieces := by
  have h : pieces (textOf accessPieces) = accessPieces := rfl
  rw [← h]
  exact divided_pieces _

theorem keyword_plain {b : Bool} {m c : List Piece} (h : KeywordAt b m c) : ∀ x ∈ m ++ c, Plain x := by
  obtain ⟨g, kw, rfl, _, rfl⟩ := h
  cases b <;> simp [keywordPieces, Plain]

theorem access_plain : ∀ x ∈ accessPieces, Plain x := by simp [accessPieces, Plain]

theorem keyword_rewrites (b : Bool) :
    Rewrites (ε := ε) (keywordPattern b) (fun _ _ => .ok (textOf accessPieces)) (KeywordAt b)
      (fun _ ps' => ps' = accessPieces) (KeywordEdit b) := by
  refine .of_plain (keyword_reads b) (fun _ _ _ _ => ⟨_, rfl, rfl⟩) ?_ ?_ ?_ ?_ ?_
  · rintro m _ c _ rfl
    exact ⟨_, _, rfl⟩
  · rintro m _ c _ rfl _
    exact access_divided
  · rintro m _ c ⟨g, kw, rfl, _, _⟩ rfl
    simp [accessPieces]
  · exact keyword_plain
  · rintro m _ c _ rfl
    exact access_plain

theorem AccountMember.path_divided (m : AccountMember) : Divided (.word Word.account :: .symbol '.' :: m.path) := by
  have h : pieces (textOf (.word Word.account :: .symbol '.' :: m.path)) = .word Word.account :: .symbol '.' :: m.path := by
    cases m <;> rfl
  rw [← h]
  exact divided_pieces _

theorem AccountMember.path_plain (m : AccountMember) : ∀ x ∈ .word Word.account :: .symbol '.' :: m.path, Plain x := by
  obtain ⟨v, v', hpath, _, _⟩ := m.path_eq
  simp [hpath, Plain]

theorem member_plain {names : List (List Char)} {call : Bool} {m c : List Piece} (h : MemberAt names call m c) :
    ∀ x ∈ m ++ c, Plain x := by
  obtain ⟨w, _, rfl, hc⟩ := h
  have hcall : ∀ x ∈ c, Plain x := by
    cases call with
    | false => simp only [Bool.false_eq_true, ↓reduceIte] at hc; simp [hc]
    | true =>
      obtain ⟨g, d, hg, hd, rfl⟩ := hc
      have hdp : Plain (.symbol d) := by rcases hd with rfl | rfl <;> exact plain_symbol (by decide)
      intro x hx
      rcases List.mem_append.mp hx with hx | hx
      · exact hg.plain x hx
      · rwa [List.mem_singleton.mp hx]
  intro x hx
  rcases List.mem_append.mp hx with hx | hx
  · have hmember : ∀ y ∈ memberPieces w, Plain y := by simp [memberPieces, Plain]
    exact hmember x hx
  · exact hcall x hx

theorem member_rewrites (m : AccountMember) :
    Rewrites (ε := ε) (memberPattern (m.name.map .char) m.isCall)
      (fun _ _ => .ok (textOf (.word Word.account :: .symbol '.' :: m.path))) (MemberAt [m.name] m.isCall)
      (fun _ ps' => ps' = .word Word.account :: .symbol '.' :: m.path) (MemberEdit m.name m.isCall m.path) := by
  have hvalid : ∀ w ∈ [m.name], (Piece.word w).Valid := by cases m <;> decide
  have hlang : ∀ u, u ∈ (all (m.name.map .char)).language ↔ u ∈ [m.name] := by
    intro u
    rw [mem_language_chars, List.mem_singleton]
  have hreads : Reads (memberPattern (m.name.map .char) m.isCall) (MemberAt [m.name] m.isCall) :=
    member_reads (isTextual_all (isTextual_chars _)) hlang hvalid (by cases m <;> decide) (by cases m <;> decide)
  refine .of_plain hreads (fun _ _ _ _ => ⟨_, rfl, rfl⟩) ?_ ?_ ?_ ?_ ?_
  · rintro _ _ c _ rfl
    exact ⟨_, _, rfl⟩
  · rintro _ _ c _ rfl _
    exact m.path_divided
  · rintro _ _ c ⟨w, _, rfl, _⟩ rfl
    obtain ⟨v, v', hpath, _, _⟩ := m.path_eq
    simp [hpath, memberPieces]
  · exact member_plain
  · rintro _ _ c _ rfl
    exact m.path_plain

/-- The symbols of a declaration with its conformances. -/
def listSymbols : List Char := [':', '.', ',', '&']

theorem DeclarationHead.among (h : DeclarationHead) : ∀ x ∈ h.pieces, x.Among listSymbols := by
  have hmiddle : ∀ x ∈ h.middle, x.Among listSymbols := by
    obtain hm | ⟨b, hm⟩ := h.middle_ok <;> simp [hm, Piece.Among]
  intro x hx
  simp only [DeclarationHead.pieces, DeclarationHead.rest, List.cons_append, List.mem_cons, List.mem_append] at hx
  rcases hx with rfl | rfl | (hx | rfl | hx) | rfl | hx
  · trivial
  · trivial
  · exact hmiddle x hx
  · trivial
  · exact h.before_gap.among _ x hx
  · simp [Piece.Among, listSymbols]
  · exact h.after_gap.among _ x hx

theorem IsItem.among {xs : List Piece} (h : IsItem xs) : ∀ x ∈ xs, x.Among listSymbols := by
  obtain ⟨w, rest, rfl, _, hrest⟩ := h
  intro x hx
  rcases List.mem_cons.mp hx with rfl | hx
  · trivial
  · obtain rfl | ⟨v, rfl⟩ := hrest x hx
    · simp [Piece.Among, listSymbols]
    · trivial

theorem Entry.among (e : Entry) : ∀ x ∈ e.pieces, x.Among listSymbols := by
  have hmark : (Piece.symbol e.mark).Among listSymbols := by
    rcases e.mark_separates with h | h <;> simp [h, Piece.Among, listSymbols]
  intro x hx
  simp only [Entry.pieces, List.mem_cons, List.mem_append] at hx
  rcases hx with (hx | rfl | hx) | hx
  · exact e.before_gap.among _ x hx
  · exact hmark
  · exact e.after_gap.among _ x hx
  · exact e.item_ok.among x hx

/-- The symbols of a declaration, whatever its separators. -/
theorem list_among (h : DeclarationHead) {item : List Piece} (hitem : IsItem item) (es : List Entry) :
    ∀ x ∈ h.pieces ++ item ++ es.flatMap Entry.pieces, x.Among listSymbols := by
  intro x hx
  rcases List.mem_append.mp hx with hx | hx
  · rcases List.mem_append.mp hx with hx | hx
    · exact h.among x hx
    · exact hitem.among x hx
  · obtain ⟨e, _, hx⟩ := List.mem_flatMap.mp hx
    exact e.among x hx

theorem list_plain (h : DeclarationHead) {item : List Piece} (hitem : IsItem item) (es : List Entry) :
    ∀ x ∈ h.pieces ++ item ++ es.flatMap Entry.pieces, Plain x := fun x hx =>
  plain_of_among (list_among h hitem es x hx) (by decide)

theorem IsItem.ne_nil {xs : List Piece} (h : IsItem xs) : xs ≠ [] := by
  obtain ⟨w, rest, rfl, _, _⟩ := h
  simp

theorem IsItem.last {xs : List Piece} (h : IsItem xs) (ys : List Piece) :
    ∀ x ∈ (ys ++ xs).getLast?, x.kind ≠ .blank := by
  obtain ⟨w, rest, rfl, _, hrest⟩ := h
  intro x hx
  rw [List.getLast?_append, List.getLast?_eq_some_getLast (List.cons_ne_nil _ _), Option.some_or] at hx
  have hmem : x ∈ .word w :: rest := by
    rw [← Option.some.inj hx]
    exact List.getLast_mem _
  rcases List.mem_cons.mp hmem with rfl | hmem
  · simp
  · obtain rfl | ⟨v, rfl⟩ := hrest x hmem <;> simp

/-- Items stay apart when their separators are rewritten. -/
theorem divided_joined (es : List Entry) {xs : List Piece} (hlast : ∀ x ∈ xs.getLast?, x.kind ≠ .blank)
    (h : Divided (xs ++ es.flatMap Entry.pieces)) : Divided (xs ++ (es.map Entry.joined).flatMap Entry.pieces) := by
  induction es generalizing xs with
  | nil => exact h
  | cons e es ih =>
    have hand : (Piece.symbol '&').Valid := by decide
    have hspace : (Piece.blank [' ']).Valid := by decide
    have hrest : Divided (e.item ++ es.flatMap Entry.pieces) := by
      have hsplit : xs ++ (e :: es).flatMap Entry.pieces =
          (xs ++ (e.before ++ .symbol e.mark :: e.after)) ++ (e.item ++ es.flatMap Entry.pieces) := by
        simp [Entry.pieces]
      rw [hsplit] at h
      exact (divided_append.mp h).2.1
    obtain ⟨w, rest, hitem, _, _⟩ := e.item_ok
    have hjoined : Divided (.blank [' '] :: .symbol '&' :: .blank [' '] :: (e.item ++ es.flatMap Entry.pieces)) := by
      refine divided_cons.mpr ⟨hspace, by simp [Piece.Apart], divided_cons.mpr ⟨hand, by simp [Piece.Apart], ?_⟩⟩
      exact divided_cons.mpr ⟨hspace, by simp [hitem, Piece.Apart], hrest⟩
    have hpieces : xs ++ e.joined.pieces = xs ++ [.blank [' '], .symbol '&', .blank [' ']] ++ e.item := by
      simp [Entry.pieces, Entry.joined]
    have hlast' : ∀ x ∈ (xs ++ e.joined.pieces).getLast?, x.kind ≠ .blank := by
      rw [hpieces]
      exact e.item_ok.last _
    have hdiv' : Divided (xs ++ e.joined.pieces ++ es.flatMap Entry.pieces) := by
      rw [hpieces, List.append_assoc, List.append_assoc]
      refine divided_append.mpr ⟨(divided_append.mp h).1, hjoined, ?_⟩
      intro x hx y hy hk
      obtain rfl : y = .blank [' '] := by simpa using hy.symm
      exact absurd hk (hlast x hx)
    simpa using ih hlast' hdiv'

theorem CommaList.joined_divided (l : CommaList) (h : Divided l.pieces) : Divided l.joined :=
  divided_joined l.entries (l.item_ok.last _) h

theorem getLast?_entry (xs : List Piece) (es : List Entry) (e : Entry) :
    (xs ++ (es ++ [e]).flatMap Entry.pieces).getLast? = e.item.getLast? := by
  rw [List.flatMap_append, List.flatMap_singleton, Entry.pieces, List.getLast?_append, List.getLast?_append,
    List.getLast?_append, List.getLast?_eq_some_getLast e.item_ok.ne_nil]
  simp

theorem CommaList.joined_last (l : CommaList) : l.joined.getLast? = l.pieces.getLast? := by
  obtain ⟨e₀, he₀, _⟩ := l.has_comma
  obtain ⟨es, e, hes⟩ := (List.eq_nil_or_concat l.entries).resolve_left (List.ne_nil_of_mem he₀)
  rw [List.concat_eq_append] at hes
  rw [CommaList.joined, CommaList.pieces, hes, getLast?_entry, List.map_append, List.map_singleton, getLast?_entry]
  rfl

theorem extract_behind (a x s : List Char) : ((a ++ (x ++ s)).toArray.extract a.length (a ++ x).length).toList = x := by
  simp

theorem joinConformances_eq {a u x₁ x₂ g r : List Char} (h : DeclarationText u x₁ x₂ g r) (i j : Nat) :
    joinConformances ⟨i, j, [⟨2, (a ++ x₁).length, (a ++ (x₁ ++ x₂)).length⟩, ⟨1, a.length, (a ++ x₁).length⟩]⟩
      (a ++ u).toArray = x₁ ++ Text.join [' ', '&', ' '] (conformanceNames x₂) := by
  have h₁ := extract_behind a x₁ (x₂ ++ (g ++ '\x7b' :: r))
  have h₂ := extract_behind (a ++ x₁) x₂ (g ++ '\x7b' :: r)
  rw [List.append_assoc, List.append_assoc, ← h.eq] at h₂
  rw [← h.eq] at h₁
  change (((a ++ u).toArray.extract a.length (a ++ x₁).length).toList ++ Text.join [' ', '&', ' ']
    (conformanceNames ((a ++ u).toArray.extract (a ++ x₁).length (a ++ (x₁ ++ x₂)).length).toList)) = _
  rw [h₁, h₂]

theorem conformance_plain {m c : List Piece} (h : ConformanceAt m c) : ∀ x ∈ m ++ c, Plain x := by
  obtain ⟨l, rfl, g, hg, rfl⟩ := h
  have hbrace : Plain (.symbol '\x7b') := plain_symbol (by decide)
  intro x hx
  rcases List.mem_append.mp hx with hx | hx
  · exact list_plain l.head l.item_ok l.entries x hx
  · rcases List.mem_append.mp hx with hx | hx
    · exact hg.plain x hx
    · rwa [List.mem_singleton.mp hx]

theorem conformance_rewrites :
    Rewrites (ε := ε) Legacy.conformance (fun M t => .ok (joinConformances M t)) ConformanceAt
      (fun ps ps' => ∃ l : CommaList, ps = l.pieces ∧ ps' = l.joined) ConformanceEdit := by
  refine .of_plain conformance_reads ?_ ?_ ?_ ?_ ?_ ?_
  · rintro pre u M m c r hM hu _ hstop
    obtain ⟨_, x₁, x₂, g, s, hd, he⟩ := reach_conformance.mp (matchAt_eq_some conformance_reads.regular hM).1
    obtain ⟨l, b, r₀, hx₁, hx₂, _, _, hl⟩ := hd.pieces
    obtain ⟨hstop', hcaps⟩ := Place.mk.inj he
    have hlen : (textOf m).length = (textOf l.pieces).length := by
      rw [hstop] at hstop'
      simp only [CommaList.pieces, textOf_append, hx₁, ← hx₂, List.length_append] at hstop' ⊢
      omega
    obtain ⟨rfl, _⟩ := append_inj_of_length (hu.symm.trans hl) (fun x hx => (divided_pieces u).valid x (hu ▸ hx)) hlen
    refine ⟨l.joined, ⟨l, rfl, rfl⟩, ?_⟩
    have hv : ∀ x ∈ l.item ++ l.entries.flatMap Entry.pieces, x.Valid := by
      intro x hx
      refine (divided_pieces u).valid x ?_
      rw [hu, CommaList.pieces, List.append_assoc l.head.pieces]
      exact List.mem_append_left _ (List.mem_append_right _ hx)
    obtain ⟨i, j, caps⟩ := M
    obtain rfl : caps = _ := hcaps
    rw [joinConformances_eq hd, ← hx₂, conformanceNames_eq l.item_ok hv, join_items, ← hx₁]
    simp [CommaList.joined]
  · rintro _ _ c _ ⟨l, rfl, rfl⟩
    obtain ⟨v, r, hj⟩ := l.joined_start
    exact ⟨_, _, hj⟩
  · rintro _ _ c _ ⟨l, rfl, rfl⟩ hdiv
    exact l.joined_divided hdiv
  · rintro _ _ c _ ⟨l, rfl, rfl⟩
    rw [l.joined_last]
  · exact conformance_plain
  · rintro _ _ c _ ⟨l, rfl, rfl⟩
    exact list_plain l.head l.item_ok _

end Rewrites

/-- Each rewrite of a construct, as edits of lexemes. -/
theorem Target.rewrites {ε : Type} (t : Target) :
    Rewrites (ε := ε) t.pattern (fun M s => .ok (t.write M s)) t.At t.out t.Edit := by
  cases t with
  | keyword b => exact keyword_rewrites b
  | conformance => exact conformance_rewrites
  | member m => exact member_rewrites m

namespace Target

variable {t : Target} {m m' c : List Piece}

theorem at_plain (h : t.At m c) : ∀ x ∈ m ++ c, Plain x := by
  cases t with
  | keyword b => exact keyword_plain h
  | conformance => exact conformance_plain h
  | member _ => exact member_plain h

theorem out_plain (h : t.out m m') : ∀ x ∈ m', Plain x := by
  cases t with
  | keyword b => rw [h]; exact access_plain
  | conformance =>
    obtain ⟨l, _, rfl⟩ := h
    exact list_plain l.head l.item_ok _
  | member a => rw [h]; exact a.path_plain

end Target

section Getters

variable {ε : Type}

/-- A getter with a view modifier between its groups. -/
def insertView (M : Match) (t : Array Char) : List Char := M.groupText t 1 ++ (Word.view ++ ' ' :: M.groupText t 2)

theorem insertView_eq (a x₁ x₂ r : List Char) (i j : Nat) :
    insertView ⟨i, j, [⟨2, (a ++ x₁).length, (a ++ (x₁ ++ x₂)).length⟩, ⟨1, a.length, (a ++ x₁).length⟩]⟩
      (a ++ (x₁ ++ (x₂ ++ r))).toArray = x₁ ++ (Word.view ++ ' ' :: x₂) := by
  have h₁ := extract_behind a x₁ (x₂ ++ r)
  have h₂ := extract_behind (a ++ x₁) x₂ r
  rw [List.append_assoc, List.append_assoc] at h₂
  change ((a ++ (x₁ ++ (x₂ ++ r))).toArray.extract a.length (a ++ x₁).length).toList ++ (Word.view ++ ' ' ::
    ((a ++ (x₁ ++ (x₂ ++ r))).toArray.extract (a ++ x₁).length (a ++ (x₁ ++ x₂)).length).toList) = _
  rw [h₁, h₂]

/-- What stands in front of the insertion of a view modifier. -/
def Getter.front (g : Getter) : List Piece := .word Word.access :: .symbol '(' :: g.args

/-- What stands behind it. -/
def Getter.rest (g : Getter) : List Piece := g.signature ++ [.symbol ':']

theorem Getter.pieces_split (g : Getter) : g.pieces = g.front ++ (insertion g.gap false ++ g.rest) := by
  simp [Getter.pieces, Getter.modifier, Getter.front, Getter.rest, insertion]

theorem Getter.viewed_split (g : Getter) : g.viewed = g.front ++ (insertion g.gap true ++ g.rest) := by
  simp [Getter.viewed, Getter.modifier, Getter.front, Getter.rest, insertion]

theorem insertion_inert {b : List Char} (hb : isSpaces b = true) (hv : (Piece.blank b).Valid) (viewed : Bool) :
    ∀ x ∈ insertion b viewed, Inert x ∧ x.Valid := by
  have hclose : (Piece.symbol ')').Valid := by decide
  have hview : (Piece.word Word.view).Valid := by decide
  have hfun : (Piece.word Word.function).Valid := by decide
  have hspace : (Piece.blank [' ']).Valid := by decide
  have hline : '\n' ∉ b := fun h => by simpa using isSpaces_iff.mp hb _ h
  cases viewed <;> simp [insertion, Inert, hclose, hview, hfun, hspace, hv, hline]

theorem insertion_divided {b : List Char} (hv : (Piece.blank b).Valid) (viewed : Bool) : Divided (insertion b viewed) := by
  have hclose : (Piece.symbol ')').Valid := by decide
  have hview : (Piece.word Word.view).Valid := by decide
  have hfun : (Piece.word Word.function).Valid := by decide
  have hspace : (Piece.blank [' ']).Valid := by decide
  have hnil : Divided [] := divided_pieces []
  cases viewed <;> simp [insertion, divided_cons, Piece.Apart, hclose, hview, hfun, hspace, hv, hnil]

theorem Getter.gap_valid {g : Getter} (h : Divided g.pieces) : (Piece.blank g.gap).Valid :=
  h.valid _ (by simp [Getter.pieces, Getter.modifier])

/-- A view modifier keeps apart from what stands around it. -/
theorem Getter.viewed_divided {g : Getter} (h : Divided g.pieces) : Divided g.viewed := by
  have hgap := g.gap_valid h
  rw [g.pieces_split] at h
  obtain ⟨hfront, hrest, hap⟩ := divided_append.mp h
  obtain ⟨_, hback, hap'⟩ := divided_append.mp hrest
  rw [g.viewed_split]
  refine divided_append.mpr ⟨hfront, divided_append.mpr ⟨insertion_divided hgap true, hback, ?_⟩, ?_⟩
  · simpa [insertion] using hap'
  · simpa [insertion] using hap

/-- A getter takes a view modifier. -/
def GetterOut (m m' : List Piece) : Prop := ∃ g : Getter, m = g.pieces ∧ m' = g.viewed

/-- The lexemes of a getter without and with a view modifier differ by an insertion. -/
theorem getter_edits (g : Getter) {σ : Reader} {r r' : List Piece} (hdiv : Divided g.pieces)
    (hr : Alike r.head? r'.head?) :
    ∃ x M M', (x :: M).map Lexeme.piece = g.pieces ∧
      tagged σ (g.pieces ++ r) = x :: M ++ tagged (σ.after (textOf g.pieces)) r ∧
      tagged σ (g.viewed ++ r') = M' ++ tagged (σ.after (textOf g.pieces)) r' ∧
      GetterEdit (x :: M) M' (tagged (σ.after (textOf g.pieces)) r) := by
  have hgap := g.gap_valid hdiv
  have hinert := insertion_inert g.gap_ok hgap
  obtain ⟨F, hF, hfront⟩ := tagged_append σ g.front (insertion g.gap false ++ (g.rest ++ r))
  obtain ⟨R, hR, hrest⟩ := tagged_append (σ.after (textOf g.front)).settle g.rest r
  have hold := hfront (insertion g.gap false ++ (g.rest ++ r)) (.refl _)
  have hnew := hfront (insertion g.gap true ++ (g.rest ++ r')) (.refl _)
  rw [tagged_inert (hinert false) (by simp [insertion]), hrest r (.refl _)] at hold
  rw [tagged_inert (hinert true) (by simp [insertion]), hrest r' hr] at hnew
  have hafter : σ.after (textOf g.pieces) = (σ.after (textOf g.front)).settle.after (textOf g.rest) := by
    rw [g.pieces_split, textOf_append, textOf_append, Reader.after_append, Reader.after_append,
      after_inerts (hinert false) (by simp [insertion])]
  obtain ⟨x, F', rfl⟩ : ∃ x F', F = x :: F' := by
    cases F with
    | nil => simp [Getter.front] at hF
    | cons x F' => exact ⟨x, F', rfl⟩
  let lexeme (y : Piece) : Lexeme := ⟨y, (σ.after (textOf g.front)).ground⟩
  have hins : InsertEdit ((insertion g.gap false).map lexeme) ((insertion g.gap true).map lexeme) R := ⟨_, _, rfl, rfl⟩
  have hpieces : (x :: F' ++ ((insertion g.gap false).map lexeme ++ R)).map Lexeme.piece = g.pieces := by
    rw [List.map_append, List.map_append, map_piece_mk, hF, hR, g.pieces_split]
  refine ⟨x, _, _, hpieces, ?_, ?_, ⟨g, hpieces, ?_⟩, x :: F', _, _, R, hins, rfl, rfl⟩
  · rw [hafter, g.pieces_split, List.append_assoc, List.append_assoc, hold]
    simp [lexeme]
  · rw [hafter, g.viewed_split, List.append_assoc, List.append_assoc, hnew]
    simp [lexeme]
  · rw [List.map_append, List.map_append, map_piece_mk, hF, hR, g.viewed_split]

theorem getter_rewrites :
    Rewrites (ε := ε) Legacy.getter (fun M t => .ok (insertView M t)) GetterAt GetterOut GetterEdit where
  toReads := getter_reads
  writes := by
    rintro pre u M m c r hM hu ⟨_, g₀, rfl⟩ hstop
    obtain ⟨_, x₁, x₂, s, rfl, h₁, h₂, he⟩ := reach_getter.mp (matchAt_eq_some getter_reads.regular hM).1
    obtain ⟨g, hx₁, hx₂, hg⟩ := getter_of_language h₁ h₂
    obtain ⟨hstop', hcaps⟩ := Place.mk.inj he
    have heq : g₀.pieces ++ (c ++ r) = g.pieces ++ pieces s := by rw [← hu, hg]
    refine ⟨g.viewed, ⟨g, (Getter.pieces_inj heq).1, rfl⟩, ?_⟩
    obtain ⟨i, j, caps⟩ := M
    obtain rfl : caps = _ := hcaps
    rw [insertView_eq, ← hx₁, ← hx₂]
    simp [Getter.viewed, Piece.text]
  out_opens := by
    rintro _ _ c _ ⟨g, rfl, rfl⟩
    exact ⟨_, _, rfl⟩
  out_divided := by
    rintro _ _ c _ ⟨g, rfl, rfl⟩ hdiv
    exact g.viewed_divided hdiv
  out_last := by
    rintro _ _ c _ ⟨g, rfl, rfl⟩
    simp [g.pieces_split, g.viewed_split, Getter.rest]
  edits := by
    rintro σ _ _ c r r' _ ⟨rfl, _⟩ ⟨g, rfl, rfl⟩ hdiv _ hr
    exact getter_edits g (divided_append.mp hdiv).1 hr

end Getters

end CadenceUplift
