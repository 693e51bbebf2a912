import CadenceUplift.Proofs.Construct.Getter
import CadenceUplift.Proofs.Matching.Basic

namespace CadenceUplift

open Text Pattern

section Spaces

theorem isSpaces_iff {b : List Char} : isSpaces b = true ↔ ∀ c ∈ b, c = ' ' ∨ c = '\t' := by
  simp [isSpaces]

theorem isBlank_of_spaces {b : List Char} (h : isSpaces b = true) : ∀ c ∈ b, isBlank c = true := by
  intro c hc
  rcases isSpaces_iff.mp h c hc with rfl | rfl <;> decide

theorem gap_holds (c : Char) : ({ items := " \t".toList.map .single } : CharSet).holds c = true ↔ c = ' ' ∨ c = '\t' := by
  have hchars : " \t".toList = [' ', '\t'] := by decide
  have hspace : (' ' == c) = (c == ' ') := Bool.beq_comm
  have htab : ('\t' == c) = (c == '\t') := Bool.beq_comm
  simp [hchars, CharSet.holds, CharItem.holds, hspace, htab]

theorem mem_language_many_gap {u : List Char} : u ∈ (many Legacy.gap).language ↔ isSpaces u = true := by
  rw [Legacy.gap, among, mem_language_many_member, isSpaces_iff]
  simp only [gap_holds]

theorem mem_language_many1_gap {u : List Char} :
    u ∈ (many1 Legacy.gap).language ↔ u ≠ [] ∧ isSpaces u = true := by
  rw [Legacy.gap, among, mem_language_many1_member, isSpaces_iff]
  simp only [gap_holds]

theorem mem_language_many_except {s : String} {cs u : List Char} (hs : s.toList = cs) :
    u ∈ (many (except s)).language ↔ ∀ c ∈ u, c ∉ cs := by
  have hset : ∀ c, ({ negated := true, items := s.toList.map .single } : CharSet).holds c = true ↔ c ∉ cs := by
    intro c
    rw [hs]
    simpa [CharSet.holds, CharItem.holds] using List.forall_mem_ne'
  rw [except, mem_language_many_member]
  simp only [hset]

theorem isSpaceGap_gapOf {g : List Char} (h : isSpaces g = true) : IsSpaceGap (gapOf g) := by
  unfold gapOf
  split
  · exact .inl rfl
  · exact .inr ⟨g, h, rfl⟩

theorem IsSpaceGap.spaces {g : List Piece} (h : IsSpaceGap g) : isSpaces (textOf g) = true := by
  obtain rfl | ⟨b, hb, rfl⟩ := h
  · rfl
  · simpa [Piece.text] using hb

end Spaces

section Brackets

/-- What stands in brackets is divided on its own. -/
theorem pieces_before_symbol {c : Char} (hc : (Piece.symbol c).Valid) (u s : List Char) :
    pieces (u ++ c :: s) = pieces u ++ .symbol c :: pieces s := by
  have happ := pieces_textOf_append (divided_pieces u) (s := c :: s) ?_
  · rwa [textOf_pieces, pieces_symbol_cons hc] at happ
  · rw [pieces_symbol_cons hc]
    intro x _ y hy hk
    obtain rfl : y = .symbol c := by simpa using hy.symm
    exact hk

theorem mem_text_of_pieces {u : List Char} {x : Piece} (hx : x ∈ pieces u) : ∀ c ∈ x.text, c ∈ u := by
  intro c hc
  rw [← textOf_pieces u]
  exact List.mem_flatMap.mpr ⟨x, hx, hc⟩

/-- A symbol is part of no other piece. -/
theorem symbol_not_mem {d : Char} (hd : (Piece.symbol d).Valid) {x : Piece} (hx : x.Valid) (hne : x ≠ .symbol d) :
    d ∉ x.text := by
  intro hmem
  obtain ⟨hword, hblank⟩ := hd
  cases x with
  | word w => exact absurd (hx.2 d hmem) (by simp [hword])
  | blank b => exact absurd (hx.2 d hmem) (by simp [hblank])
  | symbol c => exact hne (by rw [List.mem_singleton.mp hmem])

theorem symbol_ne {d : Char} {u : List Char} (hu : d ∉ u) : ∀ x ∈ pieces u, x ≠ .symbol d := by
  rintro x hx rfl
  exact hu (mem_text_of_pieces hx d (by simp [Piece.text]))

end Brackets

section Names

theorem goesOn_eq (c : Char) (v : List Char) :
    goesOn (c :: v) = ({ items := [.range 'A' 'Z', .range '0' '9', .single '_'] } : CharSet).holds c := by
  have hcomm : ('_' == c) = (c == '_') := Bool.beq_comm
  simp [goesOn, CharSet.holds, CharItem.holds, hcomm, Bool.or_assoc]

/-- The pattern of the rest of a getter's name. -/
def nameRest : Pattern := opt (all [.member { items := [.range 'A' 'Z', .range '0' '9', .single '_'] }, many word])

theorem isWord_of_goesOn {c : Char} (h : goesOn [c] = true) : isWord c = true := by
  simp only [goesOn, Bool.or_eq_true, Bool.and_eq_true, decide_eq_true_eq, beq_iff_eq] at h
  rcases h with (h | h) | rfl
  · exact isWord_of_upper h
  · exact isWord_of_digit h
  · decide

theorem mem_language_nameRest {u : List Char} :
    u ∈ nameRest.language ↔ goesOn u = true ∧ ∀ c ∈ u, isWord c = true := by
  rw [nameRest, mem_language_opt, mem_language_all_cons]
  simp only [mem_language_member, ← goesOn_eq _ [], mem_language_all_singleton, mem_language_many_word]
  constructor
  · rintro (rfl | ⟨_, v, rfl, ⟨c, hc, rfl⟩, hv⟩)
    · simp [goesOn]
    · refine ⟨hc, ?_⟩
      simpa [isWord_of_goesOn hc] using hv
  · rintro ⟨hgo, hw⟩
    cases u with
    | nil => exact .inl rfl
    | cons c v => exact .inr ⟨[c], v, rfl, ⟨c, hgo, rfl⟩, fun d hd => hw d (by simp [hd])⟩

theorem mem_language_getterWords {u : List Char} :
    u ∈ (Legacy.wordsOf Legacy.getterWords).language ↔ u ∈ Word.getters := by
  have hwords : Legacy.getterWords.map String.toList = Word.getters := by decide
  rw [mem_language_wordsOf (by decide), ← hwords, List.mem_map]
  simp only [eq_comm]

theorem getters_valid : ∀ w ∈ Word.getters, (Piece.word w).Valid := by decide

/-- A getter's name is one of the opening words with what may follow it. -/
theorem isGetterName_iff {w : List Char} :
    isGetterName w = true ∧ (Piece.word w).Valid ↔
      ∃ v u, w = v ++ u ∧ v ∈ Word.getters ∧ goesOn u = true ∧ ∀ c ∈ u, isWord c = true := by
  simp only [isGetterName, List.any_eq_true, Bool.and_eq_true, List.isPrefixOf_iff_prefix]
  constructor
  · rintro ⟨⟨v, hv, ⟨u, rfl⟩, hgo⟩, hword⟩
    rw [List.drop_left] at hgo
    exact ⟨v, u, rfl, hv, hgo, fun c hc => hword.2 c (by simp [hc])⟩
  · rintro ⟨v, u, rfl, hv, hgo, hu⟩
    obtain ⟨hne, hw⟩ := getters_valid v hv
    refine ⟨⟨v, hv, ⟨u, rfl⟩, by rwa [List.drop_left]⟩, by simp [hne], ?_⟩
    intro c hc
    rcases List.mem_append.mp hc with hc | hc
    · exact hw c hc
    · exact hu c hc

end Names

section Reading

/-- The pattern of an access modifier with what stands before the word `fun`. -/
def modifierPattern : List Pattern :=
  (Word.access ++ ['(']).map .char ++ [many (except ")\n"), .char ')', many1 Legacy.gap]

/-- The pattern of a getter's signature. -/
def signaturePattern : List Pattern :=
  Word.function.map .char ++ [many1 Legacy.gap, Legacy.wordsOf Legacy.getterWords, nameRest, many Legacy.gap,
    .char '(', many (except ")"), .char ')', many Legacy.gap, .char ':']

theorem getter_eq :
    Legacy.getter = all [.group 1 (all (edge :: modifierPattern)), .group 2 (all signaturePattern)] := by
  decide

theorem mem_language_modifier {u : List Char} :
    u ∈ (all modifierPattern).language ↔
      ∃ A b, u = Word.access ++ '(' :: (A ++ ')' :: b) ∧ (∀ c ∈ A, c ∉ [')', '\n']) ∧ b ≠ [] ∧ isSpaces b = true := by
  have hexcept : ")\n".toList = [')', '\n'] := by decide
  simp only [modifierPattern, mem_language_all_append, mem_language_chars, mem_language_all_cons,
    mem_language_many_except hexcept, mem_language_char, mem_language_all_nil, mem_language_many1_gap]
  constructor
  · rintro ⟨_, _, rfl, rfl, A, _, rfl, hA, _, _, rfl, rfl, b, _, rfl, ⟨hne, hb⟩, rfl⟩
    exact ⟨A, b, by simp, hA, hne, hb⟩
  · rintro ⟨A, b, rfl, hA, hne, hb⟩
    exact ⟨_, A ++ ([')'] ++ (b ++ [])), by simp, rfl, A, _, rfl, hA, _, _, rfl, rfl, b, [], rfl, ⟨hne, hb⟩, rfl⟩

theorem mem_language_signature {u : List Char} :
    u ∈ (all signaturePattern).language ↔
      ∃ b w g P g', u = Word.function ++ (b ++ (w ++ (g ++ '(' :: (P ++ ')' :: (g' ++ [':']))))) ∧
        (b ≠ [] ∧ isSpaces b = true) ∧ (isGetterName w = true ∧ (Piece.word w).Valid) ∧ isSpaces g = true ∧
        (∀ c ∈ P, c ∉ [')']) ∧ isSpaces g' = true := by
  have hexcept : ")".toList = [')'] := by decide
  simp only [signaturePattern, mem_language_all_append, mem_language_chars, mem_language_all_cons,
    mem_language_many_except hexcept, mem_language_char, mem_language_all_nil, mem_language_many1_gap,
    mem_language_many_gap, mem_language_getterWords, mem_language_nameRest, isGetterName_iff]
  constructor
  · rintro ⟨_, _, rfl, rfl, b, _, rfl, hb, v, _, rfl, hv, x, _, rfl, ⟨hgo, hx⟩, g, _, rfl, hg, _, _, rfl, rfl, P, _, rfl,
      hP, _, _, rfl, rfl, g', _, rfl, hg', _, _, rfl, rfl, rfl⟩
    exact ⟨b, v ++ x, g, P, g', by simp, hb, ⟨v, x, rfl, hv, hgo, hx⟩, hg, hP, hg'⟩
  · rintro ⟨b, _, g, P, g', rfl, hb, ⟨v, x, rfl, hv, hgo, hx⟩, hg, hP, hg'⟩
    exact ⟨_, b ++ (v ++ (x ++ (g ++ (['('] ++ (P ++ ([')'] ++ (g' ++ ([':'] ++ [])))))))), by simp, rfl, b, _, rfl, hb,
      v, _, rfl, hv, x, _, rfl, ⟨hgo, hx⟩, g, _, rfl, hg, _, _, rfl, rfl, P, _, rfl, hP, _, _, rfl, rfl, g', _, rfl, hg', _,
      [], rfl, rfl, rfl⟩

/-- An access modifier and a signature are a getter. -/
theorem getter_of_language {x₁ x₂ : List Char} (h₁ : x₁ ∈ (all modifierPattern).language)
    (h₂ : x₂ ∈ (all signaturePattern).language) :
    ∃ g : Getter, textOf (.word Word.access :: g.modifier) = x₁ ∧
      textOf (.word Word.function :: (g.signature ++ [.symbol ':'])) = x₂ ∧
      ∀ s, pieces (x₁ ++ (x₂ ++ s)) = g.pieces ++ pieces s := by
  obtain ⟨A, b, rfl, hA, hne, hb⟩ := mem_language_modifier.mp h₁
  obtain ⟨b', w, g, P, g', rfl, ⟨hne', hb'⟩, ⟨hname, hw⟩, hg, hP, hg'⟩ := mem_language_signature.mp h₂
  have hargs : ∀ x ∈ pieces A, x ≠ .symbol ')' ∧ '\n' ∉ x.text := by
    intro x hx
    refine ⟨symbol_ne (fun hc => hA ')' hc (by simp)) x hx, fun hc => ?_⟩
    exact hA '\n' (mem_text_of_pieces hx _ hc) (by simp)
  have hparams : ∀ x ∈ pieces P, x ≠ .symbol ')' := symbol_ne fun hc => hP ')' hc (by simp)
  refine ⟨⟨pieces A, b, b', w, gapOf g, pieces P, gapOf g', hargs, hb, hb', hname, isSpaceGap_gapOf hg, hparams,
    isSpaceGap_gapOf hg'⟩, ?_, ?_, ?_⟩
  · simp [Getter.modifier, textOf_pieces, Piece.text]
  · simp [Getter.signature, textOf_pieces, textOf_gapOf, Piece.text]
  · intro s
    have haccess : (Piece.word Word.access).Valid := by decide
    have hfun : (Piece.word Word.function).Valid := by decide
    have hopen : (Piece.symbol '(').Valid := by decide
    have hclose : (Piece.symbol ')').Valid := by decide
    have hcolon : (Piece.symbol ':').Valid := by decide
    have htext : Word.access ++ '(' :: (A ++ ')' :: b) ++ (Word.function ++ (b' ++ (w ++ (g ++ '(' ::
        (P ++ ')' :: (g' ++ [':']))))) ++ s) = Word.access ++ '(' :: (A ++ ')' :: (b ++ (Word.function ++ (b' ++
        (w ++ (g ++ '(' :: (P ++ ')' :: (g' ++ ':' :: s)))))))) := by simp
    have hwblank : startsBlank (w ++ (g ++ '(' :: (P ++ ')' :: (g' ++ ':' :: s)))) = false := by
      rw [startsBlank_append hw.1]
      exact hw.startsBlank
    have hgword : startsWord (g ++ '(' :: (P ++ ')' :: (g' ++ ':' :: s))) = false :=
      startsWord_gap (isBlank_of_spaces hg) rfl
    rw [htext, pieces_word_append haccess rfl, pieces_symbol_cons hopen, pieces_before_symbol hclose,
      pieces_gap_append (isBlank_of_spaces hb) rfl, pieces_word_append hfun (startsWord_of_blank (isBlank_of_spaces hb') hne' _),
      pieces_gap_append (isBlank_of_spaces hb') hwblank, pieces_word_append hw hgword,
      pieces_gap_append (isBlank_of_spaces hg) rfl, pieces_symbol_cons hopen, pieces_before_symbol hclose,
      pieces_gap_append (isBlank_of_spaces hg') rfl, pieces_symbol_cons hcolon]
    simp [Getter.pieces, Getter.modifier, Getter.signature, gapOf, hne, hne']

theorem Getter.mem_language_modifier (g : Getter) (hv : ∀ x ∈ g.modifier, x.Valid) :
    textOf (.word Word.access :: g.modifier) ∈ (all modifierPattern).language := by
  have hgap : (Piece.blank g.gap).Valid := hv _ (by simp [Getter.modifier])
  refine CadenceUplift.mem_language_modifier.mpr ⟨textOf g.args, g.gap, ?_, ?_, hgap.1, g.gap_ok⟩
  · simp [Getter.modifier, Piece.text]
  · intro c hc
    obtain ⟨x, hx, hcx⟩ := List.mem_flatMap.mp hc
    obtain ⟨hne, hline⟩ := g.args_ok x hx
    have hclose := symbol_not_mem (by decide) (hv x (by simp [Getter.modifier, hx])) hne
    simp only [List.mem_cons, List.not_mem_nil, or_false, not_or]
    exact ⟨fun h => hclose (h ▸ hcx), fun h => hline (h ▸ hcx)⟩

theorem Getter.mem_language_signature (g : Getter) (hv : ∀ x ∈ g.signature, x.Valid) :
    textOf (.word Word.function :: (g.signature ++ [.symbol ':'])) ∈ (all signaturePattern).language := by
  have hspace : (Piece.blank g.space).Valid := hv _ (by simp [Getter.signature])
  have hname : (Piece.word g.name).Valid := hv _ (by simp [Getter.signature])
  refine CadenceUplift.mem_language_signature.mpr ⟨g.space, g.name, textOf g.before, textOf g.params, textOf g.after,
    ?_, ⟨hspace.1, g.space_ok⟩, ⟨g.name_ok, hname⟩, g.before_ok.spaces, ?_, g.after_ok.spaces⟩
  · simp [Getter.signature, Piece.text]
  · intro c hc
    obtain ⟨x, hx, hcx⟩ := List.mem_flatMap.mp hc
    have hclose := symbol_not_mem (by decide) (hv x (by simp [Getter.signature, hx])) (g.params_ok x hx)
    simp only [List.mem_cons, List.not_mem_nil, or_false]
    exact fun h => hclose (h ▸ hcx)

/-- Where the pattern of getters gets to, with modifier and signature taken. -/
theorem reach_getter {a u : List Char} {e : Place} :
    Reach (a ++ u).toArray Legacy.getter ⟨a.length, []⟩ e ↔
      endsWord a = false ∧ ∃ x₁ x₂ r, u = x₁ ++ (x₂ ++ r) ∧ x₁ ∈ (all modifierPattern).language ∧
        x₂ ∈ (all signaturePattern).language ∧
        e = ⟨(a ++ (x₁ ++ x₂)).length,
          [⟨2, (a ++ x₁).length, (a ++ (x₁ ++ x₂)).length⟩, ⟨1, a.length, (a ++ x₁).length⟩]⟩ := by
  have hmod : (all modifierPattern).isTextual = true := by decide
  have hsig : (all signaturePattern).isTextual = true := by decide
  have hstart {x₁ s : List Char} (h : x₁ ∈ (all modifierPattern).language) : startsWord (x₁ ++ s) = true := by
    obtain ⟨A, b, rfl, _⟩ := mem_language_modifier.mp h
    rfl
  rw [getter_eq, reach_edge_group_cons hmod, reach_group_cons hmod]
  simp only [reach_group_cons hsig, reach_all_nil]
  constructor
  · rintro ⟨hedge, x₁, _, rfl, h₁, x₂, r, rfl, h₂, rfl⟩
    rw [hstart h₁] at hedge
    exact ⟨by simpa using hedge, x₁, x₂, r, rfl, h₁, h₂, by simp⟩
  · rintro ⟨ha, x₁, x₂, r, rfl, h₁, h₂, rfl⟩
    exact ⟨by simp [ha, hstart h₁], x₁, _, rfl, h₁, x₂, r, rfl, h₂, by simp⟩

theorem Getter.textOf_pieces (g : Getter) :
    textOf g.pieces = textOf (.word Word.access :: g.modifier) ++
      textOf (.word Word.function :: (g.signature ++ [.symbol ':'])) := by
  simp [Getter.pieces]

theorem getter_reads : Reads Legacy.getter GetterAt := by
  refine .of_reach (by decide) (by decide) ?_ ?_ ?_
  · rintro m c ⟨_, g, rfl⟩
    exact ⟨_, _, rfl⟩
  · intro a u e h
    obtain ⟨ha, x₁, x₂, r, rfl, h₁, h₂, rfl⟩ := reach_getter.mp h
    obtain ⟨g, hx₁, hx₂, hg⟩ := getter_of_language h₁ h₂
    refine ⟨ha, g.pieces, [], pieces r, hg r, ⟨rfl, g, rfl⟩, ?_⟩
    rw [g.textOf_pieces, hx₁, hx₂]
  · rintro a m c r ha hdiv ⟨rfl, g, rfl⟩
    have h₁ := g.mem_language_modifier fun x hx => hdiv.valid x (by simp [Getter.pieces, hx])
    have h₂ := g.mem_language_signature fun x hx => hdiv.valid x (by simp [Getter.pieces, hx])
    refine ⟨_, reach_getter.mpr ⟨ha, _, _, textOf r, ?_, h₁, h₂, rfl⟩⟩
    rw [List.nil_append, textOf_append, g.textOf_pieces, List.append_assoc]

end Reading

end CadenceUplift
