import CadenceUplift.Proofs.Construct.Latent
import CadenceUplift.Proofs.Construct.Link
import CadenceUplift.Proofs.Matching.Link

namespace CadenceUplift

open Text Pattern Scanner

section Getters

/-- What may stand in front of the signature of a latent getter. -/
def latentModifier : Pattern :=
  oneOf [all ((keywordText false).map .char ++ [many1 blank]), all ((keywordText true).map .char ++ [many1 blank]),
    all ((Word.access ++ ['(']).map .char ++ [many (except ")"), .char ')', many1 Legacy.gap])]

/-- A getter behind a keyword, or behind an access modifier that may have line ends in its brackets. -/
def latentGetter : Pattern := all (edge :: latentModifier :: signaturePattern)

theorem mem_language_latentModifier {u : List Char} :
    u ∈ latentModifier.language ↔
      (∃ b g, u = keywordText b ++ g ∧ g ≠ [] ∧ ∀ c ∈ g, isBlank c = true) ∨
        ∃ A g, u = Word.access ++ '(' :: (A ++ ')' :: g) ∧ ')' ∉ A ∧ g ≠ [] ∧ isSpaces g = true := by
  have hclose : ")".toList = [')'] := by decide
  rw [latentModifier, mem_language_oneOf (by simp)]
  simp only [List.mem_cons, List.not_mem_nil, or_false, exists_eq_or_imp, exists_eq_left, mem_language_all_append,
    mem_language_chars, mem_language_all_cons, mem_language_many1_blank, mem_language_many_except hclose,
    mem_language_char, mem_language_many1_gap, mem_language_all_nil]
  constructor
  · rintro (⟨_, _, rfl, rfl, g, _, rfl, ⟨hne, hg⟩, rfl⟩ | ⟨_, _, rfl, rfl, g, _, rfl, ⟨hne, hg⟩, rfl⟩ |
      ⟨_, _, rfl, rfl, A, _, rfl, hA, _, _, rfl, rfl, g, _, rfl, ⟨hne, hg⟩, rfl⟩)
    · exact .inl ⟨false, g, by simp, hne, hg⟩
    · exact .inl ⟨true, g, by simp, hne, hg⟩
    · exact .inr ⟨A, g, by simp, fun hmem => hA _ hmem (by simp), hne, hg⟩
  · rintro (⟨b, g, rfl, hne, hg⟩ | ⟨A, g, rfl, hA, hne, hg⟩)
    · cases b with
      | false => exact .inl ⟨_, g, rfl, rfl, g, [], by simp, ⟨hne, hg⟩, rfl⟩
      | true => exact .inr (.inl ⟨_, g, rfl, rfl, g, [], by simp, ⟨hne, hg⟩, rfl⟩)
    · refine .inr (.inr ⟨Word.access ++ ['('], A ++ ')' :: g, by simp, rfl, A, _, rfl, ?_, [')'], g, rfl, rfl, g, [],
        by simp, ⟨hne, hg⟩, rfl⟩)
      intro c hc hmem
      exact hA (hmem ▸ hc)

theorem LatentModifier.mem_language {ps : List Piece} (h : LatentModifier ps) (hv : ∀ x ∈ ps, x.Valid) :
    textOf ps ∈ latentModifier.language := by
  apply mem_language_latentModifier.mpr
  obtain ⟨b, g, rfl⟩ | ⟨A, g, rfl, hA, hg⟩ := h
  · have hblank : (Piece.blank g).Valid := hv _ (by simp)
    exact .inl ⟨b, g, by simp [keywordText, Piece.text], hblank.1, hblank.2⟩
  · have hblank : (Piece.blank g).Valid := hv _ (by simp)
    refine .inr ⟨textOf A, g, by simp [Piece.text], ?_, hblank.1, hg⟩
    intro hmem
    obtain ⟨x, hx, hcx⟩ := List.mem_flatMap.mp hmem
    exact symbol_not_mem (by decide) (hv x (by simp [hx])) (fun h => hA (h ▸ hx)) hcx

theorem LatentModifier.startsWord {ps : List Piece} (h : LatentModifier ps) (r : List Piece) :
    startsWord (textOf (ps ++ r)) = true := by
  obtain ⟨b, g, rfl⟩ | ⟨A, g, rfl, _, _⟩ := h
  · cases b <;> rfl
  · rfl

/-- The pattern finds what the scanner for latent getters accepts. -/
theorem latentGetter_complete {a : List Char} {xs : List Piece} (ha : endsWord a = false) (hdiv : Divided xs)
    (h : latentScanner.accepts xs = true) : ∃ e, Reach (a ++ textOf xs).toArray latentGetter ⟨a.length, []⟩ e := by
  obtain ⟨ps, g, r, hps, rfl⟩ := latent_found h
  have hstart := hps.startsWord (.word Word.function :: (g.signature ++ .symbol ':' :: r))
  have hmodifier := hps.mem_language fun x hx => hdiv.valid x (by simp [hx])
  have hsignature := g.mem_language_signature fun x hx => hdiv.valid x (by simp [hx])
  have htextual : (all (latentModifier :: signaturePattern)).isTextual = true := rfl
  have hlanguage := mem_language_all_cons.mpr ⟨_, _, rfl, hmodifier, hsignature⟩
  refine ⟨_, reach_edge_cons.mpr ⟨?_, (reach_textual htextual).mpr ⟨_, textOf r, ?_, hlanguage, rfl⟩⟩⟩
  · rw [hstart, ha]
    exact Bool.false_ne_true
  · simp

end Getters

section Links

/-- The pattern of a link call behind its first edge, with some characters kept from its type arguments. -/
def linkRestOf (excluded : String) : List Pattern :=
  linkStart.map .char ++
    [many blank, opt (all [.char '<', many (except excluded), .char '>', many blank]), .char '(']

/-- A link call that may have line ends in its type arguments. -/
def latentLink : Pattern := all (edge :: linkRestOf ">")

theorem mem_language_linkRest {s : String} {cs u : List Char} (hs : s.toList = cs) :
    u ∈ (all (linkRestOf s)).language ↔
      ∃ b args, u = linkStart ++ (b ++ (args ++ ['('])) ∧ (∀ c ∈ b, isBlank c = true) ∧
        (args = [] ∨ ∃ A b', args = '<' :: (A ++ '>' :: b') ∧ (∀ c ∈ A, c ∉ cs) ∧ ∀ c ∈ b', isBlank c = true) := by
  simp only [linkRestOf, mem_language_all_append, mem_language_chars, mem_language_all_cons, mem_language_many_blank,
    mem_language_opt, mem_language_char, mem_language_many_except hs, mem_language_all_nil]
  constructor
  · rintro ⟨_, _, rfl, rfl, b, _, rfl, hb, args, _, rfl, hargs, _, _, rfl, rfl, rfl⟩
    refine ⟨b, args, by simp, hb, ?_⟩
    obtain rfl | ⟨_, _, rfl, rfl, A, _, rfl, hA, _, _, rfl, rfl, b', _, rfl, hb', rfl⟩ := hargs
    · exact .inl rfl
    · exact .inr ⟨A, b', by simp, hA, hb'⟩
  · rintro ⟨b, args, rfl, hb, hargs⟩
    refine ⟨_, _, rfl, rfl, b, _, rfl, hb, args, _, rfl, ?_, ['('], [], rfl, rfl, rfl⟩
    obtain rfl | ⟨A, b', rfl, hA, hb'⟩ := hargs
    · exact .inl rfl
    · exact .inr ⟨_, A ++ ('>' :: b'), rfl, rfl, A, _, rfl, hA, ['>'], b' ++ [], by simp, rfl, b', [], rfl, hb', rfl⟩

theorem linkArgs_pieces {cs : List Char} {args : List Char} (hclose : '>' ∈ cs)
    (h : args = [] ∨ ∃ A b', args = '<' :: (A ++ '>' :: b') ∧ (∀ c ∈ A, c ∉ cs) ∧ ∀ c ∈ b', isBlank c = true)
    (s : List Char) : ∃ ps, LinkArgs ps ∧ pieces (args ++ '(' :: s) = ps ++ .symbol '(' :: pieces s := by
  have hcall : (Piece.symbol '(').Valid := by decide
  obtain rfl | ⟨A, b, rfl, hA, hb⟩ := h
  · exact ⟨[], .inl rfl, pieces_symbol_cons hcall s⟩
  · have hopen : (Piece.symbol '<').Valid := by decide
    have hend : (Piece.symbol '>').Valid := by decide
    have hnot : Piece.symbol '>' ∉ pieces A := fun hmem =>
      hA '>' (mem_text_of_pieces hmem '>' (by simp [Piece.text])) hclose
    refine ⟨_, .inr ⟨pieces A, gapOf b, hnot, isGap_gapOf b, rfl⟩, ?_⟩
    have hblank : startsBlank ('(' :: s) = false := rfl
    simp [pieces_symbol_cons hopen, pieces_before_symbol hend, pieces_gap_append hb hblank, pieces_symbol_cons hcall]

/-- The scanner for link calls accepts what their pattern finds. -/
theorem link_accepts_of_match {a u : List Char} {M : Match}
    (h : Legacy.link.matchAt (a ++ u).toArray a.length = some M) :
    endsWord a = false ∧ linkScanner.accepts (pieces u) = true := by
  have hlines : ">\n".toList = ['>', '\n'] := by decide
  obtain ⟨ha, x, r, rfl, hx, _⟩ := reach_link.mp (matchAt_eq_some link_regular h).1
  obtain ⟨b, args, rfl, hb, hargs⟩ := (mem_language_linkRest hlines).mp hx
  obtain ⟨ps, hps, hpieces⟩ := linkArgs_pieces (by simp) hargs r
  have haccount : (Piece.word Word.account).Valid := by decide
  have hdot : (Piece.symbol '.').Valid := by decide
  have hlink : (Piece.word Word.link).Valid := by decide
  have htext : linkStart ++ (b ++ (args ++ ['('])) ++ r =
      Word.account ++ '.' :: (Word.link ++ (b ++ (args ++ '(' :: r))) := by
    simp [linkStart, Word.link]
  have hargsword : startsWord (args ++ '(' :: r) = false := by
    obtain rfl | ⟨A, b', rfl, _, _⟩ := hargs <;> rfl
  have hargsblank : startsBlank (args ++ '(' :: r) = false := by
    obtain rfl | ⟨A, b', rfl, _, _⟩ := hargs <;> rfl
  rw [htext, pieces_word_append haccount rfl, pieces_symbol_cons hdot,
    pieces_word_append hlink (startsWord_gap hb hargsword), pieces_gap_append hb hargsblank, hpieces]
  exact ⟨ha, link_accepts (isGap_gapOf b) hps _⟩

/-- The pattern finds what the scanner for link calls accepts. -/
theorem latentLink_complete {a : List Char} {xs : List Piece} (ha : endsWord a = false) (hdiv : Divided xs)
    (h : linkScanner.accepts xs = true) : ∃ e, Reach (a ++ textOf xs).toArray latentLink ⟨a.length, []⟩ e := by
  have hclose : ">".toList = ['>'] := by decide
  obtain ⟨g, ps, r, hg, hps, rfl⟩ := link_found h
  have hvalid := hdiv.valid
  have hargs : textOf ps = [] ∨ ∃ A b', textOf ps = '<' :: (A ++ '>' :: b') ∧ (∀ c ∈ A, c ∉ ['>']) ∧
      ∀ c ∈ b', isBlank c = true := by
    obtain rfl | ⟨A, g', hA, hg', rfl⟩ := hps
    · exact .inl rfl
    · refine .inr ⟨textOf A, textOf g', by simp [Piece.text], ?_, hg'.blank fun x hx => hvalid x (by simp [hx])⟩
      intro c hc hmem
      obtain rfl := List.mem_singleton.mp hmem
      obtain ⟨x, hx, hcx⟩ := List.mem_flatMap.mp hc
      exact symbol_not_mem (by decide) (hvalid x (by simp [hx])) (fun h => hA (h ▸ hx)) hcx
  have hlanguage := (mem_language_linkRest hclose).mpr
    ⟨textOf g, textOf ps, rfl, hg.blank fun x hx => hvalid x (by simp [hx]), hargs⟩
  have htextual : (all (linkRestOf ">")).isTextual = true := rfl
  refine ⟨_, reach_edge_cons.mpr ⟨?_, (reach_textual htextual).mpr ⟨_, textOf r, ?_, hlanguage, rfl⟩⟩⟩
  · rw [ha]
    exact Bool.false_ne_true
  · simp [linkStart, Word.link, Piece.text]

end Links

end CadenceUplift
