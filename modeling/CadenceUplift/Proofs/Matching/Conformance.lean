import CadenceUplift.Proofs.Construct.Conformance
import CadenceUplift.Proofs.Matching.Basic

namespace CadenceUplift

open Text Pattern

theorem isWord_of_isNameStart {c : Char} (h : isNameStart c = true) : isWord c = true := by
  simp only [isNameStart, Bool.or_eq_true, Bool.and_eq_true, decide_eq_true_eq, beq_iff_eq] at h
  rcases h with (h | h) | rfl
  · exact isWord_of_upper h
  · exact isWord_of_lower h
  · decide

section Names

theorem mem_language_nameStart {u : List Char} :
    u ∈ Legacy.nameStart.language ↔ ∃ c, isNameStart c = true ∧ u = [c] := by
  have hset : ∀ c, ({ items := [.range 'A' 'Z', .range 'a' 'z', .single '_'] } : CharSet).holds c = isNameStart c := by
    intro c
    have hcomm : ('_' == c) = (c == '_') := Bool.beq_comm
    simp [CharSet.holds, CharItem.holds, isNameStart, hcomm, Bool.or_assoc]
  rw [Legacy.nameStart, mem_language_member]
  simp only [hset]

theorem mem_language_plainName {u : List Char} :
    u ∈ (all Legacy.plainName).language ↔ (Piece.word u).Valid ∧ opensName u = true := by
  rw [Legacy.plainName, mem_language_all_cons]
  simp only [mem_language_nameStart, mem_language_all_singleton, mem_language_many_word]
  constructor
  · rintro ⟨_, v, rfl, ⟨c, hc, rfl⟩, hv⟩
    refine ⟨⟨by simp, ?_⟩, hc⟩
    simpa [isWord_of_isNameStart hc] using hv
  · rintro ⟨⟨hne, hw⟩, hopens⟩
    obtain ⟨c, v, rfl⟩ := List.exists_cons_of_ne_nil hne
    exact ⟨[c], v, rfl, ⟨c, hopens, rfl⟩, fun d hd => hw d (by simp [hd])⟩

theorem mem_language_dottedName {u : List Char} :
    u ∈ (all Legacy.dottedName).language ↔
      ∃ c v, u = c :: v ∧ isNameStart c = true ∧ ∀ d ∈ v, isWord d = true ∨ d = '.' := by
  rw [Legacy.dottedName, mem_language_all_cons]
  simp only [mem_language_nameStart, mem_language_all_singleton, mem_language_many_member]
  have hset : ∀ d, ({ items := [.word, .single '.'] } : CharSet).holds d = true ↔ isWord d = true ∨ d = '.' := by
    intro d
    have hcomm : ('.' == d) = (d == '.') := Bool.beq_comm
    simp [CharSet.holds, CharItem.holds, hcomm]
  simp only [hset]
  constructor
  · rintro ⟨_, v, rfl, ⟨c, hc, rfl⟩, hv⟩
    exact ⟨c, v, rfl, hc, hv⟩
  · rintro ⟨c, v, rfl, hc, hv⟩
    exact ⟨[c], v, rfl, ⟨c, hc, rfl⟩, hv⟩

theorem isPart_of_chars {x : Piece} (hx : x.Valid) (h : ∀ d ∈ x.text, isWord d = true ∨ d = '.') : IsPart x := by
  cases x with
  | word w => exact .inr ⟨w, rfl⟩
  | blank b =>
    obtain ⟨d, v, rfl⟩ := List.exists_cons_of_ne_nil hx.1
    have hb := hx.2 d (by simp)
    rcases h d (by simp [Piece.text]) with hw | rfl
    · simp [isWord_of_isBlank hb] at hw
    · exact absurd hb (by decide)
  | symbol d =>
    rcases h d (by simp [Piece.text]) with hw | rfl
    · simp [hx.1] at hw
    · exact .inl rfl

/-- A dotted name is an item, and every item is one. -/
theorem isItem_pieces {u : List Char} (h : u ∈ (all Legacy.dottedName).language) : IsItem (pieces u) := by
  obtain ⟨c, v, rfl, hc, hv⟩ := mem_language_dottedName.mp h
  obtain ⟨w, r, hw⟩ := startsWord_iff.mp (show startsWord (c :: v) = true from isWord_of_isNameStart hc)
  obtain ⟨htext, hdiv⟩ := pieces_eq_iff.mp hw
  have hchars : ∀ d ∈ c :: v, isWord d = true ∨ d = '.' := by
    intro d hd
    rcases List.mem_cons.mp hd with rfl | hd
    · exact .inl (isWord_of_isNameStart hc)
    · exact hv d hd
  refine ⟨w, r, hw, ?_, ?_⟩
  · obtain ⟨d, w', rfl⟩ := List.exists_cons_of_ne_nil (hdiv.valid (.word w) (by simp)).1
    obtain rfl : c = d := (List.cons.inj htext).1
    exact hc
  · intro x hx
    refine isPart_of_chars (hdiv.valid x (by simp [hx])) fun d hd => hchars d ?_
    rw [htext]
    exact List.mem_flatMap.mpr ⟨x, by simp [hx], hd⟩

theorem mem_language_item {xs : List Piece} (h : IsItem xs) (hv : ∀ x ∈ xs, x.Valid) :
    textOf xs ∈ (all Legacy.dottedName).language := by
  obtain ⟨w, rest, rfl, hw, hrest⟩ := h
  have hword := hv (.word w) (by simp)
  obtain ⟨c, v, rfl⟩ := List.exists_cons_of_ne_nil hword.1
  refine mem_language_dottedName.mpr ⟨c, v ++ textOf rest, rfl, hw, ?_⟩
  intro d hd
  rcases List.mem_append.mp hd with hd | hd
  · exact .inl (hword.2 d (by simp [hd]))
  · obtain ⟨x, hx, hdx⟩ := List.mem_flatMap.mp hd
    obtain rfl | ⟨u, rfl⟩ := hrest x hx
    · exact .inr (by simpa [Piece.text] using hdx)
    · exact .inl ((hv (.word u) (by simp [hx])).2 d hdx)

/-- Behind an item that no word character prolongs, the pieces go on on their own. -/
theorem pieces_item_append {u s : List Char} (h : u ∈ (all Legacy.dottedName).language)
    (hs : startsWord s = false) : pieces (u ++ s) = pieces u ++ pieces s := by
  obtain ⟨w, rest, hu, _, hrest⟩ := isItem_pieces h
  have hlast : ∀ x ∈ (pieces u).getLast?, ∀ y ∈ (pieces s).head?, x.Apart y := by
    intro x hx
    have hmem : x ∈ pieces u := List.mem_of_getLast? hx
    rw [hu] at hmem
    rcases List.mem_cons.mp hmem with rfl | hmem
    · exact apart_word_pieces hs w
    · obtain rfl | ⟨v, rfl⟩ := hrest x hmem
      · exact fun _ _ _ => rfl
      · exact apart_word_pieces hs v
  have happ := pieces_textOf_append (divided_pieces u) hlast
  rwa [textOf_pieces] at happ

theorem item_starts {u : List Char} (h : u ∈ (all Legacy.dottedName).language) (s : List Char) :
    startsWord (u ++ s) = true ∧ startsBlank (u ++ s) = false := by
  obtain ⟨c, v, rfl, hc, _⟩ := mem_language_dottedName.mp h
  have hw := isWord_of_isNameStart hc
  exact ⟨hw, isBlank_of_isWord hw⟩

end Names

section Lists

variable {marks : List Char} {p : Pattern}

theorem mem_language_separated {q : List Pattern} {u : List Char} :
    u ∈ (all (Legacy.separator p ++ q)).language ↔
      ∃ g v g' x, u = g ++ (v ++ (g' ++ x)) ∧ (∀ c ∈ g, isBlank c = true) ∧ v ∈ p.language ∧
        (∀ c ∈ g', isBlank c = true) ∧ x ∈ (all q).language := by
  simp only [Legacy.separator, List.cons_append, List.nil_append, mem_language_all_cons, mem_language_many_blank]
  constructor
  · rintro ⟨g, _, rfl, hg, v, _, rfl, hv, g', x, rfl, hg', hx⟩
    exact ⟨g, v, g', x, rfl, hg, hv, hg', hx⟩
  · rintro ⟨g, v, g', x, rfl, hg, hv, hg', hx⟩
    exact ⟨g, _, rfl, hg, v, _, rfl, hv, g', x, rfl, hg', hx⟩

theorem mark_valid {d : Char} (h : d = ',' ∨ d = '&') : (Piece.symbol d).Valid := by
  rcases h with rfl | rfl <;> decide

/-- A separator and a name are an entry. -/
theorem entry_of_language (hmarks : ∀ d ∈ marks, d = ',' ∨ d = '&')
    (hp : ∀ v, v ∈ p.language ↔ ∃ d ∈ marks, v = [d]) {u : List Char}
    (hu : u ∈ (all (Legacy.separator p ++ Legacy.dottedName)).language) :
    ∃ e : Entry, e.mark ∈ marks ∧ ∀ s, startsWord s = false →
      startsWord (u ++ s) = false ∧ pieces (u ++ s) = e.pieces ++ pieces s := by
  obtain ⟨g, v, g', x, rfl, hg, hv, hg', hx⟩ := mem_language_separated.mp hu
  obtain ⟨d, hd, rfl⟩ := (hp v).mp hv
  have hd' := mark_valid (hmarks d hd)
  refine ⟨⟨gapOf g, d, gapOf g', pieces x, isGap_gapOf g, hmarks d hd, isGap_gapOf g', isItem_pieces hx⟩, hd, ?_⟩
  intro s hs
  have hassoc : g ++ ([d] ++ (g' ++ x)) ++ s = g ++ d :: (g' ++ (x ++ s)) := by simp
  have hblank : startsBlank (d :: (g' ++ (x ++ s))) = false := hd'.2
  rw [hassoc]
  refine ⟨startsWord_gap hg hd'.1, ?_⟩
  rw [pieces_gap_append hg hblank, pieces_symbol_cons hd', pieces_gap_append hg' (item_starts hx s).2,
    pieces_item_append hx hs]
  simp [Entry.pieces]

theorem entries_of_language (hmarks : ∀ d ∈ marks, d = ',' ∨ d = '&')
    (hp : ∀ v, v ∈ p.language ↔ ∃ d ∈ marks, v = [d]) {u : List Char}
    (hu : u ∈ (many (all (Legacy.separator p ++ Legacy.dottedName))).language) :
    ∃ es : List Entry, (∀ e ∈ es, e.mark ∈ marks) ∧ ∀ s, startsWord s = false →
      startsWord (u ++ s) = false ∧ pieces (u ++ s) = es.flatMap Entry.pieces ++ pieces s := by
  obtain ⟨us, rfl, hus⟩ := mem_language_many.mp hu
  induction us with
  | nil => exact ⟨[], by simp, fun s hs => ⟨hs, rfl⟩⟩
  | cons v us ih =>
    have hrest : ∀ w ∈ us, w ∈ (all (Legacy.separator p ++ Legacy.dottedName)).language :=
      fun w hw => hus w (by simp [hw])
    obtain ⟨es, hes, htail⟩ := ih hrest (mem_language_many.mpr ⟨us, rfl, hrest⟩)
    obtain ⟨e, he, hhead⟩ := entry_of_language hmarks hp (hus v (by simp))
    refine ⟨e :: es, ?_, ?_⟩
    · intro e' he'
      rcases List.mem_cons.mp he' with rfl | he'
      · exact he
      · exact hes e' he'
    · intro s hs
      obtain ⟨hstart, hpieces⟩ := htail s hs
      obtain ⟨hstart', hpieces'⟩ := hhead _ hstart
      rw [List.flatten_cons, List.append_assoc]
      exact ⟨hstart', by rw [hpieces', hpieces]; simp⟩

theorem mem_language_entry (hp : ∀ v, v ∈ p.language ↔ ∃ d ∈ marks, v = [d]) {e : Entry} (he : e.mark ∈ marks)
    (hv : ∀ x ∈ e.pieces, x.Valid) : textOf e.pieces ∈ (all (Legacy.separator p ++ Legacy.dottedName)).language := by
  refine mem_language_separated.mpr ⟨textOf e.before, [e.mark], textOf e.after, textOf e.item, ?_, ?_, ?_, ?_, ?_⟩
  · simp [Entry.pieces, Piece.text]
  · exact e.before_gap.blank fun x hx => hv x (by simp [Entry.pieces, hx])
  · exact (hp _).mpr ⟨e.mark, he, rfl⟩
  · exact e.after_gap.blank fun x hx => hv x (by simp [Entry.pieces, hx])
  · exact mem_language_item e.item_ok fun x hx => hv x (by simp [Entry.pieces, hx])

theorem mem_language_entries (hp : ∀ v, v ∈ p.language ↔ ∃ d ∈ marks, v = [d]) {es : List Entry}
    (hes : ∀ e ∈ es, e.mark ∈ marks) (hv : ∀ x ∈ es.flatMap Entry.pieces, x.Valid) :
    textOf (es.flatMap Entry.pieces) ∈ (many (all (Legacy.separator p ++ Legacy.dottedName))).language := by
  refine mem_language_many.mpr ⟨es.map fun e => textOf e.pieces, ?_, ?_⟩
  · induction es with
    | nil => rfl
    | cons e es ih =>
      rw [List.flatMap_cons, textOf_append, List.map_cons, List.flatten_cons,
        ih (fun e' he' => hes e' (by simp [he'])) fun x hx => hv x (by simp [hx])]
  · intro u hu
    obtain ⟨e, he, rfl⟩ := List.mem_map.mp hu
    exact mem_language_entry hp (hes e he) fun x hx => hv x (List.mem_flatMap.mpr ⟨e, he, hx⟩)

theorem mem_language_mark {d : Char} (v : List Char) : v ∈ (Pattern.char d).language ↔ ∃ c ∈ [d], v = [c] := by
  simp [mem_language_char]

theorem mem_language_marks (v : List Char) : v ∈ (among ",&").language ↔ ∃ d ∈ [',', '&'], v = [d] := by
  have hchars : ",&".toList = [',', '&'] := by decide
  rw [mem_language_among, hchars]

theorem commaList_eq :
    Legacy.commaList = Legacy.dottedName ++ (many (all (Legacy.separator (.char '&') ++ Legacy.dottedName)) ::
      (Legacy.separator (.char ',') ++ (Legacy.dottedName ++
        [many (all (Legacy.separator (among ",&") ++ Legacy.dottedName))]))) := by
  simp [Legacy.commaList]

/-- A list with a comma is an item and entries, one of them with a comma. -/
theorem commaList_of_language {u : List Char} (hu : u ∈ (all Legacy.commaList).language) :
    ∃ (item : List Piece) (es : List Entry), IsItem item ∧ (∃ e ∈ es, e.mark = ',') ∧
      ∀ s, startsBlank (u ++ s) = false ∧
        (startsWord s = false → pieces (u ++ s) = item ++ es.flatMap Entry.pieces ++ pieces s) := by
  rw [commaList_eq, mem_language_all_append] at hu
  obtain ⟨x, _, rfl, hx, hu⟩ := hu
  obtain ⟨y, _, rfl, hy, hu⟩ := mem_language_all_cons.mp hu
  rw [← List.append_assoc, mem_language_all_append] at hu
  obtain ⟨z, w, rfl, hz, hw⟩ := hu
  obtain ⟨es₁, _, h₁⟩ := entries_of_language (by simp) mem_language_mark hy
  obtain ⟨e, he, h₂⟩ := entry_of_language (by simp) mem_language_mark hz
  obtain ⟨es₂, _, h₃⟩ := entries_of_language (by simp) mem_language_marks hw
  refine ⟨pieces x, es₁ ++ e :: es₂, isItem_pieces hx, ⟨e, by simp, by simpa using he⟩, ?_⟩
  intro s
  have hassoc : x ++ (y ++ (z ++ w)) ++ s = x ++ (y ++ (z ++ (w ++ s))) := by simp
  rw [hassoc]
  refine ⟨(item_starts hx _).2, fun hs => ?_⟩
  obtain ⟨hs₃, hp₃⟩ := h₃ s hs
  obtain ⟨hs₂, hp₂⟩ := h₂ _ hs₃
  obtain ⟨hs₁, hp₁⟩ := h₁ _ hs₂
  rw [pieces_item_append hx hs₁, hp₁, hp₂, hp₃]
  simp

theorem split_at_comma {es : List Entry} (h : ∃ e ∈ es, e.mark = ',') :
    ∃ es₁ e es₂, es = es₁ ++ e :: es₂ ∧ (∀ e' ∈ es₁, e'.mark ∈ ['&']) ∧ e.mark ∈ [','] := by
  induction es with
  | nil => simp at h
  | cons e es ih =>
    rcases e.mark_separates with hm | hm
    · exact ⟨[], e, es, rfl, by simp, by simpa using hm⟩
    · have hrest : ∃ e' ∈ es, e'.mark = ',' := by simpa [hm] using h
      obtain ⟨es₁, e', es₂, rfl, hes, he⟩ := ih hrest
      refine ⟨e :: es₁, e', es₂, rfl, ?_, he⟩
      intro e'' he''
      rcases List.mem_cons.mp he'' with rfl | he''
      · simpa using hm
      · exact hes e'' he''

theorem mem_language_commaList {item : List Piece} {es : List Entry} (hitem : IsItem item)
    (hcomma : ∃ e ∈ es, e.mark = ',') (hv : ∀ x ∈ item ++ es.flatMap Entry.pieces, x.Valid) :
    textOf (item ++ es.flatMap Entry.pieces) ∈ (all Legacy.commaList).language := by
  obtain ⟨es₁, e, es₂, rfl, hes₁, he⟩ := split_at_comma hcomma
  have hes₂ : ∀ e' ∈ es₂, e'.mark ∈ [',', '&'] := fun e' _ => by simpa using e'.mark_separates
  rw [List.flatMap_append, List.flatMap_cons] at hv
  simp only [List.mem_append] at hv
  have hx := mem_language_item hitem fun x hx => hv x (.inl hx)
  have hy := mem_language_entries mem_language_mark hes₁ fun x hx => hv x (.inr (.inl hx))
  have hz := mem_language_entry mem_language_mark he fun x hx => hv x (.inr (.inr (.inl hx)))
  have hw := mem_language_entries mem_language_marks hes₂ fun x hx => hv x (.inr (.inr (.inr hx)))
  rw [commaList_eq, mem_language_all_append]
  refine ⟨_, textOf ((es₁ ++ e :: es₂).flatMap Entry.pieces), by simp, hx, mem_language_all_cons.mpr ?_⟩
  refine ⟨_, textOf (e.pieces ++ es₂.flatMap Entry.pieces), by simp, hy, ?_⟩
  rw [← List.append_assoc, mem_language_all_append]
  exact ⟨_, _, by simp, hz, hw⟩

end Lists

section Heads

/-- The pattern of a head after the edge in front of it. -/
def headRest : List Pattern :=
  Legacy.wordsOf ["resource", "struct", "contract"] :: opt (all (many1 blank :: Legacy.chars "interface")) ::
    many1 blank :: (Legacy.plainName ++ [many blank, .char ':', many blank])

theorem conformanceHead_eq : Legacy.conformanceHead = edge :: headRest := rfl

theorem mem_language_types {u : List Char} :
    u ∈ (Legacy.wordsOf ["resource", "struct", "contract"]).language ↔ u ∈ Word.types := by
  have htypes : ["resource", "struct", "contract"].map String.toList = Word.types := by decide
  rw [mem_language_wordsOf (by decide), ← htypes, List.mem_map]
  simp only [eq_comm]

theorem mem_language_middle {u : List Char} :
    u ∈ (opt (all (many1 blank :: Legacy.chars "interface"))).language ↔
      u = [] ∨ ∃ g, (Piece.blank g).Valid ∧ u = g ++ Word.interface := by
  have hchars : Legacy.chars "interface" = Word.interface.map .char := by decide
  rw [mem_language_opt, hchars, mem_language_all_cons]
  simp only [mem_language_many1_blank, mem_language_chars]
  constructor
  · rintro (rfl | ⟨g, _, rfl, hg, rfl⟩)
    · exact .inl rfl
    · exact .inr ⟨g, hg, rfl⟩
  · rintro (rfl | ⟨g, hg, rfl⟩)
    · exact .inl rfl
    · exact .inr ⟨g, _, rfl, hg, rfl⟩

/-- How a text of the pattern of a head is made up. -/
theorem mem_language_head {u : List Char} :
    u ∈ (all headRest).language ↔
      ∃ t o g n g₁ g₂, u = t ++ (o ++ (g ++ (n ++ (g₁ ++ ':' :: g₂)))) ∧ t ∈ Word.types ∧
        (o = [] ∨ ∃ g₀, (Piece.blank g₀).Valid ∧ o = g₀ ++ Word.interface) ∧ (Piece.blank g).Valid ∧
        ((Piece.word n).Valid ∧ opensName n = true) ∧ (∀ c ∈ g₁, isBlank c = true) ∧ ∀ c ∈ g₂, isBlank c = true := by
  simp only [headRest, mem_language_all_cons, mem_language_all_append, mem_language_types, mem_language_middle,
    mem_language_many1_blank, mem_language_plainName, mem_language_many_blank, mem_language_char,
    mem_language_all_nil]
  constructor
  · rintro ⟨t, _, rfl, ht, o, _, rfl, ho, g, _, rfl, hg, n, _, rfl, hn, g₁, _, rfl, hg₁, _, _, rfl, rfl, g₂,
      _, rfl, hg₂, rfl⟩
    exact ⟨t, o, g, n, g₁, g₂, by simp, ht, ho, hg, hn, hg₁, hg₂⟩
  · rintro ⟨t, o, g, n, g₁, g₂, rfl, ht, ho, hg, hn, hg₁, hg₂⟩
    exact ⟨t, _, rfl, ht, o, _, rfl, ho, g, _, rfl, hg, n, _, rfl, hn, g₁, _, rfl, hg₁, _, _, rfl, rfl, g₂,
      [], by simp, hg₂, rfl⟩

theorem types_valid : ∀ t ∈ Word.types, (Piece.word t).Valid := by decide

theorem pieces_word_blank {w g : List Char} (hw : (Piece.word w).Valid) (hg : (Piece.blank g).Valid) {s : List Char}
    (hs : startsBlank s = false) : pieces (w ++ (g ++ s)) = .word w :: .blank g :: pieces s := by
  rw [pieces_word_append hw (startsWord_of_blank hg.2 hg.1 s), pieces_gap_append hg.2 hs, gapOf, if_neg hg.1]
  rfl

/-- A text of the pattern of a head is a head. -/
theorem head_of_language {u : List Char} (hu : u ∈ (all headRest).language) :
    ∃ h : DeclarationHead, ∀ s, startsWord (u ++ s) = true ∧
      (startsBlank s = false → pieces (u ++ s) = h.pieces ++ pieces s) := by
  obtain ⟨t, o, g, n, g₁, g₂, rfl, ht, ho, hg, hn, hg₁, hg₂⟩ := mem_language_head.mp hu
  have htv := types_valid t ht
  have hcolon : (Piece.symbol ':').Valid := by decide
  have hstart (s : List Char) : startsWord (t ++ s) = true := by
    rw [startsWord_append htv.1]
    exact htv.startsWord
  have hname (s : List Char) (hs : startsBlank s = false) :
      pieces (n ++ (g₁ ++ ':' :: (g₂ ++ s))) = .word n :: (gapOf g₁ ++ .symbol ':' :: (gapOf g₂ ++ pieces s)) := by
    have hword : startsWord (':' :: (g₂ ++ s)) = false := hcolon.1
    have hblank : startsBlank (':' :: (g₂ ++ s)) = false := hcolon.2
    rw [pieces_word_append hn.1 (startsWord_gap hg₁ hword), pieces_gap_append hg₁ hblank,
      pieces_symbol_cons hcolon, pieces_gap_append hg₂ hs]
  have hnblank (s : List Char) : startsBlank (n ++ s) = false := by
    rw [startsBlank_append hn.1.1]
    exact hn.1.startsBlank
  rcases ho with rfl | ⟨g₀, hg₀, rfl⟩
  · refine ⟨⟨t, g, [], n, gapOf g₁, gapOf g₂, ht, .inl rfl, hn.2, isGap_gapOf _, isGap_gapOf _⟩, fun s => ?_⟩
    have hassoc : t ++ ([] ++ (g ++ (n ++ (g₁ ++ ':' :: g₂)))) ++ s = t ++ (g ++ (n ++ (g₁ ++ ':' :: (g₂ ++ s)))) := by
      simp
    rw [hassoc]
    refine ⟨hstart _, fun hs => ?_⟩
    rw [pieces_word_blank htv hg (hnblank _), hname s hs]
    simp [DeclarationHead.pieces, DeclarationHead.rest]
  · refine ⟨⟨t, g₀, [.word Word.interface, .blank g], n, gapOf g₁, gapOf g₂, ht, .inr ⟨g, rfl⟩, hn.2, isGap_gapOf _,
      isGap_gapOf _⟩, fun s => ?_⟩
    have hassoc : t ++ (g₀ ++ Word.interface ++ (g ++ (n ++ (g₁ ++ ':' :: g₂)))) ++ s =
        t ++ (g₀ ++ (Word.interface ++ (g ++ (n ++ (g₁ ++ ':' :: (g₂ ++ s)))))) := by
      simp
    have hi : (Piece.word Word.interface).Valid := by decide
    rw [hassoc]
    refine ⟨hstart _, fun hs => ?_⟩
    rw [pieces_word_blank htv hg₀ rfl, pieces_word_blank hi hg (hnblank _), hname s hs]
    simp [DeclarationHead.pieces, DeclarationHead.rest]

theorem mem_language_pieces_head (h : DeclarationHead) (hv : ∀ x ∈ h.pieces, x.Valid) :
    textOf h.pieces ∈ (all headRest).language := by
  have hname : (Piece.word h.name).Valid := hv _ (by simp [DeclarationHead.pieces, DeclarationHead.rest])
  have hgap : (Piece.blank h.gap).Valid := hv _ (by simp [DeclarationHead.pieces, DeclarationHead.rest])
  have hbefore := h.before_gap.blank fun x hx => hv x (by simp [DeclarationHead.pieces, DeclarationHead.rest, hx])
  have hafter := h.after_gap.blank fun x hx => hv x (by simp [DeclarationHead.pieces, DeclarationHead.rest, hx])
  refine mem_language_head.mpr ?_
  obtain hm | ⟨b, hm⟩ := h.middle_ok
  · refine ⟨h.opener, [], h.gap, h.name, textOf h.before, textOf h.after, ?_, h.opener_ok, .inl rfl, hgap,
      ⟨hname, h.name_ok⟩, hbefore, hafter⟩
    simp [DeclarationHead.pieces, DeclarationHead.rest, hm, Piece.text]
  · have hb : (Piece.blank b).Valid := hv _ (by simp [DeclarationHead.pieces, DeclarationHead.rest, hm])
    refine ⟨h.opener, h.gap ++ Word.interface, b, h.name, textOf h.before, textOf h.after, ?_, h.opener_ok,
      .inr ⟨h.gap, hgap, rfl⟩, hb, ⟨hname, h.name_ok⟩, hbefore, hafter⟩
    simp [DeclarationHead.pieces, DeclarationHead.rest, hm, Piece.text]

end Heads

section Reading

/-- A head and a list with a comma are a declaration. -/
theorem declaration_of_language {x₁ x₂ : List Char} (h₁ : x₁ ∈ (all headRest).language)
    (h₂ : x₂ ∈ (all Legacy.commaList).language) :
    ∃ l : CommaList, textOf l.head.pieces = x₁ ∧ textOf (l.item ++ l.entries.flatMap Entry.pieces) = x₂ ∧
      ∀ s, startsWord s = false → pieces (x₁ ++ (x₂ ++ s)) = l.pieces ++ pieces s := by
  obtain ⟨h, hhead⟩ := head_of_language h₁
  obtain ⟨item, es, hitem, hcomma, hlist⟩ := commaList_of_language h₂
  refine ⟨⟨h, item, es, hitem, hcomma⟩, ?_, ?_, ?_⟩
  · have hp := (hhead []).2 rfl
    rw [List.append_nil, pieces_nil, List.append_nil] at hp
    exact (pieces_eq_iff.mp hp).1.symm
  · have hp := (hlist []).2 rfl
    rw [List.append_nil, pieces_nil, List.append_nil] at hp
    exact (pieces_eq_iff.mp hp).1.symm
  · intro s hs
    rw [(hhead _).2 (hlist s).1, (hlist s).2 hs]
    simp [CommaList.pieces]

/-- A text that starts with a declaration up to the brace of its body. -/
structure DeclarationText (u x₁ x₂ g r : List Char) : Prop where
  eq : u = x₁ ++ (x₂ ++ (g ++ '\x7b' :: r))
  head : x₁ ∈ (all headRest).language
  list : x₂ ∈ (all Legacy.commaList).language
  gap : ∀ c ∈ g, isBlank c = true

theorem DeclarationText.pieces {u x₁ x₂ g r : List Char} (h : DeclarationText u x₁ x₂ g r) :
    ∃ (l : CommaList) (b r₀ : List Piece), textOf l.head.pieces = x₁ ∧
      textOf (l.item ++ l.entries.flatMap Entry.pieces) = x₂ ∧ OpensBody b ∧ textOf b = g ++ ['\x7b'] ∧
      Text.pieces u = l.pieces ++ (b ++ r₀) := by
  obtain ⟨rfl, h₁, h₂, hg⟩ := h
  obtain ⟨l, hx₁, hx₂, hl⟩ := declaration_of_language h₁ h₂
  have hv : (Piece.symbol '\x7b').Valid := by decide
  have hb : Text.pieces (g ++ '\x7b' :: r) = gapOf g ++ [.symbol '\x7b'] ++ Text.pieces r := by
    rw [pieces_gap_append hg rfl, pieces_symbol_cons hv]
    simp
  refine ⟨l, gapOf g ++ [.symbol '\x7b'], Text.pieces r, hx₁, hx₂, ⟨gapOf g, isGap_gapOf g, rfl⟩, ?_, ?_⟩
  · simp [textOf_gapOf, Piece.text]
  · rw [hl _ (startsWord_gap hg rfl), hb]

theorem declarationText_of_pieces (l : CommaList) {b r : List Piece} (hb : OpensBody b)
    (hdiv : Divided (l.pieces ++ (b ++ r))) :
    ∃ x₁ x₂ g, DeclarationText (textOf (l.pieces ++ (b ++ r))) x₁ x₂ g (textOf r) := by
  obtain ⟨g, hg, rfl⟩ := hb
  refine ⟨textOf l.head.pieces, textOf (l.item ++ l.entries.flatMap Entry.pieces), textOf g, ?_, ?_, ?_, ?_⟩
  · simp [CommaList.pieces, Piece.text]
  · exact mem_language_pieces_head l.head fun x hx => hdiv.valid x (by simp [CommaList.pieces, hx])
  · refine mem_language_commaList l.item_ok l.has_comma fun x hx => hdiv.valid x ?_
    simp only [CommaList.pieces, List.mem_append] at hx ⊢
    tauto
  · exact hg.blank fun x hx => hdiv.valid x (by simp [hx])

theorem DeclarationText.startsWord {u x₁ x₂ g r : List Char} (h : DeclarationText u x₁ x₂ g r) :
    startsWord u = true := by
  obtain ⟨rfl, h₁, _, _⟩ := h
  obtain ⟨_, hhead⟩ := head_of_language h₁
  exact (hhead _).1

theorem reach_conformanceList {a u : List Char} {cs : List Capture} {e : Place} :
    Reach (a ++ u).toArray Legacy.conformanceList ⟨a.length, cs⟩ e ↔
      endsWord a = false ∧ ∃ x₁ x₂ g r, DeclarationText u x₁ x₂ g r ∧
        e = ⟨(a ++ (x₁ ++ (x₂ ++ (g ++ ['\x7b'])))).length, cs⟩ := by
  have heq : Legacy.conformanceList =
      all (edge :: (headRest ++ (Legacy.commaList ++ [many blank, .char '\x7b']))) := by
    rw [Legacy.conformanceList, conformanceHead_eq]
    simp
  have htext : (all (headRest ++ (Legacy.commaList ++ [many blank, .char '\x7b']))).isTextual = true := by decide
  rw [heq, reach_edge_cons, reach_textual htext]
  simp only [mem_language_all_append, mem_language_all_cons, mem_language_all_nil, mem_language_many_blank,
    mem_language_char]
  constructor
  · rintro ⟨hedge, _, r, rfl, ⟨x₁, _, rfl, h₁, x₂, _, rfl, h₂, g, _, rfl, hg, _, _, rfl, rfl, rfl⟩, rfl⟩
    have hd : DeclarationText (x₁ ++ (x₂ ++ (g ++ (['\x7b'] ++ []))) ++ r) x₁ x₂ g r := ⟨by simp, h₁, h₂, hg⟩
    rw [hd.startsWord] at hedge
    exact ⟨by simpa using hedge, x₁, x₂, g, r, hd, rfl⟩
  · rintro ⟨ha, x₁, x₂, g, r, hd, rfl⟩
    refine ⟨by simp [ha, hd.startsWord], _, r, by rw [hd.eq]; simp, ?_, rfl⟩
    exact ⟨x₁, _, rfl, hd.head, x₂, _, rfl, hd.list, g, _, rfl, hd.gap, _, [], rfl, rfl, rfl⟩

theorem body_reads : Reads Legacy.conformanceList BodyAt := by
  refine .of_reach (by decide) (by decide) body_finds.opens ?_ ?_
  · intro a u e h
    obtain ⟨ha, x₁, x₂, g, r, hd, rfl⟩ := reach_conformanceList.mp h
    obtain ⟨l, b, r₀, hx₁, hx₂, hb, hbtext, hu⟩ := hd.pieces
    refine ⟨ha, l.pieces ++ b, [], r₀, by simpa using hu, ⟨l, b, hb, rfl, rfl⟩, ?_⟩
    simp [CommaList.pieces, ← hx₁, ← hx₂, hbtext]
  · rintro a m c r ha hdiv ⟨l, b, hb, rfl, rfl⟩
    rw [List.nil_append, List.append_assoc] at hdiv ⊢
    obtain ⟨x₁, x₂, g, hd⟩ := declarationText_of_pieces l hb hdiv
    exact ⟨_, reach_conformanceList.mpr ⟨ha, x₁, x₂, g, _, hd, rfl⟩⟩

/-- Where the pattern with groups gets to: in front of the body, with head and list taken. -/
theorem reach_conformance {a u : List Char} {e : Place} :
    Reach (a ++ u).toArray Legacy.conformance ⟨a.length, []⟩ e ↔
      endsWord a = false ∧ ∃ x₁ x₂ g r, DeclarationText u x₁ x₂ g r ∧
        e = ⟨(a ++ (x₁ ++ x₂)).length,
          [⟨2, (a ++ x₁).length, (a ++ (x₁ ++ x₂)).length⟩, ⟨1, a.length, (a ++ x₁).length⟩]⟩ := by
  have hhead : (all headRest).isTextual = true := by decide
  have hlist : (all Legacy.commaList).isTextual = true := by decide
  have hbody : (all [many blank, .char '\x7b']).isTextual = true := by decide
  rw [Legacy.conformance, conformanceHead_eq, reach_edge_group_cons hhead, reach_group_cons hhead]
  simp only [reach_group_cons hlist, reach_all_singleton, reach_ahead, reach_textual hbody, mem_language_all_cons,
    mem_language_all_nil, mem_language_many_blank, mem_language_char]
  constructor
  · rintro ⟨hedge, x₁, _, rfl, h₁, x₂, _, rfl, h₂, ⟨_, _, r, rfl, ⟨g, _, rfl, hg, _, _, rfl, rfl, rfl⟩, _⟩, rfl⟩
    have hd : DeclarationText (x₁ ++ (x₂ ++ (g ++ (['\x7b'] ++ []) ++ r))) x₁ x₂ g r := ⟨by simp, h₁, h₂, hg⟩
    rw [hd.startsWord] at hedge
    exact ⟨by simpa using hedge, x₁, x₂, g, r, hd, by simp⟩
  · rintro ⟨ha, x₁, x₂, g, r, hd, rfl⟩
    have hstart := hd.startsWord
    obtain ⟨rfl, h₁, h₂, hg⟩ := hd
    refine ⟨by simp [ha, hstart], x₁, _, rfl, h₁, x₂, _, rfl, h₂, ⟨_, g ++ ['\x7b'], r, by simp, ?_, rfl⟩, by simp⟩
    exact ⟨g, _, rfl, hg, _, [], rfl, rfl, rfl⟩

theorem conformance_reads : Reads Legacy.conformance ConformanceAt := by
  refine .of_reach (by decide) (by decide) conformance_finds.opens ?_ ?_
  · intro a u e h
    obtain ⟨ha, x₁, x₂, g, r, hd, rfl⟩ := reach_conformance.mp h
    obtain ⟨l, b, r₀, hx₁, hx₂, hb, _, hu⟩ := hd.pieces
    refine ⟨ha, l.pieces, b, r₀, hu, ⟨l, rfl, hb⟩, ?_⟩
    simp [CommaList.pieces, ← hx₁, ← hx₂]
  · rintro a m c r ha hdiv ⟨l, rfl, hb⟩
    obtain ⟨x₁, x₂, g, hd⟩ := declarationText_of_pieces l hb hdiv
    exact ⟨_, reach_conformance.mpr ⟨ha, x₁, x₂, g, _, hd, rfl⟩⟩

end Reading

end CadenceUplift
