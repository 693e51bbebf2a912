import CadenceUplift.Proofs.Lexeme.Scanner
import CadenceUplift.Proofs.Text.Words

namespace CadenceUplift

open Text Scanner

/-- A character that may open a name. -/
def isNameStart (c : Char) : Bool := ('A' ≤ c && c ≤ 'Z') || ('a' ≤ c && c ≤ 'z') || c == '_'

/-- The word can be a name or the first part of one. -/
def opensName (w : List Char) : Bool := w.head?.any isNameStart

/-- Where a scanner for a conformance list stands. The flag `mayOpen` tells that the word just read was
`interface`, so that it need not be the name; `comma` tells that a comma has been read. -/
inductive ConformanceState where
  | opener
  | gap
  | name (mayOpen : Bool)
  | named (mayOpen : Bool)
  | next (comma : Bool)
  | item (comma : Bool)
  | after (comma : Bool)
deriving DecidableEq, Repr

/-- What a symbol after an item of a conformance list means. -/
def afterItem (comma : Bool) (d : Char) : Progress ConformanceState :=
  if d = ',' then .go (.next true)
  else if d = '&' then .go (.next comma)
  else if d = '\x7b' ∧ comma = true then .accept
  else .fail

/-- How the scanner for a conformance list goes on. -/
def conformanceStep : ConformanceState → Piece → Progress ConformanceState
  | .opener, .blank _ => .go .gap
  | .gap, .blank _ => .go .gap
  | .gap, .word w => if opensName w then .go (.name (w = Word.interface)) else .fail
  | .name b, .blank _ => .go (.named b)
  | .name _, .symbol d => if d = ':' then .go (.next false) else .fail
  | .named b, .blank _ => .go (.named b)
  | .named _, .symbol d => if d = ':' then .go (.next false) else .fail
  | .named b, .word w => if b = true ∧ opensName w = true then .go (.name false) else .fail
  | .next c, .blank _ => .go (.next c)
  | .next c, .word w => if opensName w then .go (.item c) else .fail
  | .item c, .word _ => .go (.item c)
  | .item c, .symbol d => if d = '.' then .go (.item c) else afterItem c d
  | .item c, .blank _ => .go (.after c)
  | .after c, .blank _ => .go (.after c)
  | .after c, .symbol d => afterItem c d
  | _, _ => .fail

/-- Scans a declaration whose conformance list has a comma, up to the brace of its body. -/
def conformanceScanner : Scanner ConformanceState where
  first := opensAmong Word.types .opener
  step := conformanceStep

@[simp] theorem conformanceScanner_first : conformanceScanner.first = opensAmong Word.types .opener := rfl

@[simp] theorem conformanceScanner_step : conformanceScanner.step = conformanceStep := rfl

attribute [local simp] conformanceStep

/-- A piece that may stand in a dotted name after its first word. -/
def IsPart (x : Piece) : Prop := x = .symbol '.' ∨ ∃ w, x = .word w

/-- The pieces of an item of a conformance list. -/
def IsItem (xs : List Piece) : Prop :=
  ∃ w rest, xs = .word w :: rest ∧ opensName w = true ∧ ∀ x ∈ rest, IsPart x

/-- An item of a conformance list with the separator before it. -/
structure Entry where
  before : List Piece
  mark : Char
  after : List Piece
  item : List Piece
  before_gap : IsGap before
  mark_separates : mark = ',' ∨ mark = '&'
  after_gap : IsGap after
  item_ok : IsItem item

namespace Entry

/-- The entry as it stands. -/
def pieces (e : Entry) : List Piece := e.before ++ .symbol e.mark :: e.after ++ e.item

/-- The entry with an ampersand between single spaces. -/
def joined (e : Entry) : Entry :=
  { e with
    before := [.blank [' ']]
    mark := '&'
    after := [.blank [' ']]
    before_gap := .inr ⟨_, rfl⟩
    mark_separates := .inr rfl
    after_gap := .inr ⟨_, rfl⟩ }

end Entry

/-- The head of a type declaration with conformances. -/
structure DeclarationHead where
  opener : List Char
  gap : List Char
  /-- The word `interface` and the blanks after it, if they are there. -/
  middle : List Piece
  name : List Char
  before : List Piece
  after : List Piece
  opener_ok : opener ∈ Word.types
  middle_ok : middle = [] ∨ ∃ b, middle = [.word Word.interface, .blank b]
  name_ok : opensName name = true
  before_gap : IsGap before
  after_gap : IsGap after

/-- The pieces of a head after its opening word. -/
def DeclarationHead.rest (h : DeclarationHead) : List Piece :=
  .blank h.gap :: h.middle ++ .word h.name :: h.before ++ .symbol ':' :: h.after

/-- The pieces of a head. -/
def DeclarationHead.pieces (h : DeclarationHead) : List Piece := .word h.opener :: h.rest

/-- A type declaration up to the end of a conformance list that has a comma. -/
structure CommaList where
  head : DeclarationHead
  item : List Piece
  entries : List Entry
  item_ok : IsItem item
  has_comma : ∃ e ∈ entries, e.mark = ','

namespace CommaList

/-- The declaration as it stands. -/
def pieces (c : CommaList) : List Piece := c.head.pieces ++ c.item ++ c.entries.flatMap Entry.pieces

/-- The declaration with its items joined by ampersands. -/
def joined (c : CommaList) : List Piece :=
  c.head.pieces ++ c.item ++ (c.entries.map Entry.joined).flatMap Entry.pieces

end CommaList

/-- What opens a body, perhaps after blanks. -/
def OpensBody (c : List Piece) : Prop := ∃ g, IsGap g ∧ c = g ++ [.symbol '\x7b']

/-- A declaration with a comma in its conformance list, in front of a body. -/
def ConformanceAt (m c : List Piece) : Prop := ∃ l : CommaList, m = l.pieces ∧ OpensBody c

/-- The same declaration up to the brace of its body. -/
def BodyAt (m c : List Piece) : Prop := ∃ (l : CommaList) (b : List Piece), OpensBody b ∧ m = l.pieces ++ b ∧ c = []

section Forward

theorem conformance_feed_parts {rest : List Piece} (h : ∀ x ∈ rest, IsPart x) (c : Bool) :
    conformanceScanner.feed (.go (.item c)) rest = .go (.item c) := by
  induction rest with
  | nil => rfl
  | cons x rest ih =>
    have hrest := ih fun y hy => h y (by simp [hy])
    obtain rfl | ⟨w, rfl⟩ := h x (by simp) <;> simpa using hrest

theorem conformance_feed_gap {g : List Piece} (hg : IsGap g) (c : Bool) :
    conformanceScanner.feed (.go (.next c)) g = .go (.next c) := by
  obtain rfl | ⟨b, rfl⟩ := hg <;> rfl

theorem conformance_feed_item {xs : List Piece} (h : IsItem xs) (c : Bool) :
    conformanceScanner.feed (.go (.next c)) xs = .go (.item c) := by
  obtain ⟨w, rest, rfl, hw, hrest⟩ := h
  simpa [hw] using conformance_feed_parts hrest c

/-- What follows an item is read the same with a gap before it and without. -/
theorem conformance_feed_after {g : List Piece} (hg : IsGap g) {d : Char} (hd : d ≠ '.') (c : Bool)
    (r : List Piece) :
    conformanceScanner.feed (.go (.item c)) (g ++ .symbol d :: r) = conformanceScanner.feed (afterItem c d) r := by
  obtain rfl | ⟨b, rfl⟩ := hg <;> simp [hd]

theorem conformance_feed_entry (e : Entry) (c : Bool) :
    conformanceScanner.feed (.go (.item c)) e.pieces = .go (.item (c || e.mark = ',')) := by
  have hmark : e.mark ≠ '.' ∧ afterItem c e.mark = .go (.next (c || e.mark = ',')) := by
    rcases e.mark_separates with h | h <;> simp [h, afterItem]
  rw [Entry.pieces, List.append_assoc, List.cons_append, conformance_feed_after e.before_gap hmark.1, hmark.2,
    feed_append, conformance_feed_gap e.after_gap, conformance_feed_item e.item_ok]

theorem conformance_feed_entries (es : List Entry) (c : Bool) :
    conformanceScanner.feed (.go (.item c)) (es.flatMap Entry.pieces) =
      .go (.item (c || es.any fun e => e.mark = ',')) := by
  induction es generalizing c with
  | nil => simp
  | cons e es ih => rw [List.flatMap_cons, feed_append, conformance_feed_entry, ih]; simp [Bool.or_assoc]

theorem conformance_feed_head (h : DeclarationHead) :
    conformanceScanner.feed (.go .opener) h.rest = .go (.next false) := by
  have hname (b : Bool) : conformanceScanner.feed (.go (.name b)) (h.before ++ .symbol ':' :: h.after) =
      .go (.next false) := by
    rw [← conformance_feed_gap h.after_gap false]
    obtain hg | ⟨g, hg⟩ := h.before_gap <;> rw [hg] <;> rfl
  have hok := h.name_ok
  obtain hm | ⟨b, hm⟩ := h.middle_ok
  · simpa [DeclarationHead.rest, hm, conformanceScanner, hok] using hname _
  · have hstep : conformanceStep .gap (.word Word.interface) = .go (.name true) := by decide
    have hlast : conformanceStep (.named true) (.word h.name) = .go (.name false) := by
      simp [hok]
    rw [← hname false, DeclarationHead.rest, hm]
    change conformanceScanner.feed (conformanceStep .gap (.word Word.interface)) _ = _
    rw [hstep]
    change conformanceScanner.feed (conformanceStep (.named true) (.word h.name)) _ = _
    rw [hlast]
    rfl

theorem conformance_feed_brace {b : List Piece} (h : OpensBody b) (c : Bool) (r : List Piece) :
    conformanceScanner.feed (.go (.item c)) (b ++ r) = if c then .accept else .fail := by
  obtain ⟨g, hg, rfl⟩ := h
  rw [List.append_assoc, List.singleton_append, conformance_feed_after hg (by decide)]
  cases c <;> simp [afterItem]

end Forward

section Backward

variable {xs : List Piece} {c : Bool}

theorem conformance_inv_next (hxs : Divided xs) (h : conformanceScanner.feed (.go (.next c)) xs = .accept) :
    ∃ g w r, IsGap g ∧ opensName w = true ∧ xs = g ++ .word w :: r ∧
      conformanceScanner.feed (.go (.item c)) r = .accept := by
  have hword {w : List Char} {r : List Piece}
      (h : conformanceScanner.feed (.go (.next c)) (.word w :: r) = .accept) :
      opensName w = true ∧ conformanceScanner.feed (.go (.item c)) r = .accept := by
    by_cases hw : opensName w = true
    · exact ⟨hw, by simpa [hw] using h⟩
    · simp [hw] at h
  obtain ⟨x, r, rfl, hx⟩ := feed_go_eq_accept.mp h
  cases x with
  | symbol d => simp at hx
  | word w => exact ⟨[], w, r, .inl rfl, (hword h).1, rfl, (hword h).2⟩
  | blank b =>
    have hr : conformanceScanner.feed (.go (.next c)) r = .accept := hx
    obtain ⟨y, r₀, rfl, hy⟩ := feed_go_eq_accept.mp hr
    cases y with
    | symbol d => simp at hy
    | blank b' => simpa [Piece.Apart] using (divided_cons.mp hxs).2.1 (.blank b') (by simp)
    | word w => exact ⟨[.blank b], w, r₀, .inr ⟨b, rfl⟩, (hword hr).1, rfl, (hword hr).2⟩

theorem afterItem_accept {d : Char} {r : List Piece}
    (h : conformanceScanner.feed (afterItem c d) r = .accept) :
    (d = ',' ∨ d = '&') ∧ conformanceScanner.feed (.go (.next (c || d = ','))) r = .accept ∨
      d = '\x7b' ∧ c = true := by
  unfold afterItem at h
  split at h
  next hd => exact .inl ⟨.inl hd, by simpa [hd] using h⟩
  next hd =>
    split at h
    next ha => exact .inl ⟨.inr ha, by simpa [ha] using h⟩
    next =>
      split at h
      next hb => exact .inr hb
      next => simp at h

/-- After a part of an item comes another one, or a separator, or the brace. -/
theorem conformance_inv_item (hxs : Divided xs) (h : conformanceScanner.feed (.go (.item c)) xs = .accept) :
    (∃ x r, IsPart x ∧ xs = x :: r ∧ conformanceScanner.feed (.go (.item c)) r = .accept) ∨
      (∃ g d r, IsGap g ∧ (d = ',' ∨ d = '&') ∧ xs = g ++ .symbol d :: r ∧
        conformanceScanner.feed (.go (.next (c || d = ','))) r = .accept) ∨
      c = true ∧ ∃ b r, OpensBody b ∧ xs = b ++ r := by
  obtain ⟨x, r, rfl, hx⟩ := feed_go_eq_accept.mp h
  cases x with
  | word w => exact .inl ⟨.word w, r, .inr ⟨w, rfl⟩, rfl, hx⟩
  | symbol d =>
    by_cases hd : d = '.'
    · subst hd
      exact .inl ⟨.symbol '.', r, .inl rfl, rfl, hx⟩
    · have hx : conformanceScanner.feed (afterItem c d) r = .accept := by
        simpa [hd] using hx
      rcases afterItem_accept hx with ⟨hsep, hr⟩ | ⟨rfl, hc⟩
      · exact .inr (.inl ⟨[], d, r, .inl rfl, hsep, rfl, hr⟩)
      · exact .inr (.inr ⟨hc, [.symbol '\x7b'], r, ⟨[], .inl rfl, rfl⟩, rfl⟩)
  | blank b =>
    have hr : conformanceScanner.feed (.go (.after c)) r = .accept := hx
    obtain ⟨y, r₀, rfl, hy⟩ := feed_go_eq_accept.mp hr
    cases y with
    | word w => simp at hy
    | blank b' => simpa [Piece.Apart] using (divided_cons.mp hxs).2.1 (.blank b') (by simp)
    | symbol d =>
      rcases afterItem_accept hy with ⟨hsep, hr⟩ | ⟨rfl, hc⟩
      · exact .inr (.inl ⟨[.blank b], d, r₀, .inr ⟨b, rfl⟩, hsep, rfl, hr⟩)
      · exact .inr (.inr ⟨hc, [.blank b, .symbol '\x7b'], r₀, ⟨[.blank b], .inr ⟨b, rfl⟩, rfl⟩, rfl⟩)

/-- What is accepted from within an item: the rest of the item, entries, and the brace. -/
theorem conformance_inv_entries (n : Nat) (hn : xs.length ≤ n) (hxs : Divided xs)
    (h : conformanceScanner.feed (.go (.item c)) xs = .accept) :
    ∃ (rest : List Piece) (es : List Entry) (b r : List Piece), (∀ x ∈ rest, IsPart x) ∧ OpensBody b ∧
      (c = true ∨ ∃ e ∈ es, e.mark = ',') ∧ xs = rest ++ es.flatMap Entry.pieces ++ (b ++ r) := by
  induction n generalizing xs c with
  | zero =>
    have hnil : xs = [] := List.length_eq_zero_iff.mp (by omega)
    simp [hnil] at h
  | succ n ih =>
    obtain ⟨x, r, hx, rfl, hr⟩ | ⟨g, d, r, hg, hd, rfl, hr⟩ | ⟨hc, b, r, hb, rfl⟩ := conformance_inv_item hxs h
    · obtain ⟨rest, es, b, r', hrest, hb, hcomma, rfl⟩ := ih (by simpa using hn) hxs.tail hr
      refine ⟨x :: rest, es, b, r', ?_, hb, hcomma, by simp⟩
      intro y hy
      rcases List.mem_cons.mp hy with rfl | hy
      · exact hx
      · exact hrest y hy
    · have hr' : Divided r := (divided_append.mp hxs).2.1.tail
      obtain ⟨g', w, r', hg', hw, rfl, hitem⟩ := conformance_inv_next hr' hr
      have hlen : r'.length ≤ n := by
        simp only [List.length_append, List.length_cons] at hn
        omega
      obtain ⟨rest, es, b, r'', hrest, hb, hcomma, rfl⟩ := ih hlen (divided_append.mp hr').2.1.tail hitem
      let e : Entry := ⟨g, d, g', .word w :: rest, hg, hd, hg', w, rest, rfl, hw, hrest⟩
      refine ⟨[], e :: es, b, r'', by simp, hb, ?_, by simp [e, Entry.pieces]⟩
      rcases hcomma with hcomma | ⟨e', he', hm⟩
      · rcases Bool.or_eq_true _ _ ▸ hcomma with hc | hc
        · exact .inl hc
        · exact .inr ⟨e, by simp, by simpa using hc⟩
      · exact .inr ⟨e', by simp [he'], hm⟩
    · exact ⟨[], [], b, r, by simp, hb, .inl hc, by simp⟩

/-- After a name comes the colon; after `interface` the name may still come. -/
theorem conformance_inv_name {b : Bool} (hxs : Divided xs)
    (h : conformanceScanner.feed (.go (.name b)) xs = .accept) :
    (∃ g r, IsGap g ∧ xs = g ++ .symbol ':' :: r ∧ conformanceScanner.feed (.go (.next false)) r = .accept) ∨
      b = true ∧ ∃ g w r, opensName w = true ∧ xs = .blank g :: .word w :: r ∧
        conformanceScanner.feed (.go (.name false)) r = .accept := by
  obtain ⟨x, r, rfl, hx⟩ := feed_go_eq_accept.mp h
  cases x with
  | word w => simp at hx
  | symbol d =>
    by_cases hd : d = ':'
    · subst hd
      exact .inl ⟨[], r, .inl rfl, rfl, hx⟩
    · simp [hd] at hx
  | blank g =>
    have hr : conformanceScanner.feed (.go (.named b)) r = .accept := hx
    obtain ⟨y, r₀, rfl, hy⟩ := feed_go_eq_accept.mp hr
    cases y with
    | blank g' => simpa [Piece.Apart] using (divided_cons.mp hxs).2.1 (.blank g') (by simp)
    | symbol d =>
      by_cases hd : d = ':'
      · subst hd
        exact .inl ⟨[.blank g], r₀, .inr ⟨g, rfl⟩, rfl, hy⟩
      · simp [hd] at hy
    | word w =>
      by_cases hw : b = true ∧ opensName w = true
      · exact .inr ⟨hw.1, g, w, r₀, hw.2, rfl, by simpa [hw] using hy⟩
      · simp [hw] at hy

theorem conformance_inv_opener (hxs : Divided xs) (h : conformanceScanner.feed (.go .opener) xs = .accept) :
    ∃ g w r, opensName w = true ∧ xs = .blank g :: .word w :: r ∧
      conformanceScanner.feed (.go (.name (w = Word.interface))) r = .accept := by
  obtain ⟨x, r, rfl, hx⟩ := feed_go_eq_accept.mp h
  cases x with
  | word w => simp at hx
  | symbol d => simp at hx
  | blank g =>
    have hr : conformanceScanner.feed (.go .gap) r = .accept := hx
    obtain ⟨y, r₀, rfl, hy⟩ := feed_go_eq_accept.mp hr
    cases y with
    | blank g' => simpa [Piece.Apart] using (divided_cons.mp hxs).2.1 (.blank g') (by simp)
    | symbol d => simp at hy
    | word w =>
      by_cases hw : opensName w = true
      · refine ⟨g, w, r₀, hw, rfl, ?_⟩
        have hstep : conformanceStep .gap (.word w) = .go (.name (w = Word.interface)) := by
          simp only [conformanceStep, hw, ↓reduceIte]
        rwa [conformanceScanner_step, hstep] at hy
      · have hstep : conformanceStep .gap (.word w) = .fail := by
          simp only [conformanceStep, hw, Bool.false_eq_true, ↓reduceIte]
        rw [conformanceScanner_step, hstep] at hy
        simp at hy

/-- What is accepted after an opening word is the rest of a head, and then items. -/
theorem conformance_inv_head {t : List Char} (ht : t ∈ Word.types) (hxs : Divided xs)
    (h : conformanceScanner.feed (.go .opener) xs = .accept) :
    ∃ (d : DeclarationHead) (w : List Char) (r : List Piece), d.opener = t ∧ opensName w = true ∧
      xs = d.rest ++ .word w :: r ∧ conformanceScanner.feed (.go (.item false)) r = .accept := by
  obtain ⟨g, w, r, hw, rfl, hr⟩ := conformance_inv_opener hxs h
  obtain ⟨g', r', hg', rfl, hr'⟩ | ⟨hi, g', v, r', hv, rfl, hr'⟩ := conformance_inv_name hxs.tail.tail hr
  · have hdiv : Divided r' := (divided_append.mp hxs.tail.tail).2.1.tail
    obtain ⟨g'', v, r'', hg'', hv, rfl, hitem⟩ := conformance_inv_next hdiv hr'
    exact ⟨⟨t, g, [], w, g', g'', ht, .inl rfl, hw, hg', hg''⟩, v, r'', rfl, hv,
      by simp [DeclarationHead.rest], hitem⟩
  · have hdiv := hxs.tail.tail.tail.tail
    obtain ⟨g₁, r₁, hg₁, rfl, hr₁⟩ | ⟨hf, _⟩ := conformance_inv_name hdiv hr'
    · have hdiv : Divided r₁ := (divided_append.mp hdiv).2.1.tail
      obtain ⟨g₂, u, r₂, hg₂, hu, rfl, hitem⟩ := conformance_inv_next hdiv hr₁
      have hw' : w = Word.interface := of_decide_eq_true hi
      exact ⟨⟨t, g, [.word Word.interface, .blank g'], v, g₁, g₂, ht, .inr ⟨g', rfl⟩, hv, hg₁, hg₂⟩, u, r₂,
        rfl, hu, by simp [DeclarationHead.rest, hw'], hitem⟩
    · simp at hf

end Backward

theorem CommaList.tail_pieces (c : CommaList) :
    c.pieces = .word c.head.opener :: (c.head.rest ++ (c.item ++ c.entries.flatMap Entry.pieces)) := by
  simp [CommaList.pieces, DeclarationHead.pieces]

theorem conformance_accepts (l : CommaList) {b : List Piece} (hb : OpensBody b) (r : List Piece) :
    conformanceScanner.accepts (l.pieces ++ (b ++ r)) = true := by
  have hcomma : (l.entries.any fun e => e.mark = ',') = true := by simpa using l.has_comma
  have hfirst : conformanceScanner.first (.word l.head.opener) = some .opener :=
    opensAmong_eq_some.mpr ⟨_, l.head.opener_ok, rfl, rfl⟩
  rw [l.tail_pieces, List.cons_append, List.append_assoc, List.append_assoc]
  refine accepts_cons.mpr ⟨.opener, hfirst, ?_⟩
  rw [feed_append, conformance_feed_head, feed_append, conformance_feed_item l.item_ok, feed_append,
    conformance_feed_entries, Bool.false_or, hcomma, conformance_feed_brace hb]
  rfl

theorem conformance_found {xs : List Piece} (hxs : Divided xs) (h : conformanceScanner.accepts xs = true) :
    ∃ (l : CommaList) (b r : List Piece), OpensBody b ∧ xs = l.pieces ++ (b ++ r) := by
  cases xs with
  | nil => simp [accepts] at h
  | cons x r =>
    obtain ⟨q, hq, hr⟩ := accepts_cons.mp h
    obtain ⟨t, ht, rfl, rfl⟩ := opensAmong_eq_some.mp hq
    obtain ⟨d, w, r', rfl, hw, rfl, hitem⟩ := conformance_inv_head ht hxs.tail hr
    have hdiv : Divided r' := (divided_append.mp hxs.tail).2.1.tail
    obtain ⟨rest, es, b, r'', hrest, hb, hcomma, rfl⟩ := conformance_inv_entries _ (Nat.le_refl _) hdiv hitem
    let l : CommaList := ⟨d, .word w :: rest, es, ⟨w, rest, rfl, hw, hrest⟩, by simpa using hcomma⟩
    exact ⟨l, b, r'', hb, by simp [l, CommaList.pieces, DeclarationHead.pieces]⟩

/-- A symbol after a word, perhaps with blanks between, keeps the word from opening a declaration. -/
theorem conformance_feed_symbol {g : List Piece} (hg : IsGap g) (d : Char) (r : List Piece) :
    conformanceScanner.feed (.go .opener) (g ++ .symbol d :: r) = .fail := by
  obtain rfl | ⟨b, rfl⟩ := hg <;> simp

theorem conformance_silent_word {w : List Char} {r : List Piece}
    (h : conformanceScanner.feed (.go .opener) r = .fail) : conformanceScanner.accepts (.word w :: r) = false :=
  accepts_of_opens rfl h

theorem conformance_silent_gap {g : List Piece} (hg : IsGap g) (r : List Piece) : conformanceScanner.Silent g r := by
  refine silent_of_first ?_
  obtain rfl | ⟨b, rfl⟩ := hg <;> simp [conformanceScanner, opensAmong]

theorem conformance_silent_parts {rest r : List Piece} (hrest : ∀ x ∈ rest, IsPart x)
    (h : conformanceScanner.feed (.go .opener) r = .fail) :
    conformanceScanner.feed (.go .opener) (rest ++ r) = .fail ∧ conformanceScanner.Silent rest r := by
  induction rest with
  | nil => exact ⟨h, trivial⟩
  | cons x rest ih =>
    obtain ⟨hfeed, hsilent⟩ := ih fun y hy => hrest y (by simp [hy])
    obtain rfl | ⟨w, rfl⟩ := hrest x (by simp)
    · exact ⟨by simp, accepts_of_first_none rfl _, hsilent⟩
    · exact ⟨by simp, conformance_silent_word hfeed, hsilent⟩

theorem conformance_silent_item {xs r : List Piece} (hxs : IsItem xs)
    (h : conformanceScanner.feed (.go .opener) r = .fail) : conformanceScanner.Silent xs r := by
  obtain ⟨w, rest, rfl, _, hrest⟩ := hxs
  obtain ⟨hfeed, hsilent⟩ := conformance_silent_parts hrest h
  exact ⟨conformance_silent_word hfeed, hsilent⟩

theorem conformance_quiet_brace {b : List Piece} (h : OpensBody b) (r : List Piece) :
    conformanceScanner.feed (.go .opener) (b ++ r) = .fail := by
  obtain ⟨g, hg, rfl⟩ := h
  simpa using conformance_feed_symbol hg '\x7b' r

theorem conformance_silent_separator {g g' : List Piece} (hg : IsGap g) (hg' : IsGap g') (d : Char)
    (r : List Piece) : conformanceScanner.Silent (g ++ .symbol d :: g') r :=
  silent_append.mpr ⟨conformance_silent_gap hg _, accepts_of_first_none rfl _, conformance_silent_gap hg' _⟩

/-- Items after separators: no declaration starts in them if none starts right after them. -/
theorem conformance_silent_entries (es : List Entry) {r : List Piece}
    (h : conformanceScanner.feed (.go .opener) r = .fail) :
    conformanceScanner.feed (.go .opener) (es.flatMap Entry.pieces ++ r) = .fail ∧
      conformanceScanner.Silent (es.flatMap Entry.pieces) r := by
  induction es with
  | nil => exact ⟨h, trivial⟩
  | cons e es ih =>
    refine ⟨?_, ?_⟩
    · simpa [Entry.pieces] using
        conformance_feed_symbol e.before_gap e.mark (e.after ++ (e.item ++ (es.flatMap Entry.pieces ++ r)))
    · rw [List.flatMap_cons, Entry.pieces]
      refine silent_append.mpr ⟨silent_append.mpr ⟨?_, conformance_silent_item e.item_ok ih.1⟩, ih.2⟩
      exact conformance_silent_separator e.before_gap e.after_gap e.mark _

theorem DeclarationHead.silent (h : DeclarationHead) (r : List Piece) :
    conformanceScanner.Silent h.rest r := by
  have hlast : conformanceScanner.Silent (.word h.name :: (h.before ++ .symbol ':' :: h.after)) r :=
    ⟨conformance_silent_word (by simpa using conformance_feed_symbol h.before_gap ':' (h.after ++ r)),
      conformance_silent_separator h.before_gap h.after_gap ':' r⟩
  have hmiddle (r : List Piece) : conformanceScanner.Silent h.middle r := by
    refine silent_of_first ?_
    obtain hm | ⟨b, hm⟩ := h.middle_ok
    · simp [hm]
    · have hi : conformanceScanner.first (.word Word.interface) = none := by decide
      rw [hm]
      simpa [conformanceScanner, opensAmong] using hi
  simp only [DeclarationHead.rest, List.append_assoc, List.cons_append]
  exact ⟨accepts_of_first_none rfl _, silent_append.mpr ⟨hmiddle _, by simpa using hlast⟩⟩

/-- Within a declaration, whatever its separators, no other one starts. -/
theorem conformance_silent_list (h : DeclarationHead) {xs : List Piece} (hxs : IsItem xs) (es : List Entry)
    {r : List Piece} (hr : conformanceScanner.feed (.go .opener) r = .fail) :
    conformanceScanner.Silent (h.rest ++ (xs ++ es.flatMap Entry.pieces)) r := by
  obtain ⟨hfeed, hsilent⟩ := conformance_silent_entries es hr
  exact silent_append.mpr ⟨h.silent _, silent_append.mpr ⟨conformance_silent_item hxs hfeed, hsilent⟩⟩

theorem conformance_finds : conformanceScanner.Finds ConformanceAt where
  opens := by
    rintro m c ⟨l, rfl, _⟩
    exact ⟨_, _, l.tail_pieces⟩
  accepts := by
    rintro m c ⟨l, rfl, hc⟩ r
    exact conformance_accepts l hc r
  found := by
    intro xs hxs h
    obtain ⟨l, b, r, hb, rfl⟩ := conformance_found hxs h
    exact ⟨l.pieces, b, r, rfl, l, rfl, hb⟩
  silent := by
    rintro x m c ⟨l, hm, hc⟩ r
    rw [l.tail_pieces] at hm
    rw [(List.cons.inj hm).2]
    exact conformance_silent_list l.head l.item_ok l.entries (conformance_quiet_brace hc r)

/-- A list up to the brace of the body is found by the same scanner. -/
theorem body_finds : conformanceScanner.Finds BodyAt where
  opens := by
    rintro m c ⟨l, b, _, rfl, _⟩
    exact ⟨_, _, by rw [l.tail_pieces]; rfl⟩
  accepts := by
    rintro m c ⟨l, b, hb, rfl, rfl⟩ r
    simpa using conformance_accepts l hb r
  found := by
    intro xs hxs h
    obtain ⟨l, b, r, hb, rfl⟩ := conformance_found hxs h
    exact ⟨l.pieces ++ b, [], r, by simp, l, b, hb, rfl, rfl⟩
  silent := by
    rintro x m c ⟨l, b, hb, hm, rfl⟩ r
    rw [l.tail_pieces] at hm
    rw [(List.cons.inj hm).2]
    refine silent_append.mpr ⟨conformance_silent_list l.head l.item_ok l.entries (conformance_quiet_brace hb _), ?_⟩
    obtain ⟨g, hg, rfl⟩ := hb
    exact conformance_silent_separator hg (.inl rfl) '\x7b' _

end CadenceUplift
