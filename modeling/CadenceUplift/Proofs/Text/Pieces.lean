import CadenceUplift.Text.Class
import Mathlib.Data.List.Chain

namespace CadenceUplift.Text

/-- The codes of all blanks. -/
def blankCodes : List Nat :=
  [9, 10, 11, 12, 13, 28, 29, 30, 31, 32, 0x85, 0xa0, 0x1680, 0x2000, 0x2001, 0x2002, 0x2003, 0x2004,
    0x2005, 0x2006, 0x2007, 0x2008, 0x2009, 0x200a, 0x2028, 0x2029, 0x202f, 0x205f, 0x3000]

theorem mem_blankCodes {c : Char} (h : isBlank c = true) : c.toNat ∈ blankCodes := by
  simp only [isBlank, isSpace, Bool.or_eq_true, Bool.and_eq_true, decide_eq_true_eq, beq_iff_eq] at h
  simp only [blankCodes, List.mem_cons, List.not_mem_nil, or_false]
  omega

/-- No character is both a blank and a word character. -/
theorem isWord_of_isBlank {c : Char} (h : isBlank c = true) : isWord c = false := by
  have hnone : ∀ n ∈ blankCodes, isWord (Char.ofNat n) = false := by decide +kernel
  simpa using hnone c.toNat (mem_blankCodes h)

theorem isBlank_of_isWord {c : Char} (h : isWord c = true) : isBlank c = false := by
  cases hb : isBlank c with
  | false => rfl
  | true => simp [isWord_of_isBlank hb] at h

/-- The text starts with a word character. -/
def startsWord (s : List Char) : Bool := s.head?.any isWord

/-- The text ends in a word character. -/
def endsWord (s : List Char) : Bool := s.getLast?.any isWord

/-- The kinds of pieces. -/
inductive Kind where
  | word
  | blank
  | symbol
deriving DecidableEq, Repr

/-- A piece of a text. -/
inductive Piece where
  | word (w : List Char)
  | blank (b : List Char)
  | symbol (c : Char)
deriving DecidableEq, Repr

namespace Piece

/-- The characters of a piece. -/
def text : Piece → List Char
  | .word w => w
  | .blank b => b
  | .symbol c => [c]

/-- The characters of a piece are of its kind, and there is at least one. -/
def Valid : Piece → Prop
  | .word w => w ≠ [] ∧ ∀ c ∈ w, isWord c = true
  | .blank b => b ≠ [] ∧ ∀ c ∈ b, isBlank c = true
  | .symbol c => isWord c = false ∧ isBlank c = false

instance : (x : Piece) → Decidable x.Valid
  | .word w => decidable_of_iff ((!w.isEmpty && w.all isWord) = true) (by simp [Valid])
  | .blank b => decidable_of_iff ((!b.isEmpty && b.all isBlank) = true) (by simp [Valid])
  | .symbol c => inferInstanceAs (Decidable (isWord c = false ∧ isBlank c = false))

/-- The kind of a piece. -/
def kind : Piece → Kind
  | .word _ => .word
  | .blank _ => .blank
  | .symbol _ => .symbol

/-- Neighbouring pieces that could not be one. -/
def Apart (x y : Piece) : Prop := x.kind = y.kind → x.kind = .symbol

/-- The piece that a character is by itself. -/
def single (c : Char) : Piece := if isWord c then .word [c] else if isBlank c then .blank [c] else .symbol c

end Piece

/-- The text that pieces make up. -/
def textOf (xs : List Piece) : List Char := xs.flatMap Piece.text

/-- Puts a character in front of pieces: into the first one, if it can be part of that. -/
def push (c : Char) : List Piece → List Piece
  | .word w :: r => if isWord c then .word (c :: w) :: r else .single c :: .word w :: r
  | .blank b :: r => if isBlank c then .blank (c :: b) :: r else .single c :: .blank b :: r
  | r => .single c :: r

/-- A text in pieces. -/
def pieces (s : List Char) : List Piece := s.foldr push []

/-- Pieces that are those of the text they make up. -/
structure Divided (xs : List Piece) : Prop where
  valid : ∀ x ∈ xs, x.Valid
  apart : xs.IsChain Piece.Apart

@[simp] theorem textOf_nil : textOf [] = [] := rfl

@[simp] theorem textOf_cons (x : Piece) (xs : List Piece) : textOf (x :: xs) = x.text ++ textOf xs := rfl

@[simp] theorem textOf_append (xs ys : List Piece) : textOf (xs ++ ys) = textOf xs ++ textOf ys :=
  List.flatMap_append

@[simp] theorem pieces_nil : pieces [] = [] := rfl

@[simp] theorem pieces_cons (c : Char) (s : List Char) : pieces (c :: s) = push c (pieces s) := rfl

@[simp] theorem Piece.kind_word (w : List Char) : (Piece.word w).kind = .word := rfl

@[simp] theorem Piece.kind_blank (b : List Char) : (Piece.blank b).kind = .blank := rfl

@[simp] theorem Piece.kind_symbol (c : Char) : (Piece.symbol c).kind = .symbol := rfl

theorem Piece.kind_single (c : Char) :
    ((Piece.single c).kind = .word ↔ isWord c = true) ∧ ((Piece.single c).kind = .blank ↔ isBlank c = true) := by
  unfold Piece.single
  split
  next h => simp [h, isBlank_of_isWord h]
  next h => split <;> simp_all

theorem Piece.text_single (c : Char) : (Piece.single c).text = [c] := by
  unfold Piece.single
  split
  · rfl
  · split <;> rfl

theorem Piece.valid_single (c : Char) : (Piece.single c).Valid := by
  unfold Piece.single
  split
  next h => exact ⟨by simp, by simpa using h⟩
  next h =>
    split
    next hb => exact ⟨by simp, by simpa using hb⟩
    next hb => exact ⟨by simpa using h, by simpa using hb⟩

theorem Piece.Valid.text_ne_nil {x : Piece} (h : x.Valid) : x.text ≠ [] := by
  cases x with
  | word w => exact h.1
  | blank b => exact h.1
  | symbol c => simp [text]

theorem not_blank_of_kind {d : List Piece} (hvalid : ∀ x ∈ d, x.Valid) (hkind : ∀ x ∈ d, x.kind ≠ .blank) :
    ∀ c ∈ textOf d, isBlank c = false := by
  intro c hc
  obtain ⟨x, hx, hcx⟩ := List.mem_flatMap.mp hc
  have hv := hvalid x hx
  have hk := hkind x hx
  cases x with
  | word w => exact isBlank_of_isWord (hv.2 c hcx)
  | blank b => exact absurd rfl hk
  | symbol s =>
    rw [Piece.text, List.mem_singleton] at hcx
    rw [hcx]
    exact hv.2

theorem textOf_push (c : Char) (xs : List Piece) : textOf (push c xs) = c :: textOf xs := by
  unfold push
  split
  · split
    · rfl
    · simp [Piece.text_single]
  · split
    · rfl
    · simp [Piece.text_single]
  · simp [Piece.text_single]

theorem textOf_pieces (s : List Char) : textOf (pieces s) = s := by
  induction s with
  | nil => rfl
  | cons c s ih => rw [pieces_cons, textOf_push, ih]

/-- A character joins the first piece, or stands apart from it. -/
theorem push_cases (c : Char) (xs : List Piece) :
    (push c xs = .single c :: xs ∧ ∀ y ∈ xs.head?, Piece.Apart (.single c) y) ∨
      (∃ w r, xs = .word w :: r ∧ isWord c = true ∧ push c xs = .word (c :: w) :: r) ∨
      ∃ b r, xs = .blank b :: r ∧ isBlank c = true ∧ push c xs = .blank (c :: b) :: r := by
  cases xs with
  | nil => exact .inl ⟨rfl, by simp⟩
  | cons y r =>
    cases y with
    | word w =>
      by_cases h : isWord c = true
      · exact .inr (.inl ⟨w, r, rfl, h, by simp [push, h]⟩)
      · refine .inl ⟨by simp [push, h], ?_⟩
        simp [Piece.Apart, (Piece.kind_single c).1, h]
    | blank b =>
      by_cases h : isBlank c = true
      · exact .inr (.inr ⟨b, r, rfl, h, by simp [push, h]⟩)
      · refine .inl ⟨by simp [push, h], ?_⟩
        simp [Piece.Apart, (Piece.kind_single c).2, h]
    | symbol d => exact .inl ⟨rfl, by simp [Piece.Apart]⟩

theorem Divided.tail {x : Piece} {xs : List Piece} (h : Divided (x :: xs)) : Divided xs :=
  ⟨fun y hy => h.valid y (by simp [hy]), h.apart.tail⟩

theorem divided_cons {x : Piece} {xs : List Piece} :
    Divided (x :: xs) ↔ x.Valid ∧ (∀ y ∈ xs.head?, x.Apart y) ∧ Divided xs := by
  constructor
  · intro h
    exact ⟨h.valid x (by simp), (List.isChain_cons.mp h.apart).1, h.tail⟩
  · rintro ⟨hx, hap, h⟩
    refine ⟨?_, List.isChain_cons.mpr ⟨hap, h.apart⟩⟩
    intro y hy
    rcases List.mem_cons.mp hy with rfl | hy
    · exact hx
    · exact h.valid y hy

theorem divided_append {xs ys : List Piece} :
    Divided (xs ++ ys) ↔
      Divided xs ∧ Divided ys ∧ ∀ x ∈ xs.getLast?, ∀ y ∈ ys.head?, x.Apart y := by
  constructor
  · intro h
    obtain ⟨hx, hy, hap⟩ := List.isChain_append.mp h.apart
    exact ⟨⟨fun x hx => h.valid x (by simp [hx]), hx⟩, ⟨fun y hy => h.valid y (by simp [hy]), hy⟩, hap⟩
  · rintro ⟨hx, hy, hap⟩
    refine ⟨fun x h => ?_, List.isChain_append.mpr ⟨hx.apart, hy.apart, hap⟩⟩
    rcases List.mem_append.mp h with h | h
    · exact hx.valid x h
    · exact hy.valid x h

/-- At most one piece, of blanks. -/
def IsGap (g : List Piece) : Prop := g = [] ∨ ∃ b, g = [.blank b]

theorem divided_push (c : Char) {xs : List Piece} (h : Divided xs) : Divided (push c xs) := by
  obtain ⟨hp, hap⟩ | ⟨w, r, rfl, hc, hp⟩ | ⟨b, r, rfl, hc, hp⟩ := push_cases c xs
  · rw [hp]
    exact divided_cons.mpr ⟨Piece.valid_single c, hap, h⟩
  · obtain ⟨hv, hap, hr⟩ := divided_cons.mp h
    rw [hp]
    refine divided_cons.mpr ⟨⟨by simp, ?_⟩, hap, hr⟩
    simpa [hc] using hv.2
  · obtain ⟨hv, hap, hr⟩ := divided_cons.mp h
    rw [hp]
    refine divided_cons.mpr ⟨⟨by simp, ?_⟩, hap, hr⟩
    simpa [hc] using hv.2

theorem divided_pieces (s : List Char) : Divided (pieces s) := by
  induction s with
  | nil => exact ⟨by simp, by simp⟩
  | cons c s ih => exact divided_push c ih

theorem foldr_push_word {w : List Char} (hw : ∀ c ∈ w, isWord c = true) {v : List Char} {r : List Piece} :
    w.foldr push (.word v :: r) = .word (w ++ v) :: r := by
  induction w with
  | nil => rfl
  | cons c w ih =>
    have hc : isWord c = true := hw c (by simp)
    rw [List.foldr_cons, ih fun d hd => hw d (by simp [hd])]
    simp [push, hc]

theorem foldr_push_blank {w : List Char} (hw : ∀ c ∈ w, isBlank c = true) {v : List Char} {r : List Piece} :
    w.foldr push (.blank v :: r) = .blank (w ++ v) :: r := by
  induction w with
  | nil => rfl
  | cons c w ih =>
    have hc : isBlank c = true := hw c (by simp)
    rw [List.foldr_cons, ih fun d hd => hw d (by simp [hd])]
    simp [push, hc]

theorem push_of_apart {c : Char} {xs : List Piece} (h : ∀ y ∈ xs.head?, Piece.Apart (.single c) y) :
    push c xs = .single c :: xs := by
  obtain ⟨hp, _⟩ | ⟨w, r, rfl, hc, _⟩ | ⟨b, r, rfl, hc, _⟩ := push_cases c xs
  · exact hp
  · have hk := (Piece.kind_single c).1.mpr hc
    simpa [hk] using h (.word w) (by simp) hk
  · have hk := (Piece.kind_single c).2.mpr hc
    simpa [hk] using h (.blank b) (by simp) hk

/-- A piece in front of a text that cannot prolong it is the first piece of the whole. -/
theorem pieces_text_append {x : Piece} (hx : x.Valid) {s : List Char}
    (hs : ∀ y ∈ (pieces s).head?, x.Apart y) : pieces (x.text ++ s) = x :: pieces s := by
  cases x with
  | word w =>
    obtain ⟨v, c, rfl⟩ := (List.eq_nil_or_concat w).resolve_left hx.1
    have hc : Piece.single c = .word [c] := by simp [Piece.single, hx.2 c (by simp)]
    have hlast : push c (pieces s) = .word [c] :: pieces s := hc ▸ push_of_apart (by rw [hc]; exact hs)
    have hrest := foldr_push_word (w := v) (fun d hd => hx.2 d (by simp [hd])) (v := [c]) (r := pieces s)
    rw [← hlast] at hrest
    simpa [Piece.text, pieces] using hrest
  | blank b =>
    obtain ⟨v, c, rfl⟩ := (List.eq_nil_or_concat b).resolve_left hx.1
    have hb : isBlank c = true := hx.2 c (by simp)
    have hc : Piece.single c = .blank [c] := by simp [Piece.single, hb, isWord_of_isBlank hb]
    have hlast : push c (pieces s) = .blank [c] :: pieces s := hc ▸ push_of_apart (by rw [hc]; exact hs)
    have hrest := foldr_push_blank (w := v) (fun d hd => hx.2 d (by simp [hd])) (v := [c]) (r := pieces s)
    rw [← hlast] at hrest
    simpa [Piece.text, pieces] using hrest
  | symbol c =>
    have hc : Piece.single c = .symbol c := by simp [Piece.single, hx.1, hx.2]
    have hpush : push c (pieces s) = .single c :: pieces s := push_of_apart (by rw [hc]; exact hs)
    exact hpush.trans (by rw [hc])

/-- Divided lists are the pieces of what they make up. -/
theorem pieces_textOf {xs : List Piece} (h : Divided xs) : pieces (textOf xs) = xs := by
  induction xs with
  | nil => rfl
  | cons x xs ih =>
    obtain ⟨hx, hap, hxs⟩ := divided_cons.mp h
    have hrest := ih hxs
    rw [textOf_cons, pieces_text_append hx (by rwa [hrest]), hrest]

theorem pieces_eq_iff {s : List Char} {xs : List Piece} : pieces s = xs ↔ s = textOf xs ∧ Divided xs := by
  constructor
  · rintro rfl
    exact ⟨(textOf_pieces s).symm, divided_pieces s⟩
  · rintro ⟨rfl, h⟩
    exact pieces_textOf h

/-- Pieces in front of a text that does not prolong the last of them are the first pieces of the whole. -/
theorem pieces_textOf_append {xs : List Piece} (h : Divided xs) {s : List Char}
    (hs : ∀ x ∈ xs.getLast?, ∀ y ∈ (pieces s).head?, x.Apart y) : pieces (textOf xs ++ s) = xs ++ pieces s :=
  pieces_eq_iff.mpr ⟨by simp [textOf_pieces], divided_append.mpr ⟨h, divided_pieces s, hs⟩⟩

theorem startsWord_iff {s : List Char} : startsWord s = true ↔ ∃ w r, pieces s = .word w :: r := by
  cases s with
  | nil => simp [startsWord]
  | cons c s =>
    have hstart : startsWord (c :: s) = isWord c := rfl
    rw [hstart, pieces_cons]
    obtain ⟨hp, _⟩ | ⟨w, r, _, hc, hp⟩ | ⟨b, r, _, hc, hp⟩ := push_cases c (pieces s)
    · simp only [hp, List.cons.injEq, ↓existsAndEq, and_true]
      constructor
      · intro hc
        exact ⟨[c], by simp [Piece.single, hc]⟩
      · rintro ⟨w, hw⟩
        exact (Piece.kind_single c).1.mp (by rw [hw]; rfl)
    · simp [hp, hc]
    · simp [hp, isWord_of_isBlank hc]

/-- Stretches from the start of the same pieces are the same if they are equally long. -/
theorem append_inj_of_length {xs ys r r' : List Piece} (h : xs ++ r = ys ++ r') (hv : ∀ x ∈ xs ++ r, x.Valid)
    (hlen : (textOf xs).length = (textOf ys).length) : xs = ys ∧ r = r' := by
  have hpos {x : Piece} (hx : x.Valid) : 0 < x.text.length := List.length_pos_iff.mpr hx.text_ne_nil
  induction xs generalizing ys with
  | nil =>
    cases ys with
    | nil => exact ⟨rfl, h⟩
    | cons y ys =>
      have hy := hpos (hv y (by rw [h]; simp))
      simp only [textOf_nil, textOf_cons, List.length_nil, List.length_append] at hlen
      omega
  | cons x xs ih =>
    have hx := hpos (hv x (by simp))
    cases ys with
    | nil =>
      simp only [textOf_nil, textOf_cons, List.length_nil, List.length_append] at hlen
      omega
    | cons y ys =>
      obtain ⟨rfl, htail⟩ := List.cons.inj h
      obtain ⟨rfl, rfl⟩ := ih htail (fun z hz => hv z (by simp [hz])) (by simpa using hlen)
      exact ⟨rfl, rfl⟩

/-- No word character follows a word. -/
theorem Divided.startsWord_tail {w : List Char} {xs : List Piece} (h : Divided (.word w :: xs)) :
    startsWord (textOf xs) = false := by
  obtain ⟨_, hap, hxs⟩ := divided_cons.mp h
  cases hs : startsWord (textOf xs) with
  | false => rfl
  | true =>
    obtain ⟨v, r, hv⟩ := startsWord_iff.mp hs
    rw [pieces_textOf hxs] at hv
    have := hap (.word v) (by simp [hv])
    simp [Piece.Apart] at this

theorem endsWord_textOf {xs : List Piece} (h : ∀ x ∈ xs, x.Valid) :
    endsWord (textOf xs) = true ↔ ∃ w, xs.getLast? = some (.word w) := by
  rcases List.eq_nil_or_concat xs with rfl | ⟨ys, x, rfl⟩
  · simp [endsWord]
  · have hx : x.Valid := h x (by simp)
    simp only [endsWord, List.concat_eq_append, List.getLast?_append, List.getLast?_singleton,
      Option.some_or, Option.some.injEq]
    cases x with
    | word w =>
      have hw := hx.2 _ (List.getLast_mem hx.1)
      simp [Piece.text, List.getLast?_eq_some_getLast hx.1, hw]
    | blank b =>
      have hb := isWord_of_isBlank (hx.2 _ (List.getLast_mem hx.1))
      simp [Piece.text, List.getLast?_eq_some_getLast hx.1, hb]
    | symbol c => simp [Piece.text, hx.1]

theorem endsWord_suffix {a q : List Char} (h : q <:+ a) (ha : endsWord a = false) : endsWord q = false := by
  obtain ⟨p, rfl⟩ := h
  rcases List.eq_nil_or_concat q with rfl | ⟨v, c, rfl⟩
  · rfl
  · simpa [endsWord] using ha

/-- A word that nothing prolongs to the left starts a new piece. -/
theorem pieces_append {s u : List Char} (hs : endsWord s = false) (hu : startsWord u = true) :
    pieces (s ++ u) = pieces s ++ pieces u := by
  obtain ⟨w, r, hw⟩ := startsWord_iff.mp hu
  refine pieces_eq_iff.mpr ⟨by simp [textOf_pieces], divided_append.mpr ⟨divided_pieces s, divided_pieces u, ?_⟩⟩
  intro x hx y hy
  have hyw : y = .word w := by simpa [hw] using hy.symm
  have hxw : x.kind ≠ .word := by
    intro hk
    cases x with
    | word v =>
      have := (endsWord_textOf (divided_pieces s).valid).mpr ⟨v, hx⟩
      simp [textOf_pieces, hs] at this
    | blank b => simp at hk
    | symbol c => simp at hk
  intro hk
  exact absurd (hk.trans (by rw [hyw]; rfl)) hxw

theorem apart_word_pieces {s : List Char} (hs : startsWord s = false) (w : List Char) :
    ∀ y ∈ (pieces s).head?, (Piece.word w).Apart y := by
  intro y hy hk
  obtain ⟨r, hr⟩ := List.head?_eq_some_iff.mp hy
  cases y with
  | word v => simp [startsWord_iff.mpr ⟨v, r, hr⟩] at hs
  | blank b => simp at hk
  | symbol c => simp at hk

/-- The text starts with a blank. -/
def startsBlank (s : List Char) : Bool := s.head?.any isBlank

theorem startsBlank_of_pieces {s : List Char} {b : List Char} {r : List Piece} (h : pieces s = .blank b :: r) :
    startsBlank s = true := by
  obtain ⟨rfl, hdiv⟩ := pieces_eq_iff.mp h
  obtain ⟨c, v, rfl⟩ := List.exists_cons_of_ne_nil (hdiv.valid (.blank b) (by simp)).1
  exact (hdiv.valid (.blank (c :: v)) (by simp)).2 c (by simp)

theorem apart_blank_pieces {s : List Char} (hs : startsBlank s = false) (b : List Char) :
    ∀ y ∈ (pieces s).head?, (Piece.blank b).Apart y := by
  intro y hy hk
  obtain ⟨r, hr⟩ := List.head?_eq_some_iff.mp hy
  cases y with
  | word v => simp at hk
  | blank v => simp [startsBlank_of_pieces hr] at hs
  | symbol c => simp at hk

theorem pieces_word_append {w : List Char} (hw : (Piece.word w).Valid) {s : List Char} (hs : startsWord s = false) :
    pieces (w ++ s) = .word w :: pieces s :=
  pieces_text_append hw (apart_word_pieces hs w)

/-- Blanks as a gap. -/
def gapOf (g : List Char) : List Piece := if g = [] then [] else [.blank g]

theorem isGap_gapOf (g : List Char) : IsGap (gapOf g) := by
  unfold gapOf
  split
  · exact .inl rfl
  · exact .inr ⟨g, rfl⟩

theorem textOf_gapOf (g : List Char) : textOf (gapOf g) = g := by
  unfold gapOf
  split
  next h => simp [h]
  next => simp [Piece.text]

theorem pieces_gap_append {g : List Char} (hg : ∀ c ∈ g, isBlank c = true) {s : List Char}
    (hs : startsBlank s = false) : pieces (g ++ s) = gapOf g ++ pieces s := by
  unfold gapOf
  split
  next h => simp [h]
  next h => exact pieces_text_append (x := .blank g) ⟨h, hg⟩ (apart_blank_pieces hs g)

theorem pieces_symbol_cons {c : Char} (hc : (Piece.symbol c).Valid) (s : List Char) :
    pieces (c :: s) = .symbol c :: pieces s :=
  pieces_text_append (x := .symbol c) hc fun _ _ _ => rfl

theorem IsGap.blank {g : List Piece} (h : IsGap g) (hv : ∀ x ∈ g, x.Valid) : ∀ c ∈ textOf g, isBlank c = true := by
  obtain rfl | ⟨b, rfl⟩ := h
  · simp
  · simpa [Piece.text] using (hv (.blank b) (by simp)).2

end CadenceUplift.Text
