import CadenceUplift.Proofs.Construct.Conformance
import CadenceUplift.Proofs.Construct.Keyword
import CadenceUplift.Proofs.Construct.Member

namespace CadenceUplift

open Text Scanner

/-- A construct in code gives way to other pieces. -/
def EditOf (At out : List Piece → List Piece → Prop) (m m' r : List Lexeme) : Prop :=
  ∃ ps ps' c r₀, At ps c ∧ out ps ps' ∧ m = inCode ps ∧ m' = inCode ps' ∧ r = inCode c ++ r₀

/-- The pieces of the access modifier that replaces a keyword. -/
def accessPieces : List Piece :=
  [.word Word.access, .symbol '(', .word Word.all, .symbol ')', .blank [' ']]

/-- A keyword becomes an access modifier. -/
def KeywordEdit (b : Bool) : List Lexeme → List Lexeme → List Lexeme → Prop :=
  EditOf (KeywordAt b) fun _ ps' => ps' = accessPieces

/-- A member of an account gives way to a path from the account. -/
def MemberEdit (name : List Char) (call : Bool) (path : List Piece) :
    List Lexeme → List Lexeme → List Lexeme → Prop :=
  EditOf (MemberAt [name] call) fun _ ps' => ps' = .word Word.account :: .symbol '.' :: path

/-- The items of a conformance list are joined by ampersands. -/
def ConformanceEdit : List Lexeme → List Lexeme → List Lexeme → Prop :=
  EditOf ConformanceAt fun ps ps' => ∃ l : CommaList, ps = l.pieces ∧ ps' = l.joined

/-- A separator of conformances becomes an ampersand between single spaces. -/
def SeparatorEdit (m m' _r : List Lexeme) : Prop :=
  ∃ g d g', IsGap g ∧ (d = ',' ∨ d = '&') ∧ IsGap g' ∧ m = inCode (g ++ .symbol d :: g') ∧
    m' = inCode [.blank [' '], .symbol '&', .blank [' ']]

section Looking

variable {State : Type} {B : Scanner State} {look : Lexeme → Piece} {At out : List Piece → List Piece → Prop}

/-- Code is seen as it is. -/
def SeesCode (look : Lexeme → Piece) : Prop := ∀ x, look ⟨x, .code⟩ = x

theorem map_inCode (hl : SeesCode look) (xs : List Piece) : (inCode xs).map look = xs := by
  simp only [inCode, List.map_map]
  exact List.map_id'' (fun x => hl x) xs

theorem blocked_of_stops (hl : SeesCode look)
    (h : ∀ {ps ps' c}, At ps c → out ps ps' → ∃ x r y r', ps = x :: r ∧ ps' = y :: r' ∧ B.Stops x ∧ B.Stops y) :
    Blocked B look (EditOf At out) := by
  rintro m m' r ⟨ps, ps', c, r₀, hat, hout, rfl, rfl, rfl⟩ q
  obtain ⟨x, s, y, s', rfl, rfl, hx, hy⟩ := h hat hout
  simp only [List.map_append, map_inCode hl, List.cons_append, feed_go_cons, hx q, hy q, feed_fail, implies_true,
    and_self]

/-- An edit that no scanner state can tell, and in which nothing starts, leaves the hits as they are. -/
theorem hits_edited (hl : SeesCode look) (hu : Unseen B look (EditOf At out))
    (hold : ∀ {ps ps' c}, At ps c → out ps ps' → ∀ r, B.Silent ps (c ++ r))
    (hnew : ∀ {ps ps' c}, At ps c → out ps ps' → ∀ r, B.Silent ps' r) {ts ts' : List Lexeme} {n : Nat}
    (h : Edited (EditOf At out) ts ts' n) : hits B look ts = hits B look ts' := by
  have h0 := h.hits_eq hu (a := 0) ?_ ?_
  · simpa using h0
  · rintro m m' r ⟨ps, ps', c, r₀, hat, hout, rfl, rfl, rfl⟩
    rw [Nat.zero_add]
    refine hits_append ?_
    simpa only [List.map_append, map_inCode hl] using hold hat hout _
  · rintro m m' r r' ⟨ps, ps', c, r₀, hat, hout, rfl, rfl, rfl⟩ _
    refine hits_append ?_
    simpa only [map_inCode hl] using hnew hat hout _

/-- An edit of a construct takes one hit away. -/
theorem hits_edited_own (hl : SeesCode look) (hB : B.Finds At) (hu : Unseen B look (EditOf At out))
    (hnew : ∀ {ps ps' c}, At ps c → out ps ps' → ∀ r r', (∀ v, B.feed v (c ++ r) = B.feed v r') →
      B.Silent ps' r') {ts ts' : List Lexeme} {n : Nat}
    (h : Edited (EditOf At out) ts ts' n) : hits B look ts = n + hits B look ts' := by
  have h1 := h.hits_eq hu (a := 1) ?_ ?_
  · simpa using h1
  · rintro m m' r ⟨ps, ps', c, r₀, hat, hout, rfl, rfl, rfl⟩
    obtain ⟨w, ps, rfl⟩ := hB.opens hat
    have hacc := hB.accepts hat (r₀.map look)
    have hsil := hB.silent hat (r₀.map look)
    have hrest : hits B look (inCode ps ++ (inCode c ++ r₀)) = hits B look (inCode c ++ r₀) :=
      hits_append (by simpa only [List.map_append, map_inCode hl] using hsil)
    have hlook : look ⟨.word w, .code⟩ :: (inCode ps ++ (inCode c ++ r₀)).map look =
        .word w :: ps ++ (c ++ r₀.map look) := by
      simp only [List.map_append, map_inCode hl, hl (.word w), List.cons_append]
    change hits B look (⟨.word w, .code⟩ :: (inCode ps ++ (inCode c ++ r₀))) = _
    rw [hits_cons, hrest, hlook, hacc]
    simp
  · rintro m m' r r' ⟨ps, ps', c, r₀, hat, hout, rfl, rfl, rfl⟩ hv
    refine hits_append ?_
    simp only [List.map_append, map_inCode hl] at hv ⊢
    exact hnew hat hout _ _ hv

end Looking

section Stops

theorem keyword_stops {w : List Char} (hset : w ≠ Word.set) (hw : w ∉ Word.declarations) (a : Bool) :
    (keywordScanner a).Stops (.word w) := by
  intro q
  cases q <;> simp only [keywordScanner_step, keywordStep, hset, List.contains_iff_mem, hw, ↓reduceIte]

theorem member_stops {names : List (List Char)} {w : List Char} (hw : w ∉ names) (call : Bool) :
    (memberScanner names call).Stops (.word w) := by
  intro q
  cases q <;> simp only [memberScanner_step, memberStep, List.contains_iff_mem, hw, ↓reduceIte]

theorem keywordAt_cons {b : Bool} {ps c : List Piece} (h : KeywordAt b ps c) :
    ∃ r, ps = .word Word.pub :: r := by
  obtain ⟨g, kw, rfl, _, _⟩ := h
  cases b <;> exact ⟨_, rfl⟩

theorem keywordAt_words {b : Bool} {ps c : List Piece} (h : KeywordAt b ps c) {words : List (List Char)}
    (hw : ∀ w ∈ words, .word w ∉ keywordPieces b) : ∀ w ∈ words, .word w ∉ ps := by
  obtain ⟨g, kw, rfl, _, _⟩ := h
  intro w hmem
  simpa using hw w hmem

theorem memberAt_cons {names : List (List Char)} {call : Bool} {ps c : List Piece}
    (h : MemberAt names call ps c) : ∃ r, ps = .word Word.account :: r := by
  obtain ⟨w, _, rfl, _⟩ := h
  exact ⟨_, rfl⟩

variable {look : Lexeme → Piece}

theorem keyword_blocked_by_keyword (hl : SeesCode look) (a b : Bool) :
    Blocked (keywordScanner a) look (KeywordEdit b) := by
  refine blocked_of_stops hl ?_
  rintro ps _ c hat rfl
  obtain ⟨r, rfl⟩ := keywordAt_cons hat
  exact ⟨_, r, _, _, rfl, rfl, keyword_stops (by decide) (by decide) a, keyword_stops (by decide) (by decide) a⟩

theorem keyword_blocked_by_member (hl : SeesCode look) (a call : Bool) (name : List Char) (path : List Piece) :
    Blocked (keywordScanner a) look (MemberEdit name call path) := by
  refine blocked_of_stops hl ?_
  rintro ps _ c hat rfl
  obtain ⟨r, rfl⟩ := memberAt_cons hat
  have hstops : (keywordScanner a).Stops (.word Word.account) := keyword_stops (by decide) (by decide) a
  exact ⟨_, r, _, _, rfl, rfl, hstops, hstops⟩

theorem member_blocked_by_keyword (hl : SeesCode look) {names : List (List Char)}
    (hpub : Word.pub ∉ names) (haccess : Word.access ∉ names) (call b : Bool) :
    Blocked (memberScanner names call) look (KeywordEdit b) := by
  refine blocked_of_stops hl ?_
  rintro ps _ c hat rfl
  obtain ⟨r, rfl⟩ := keywordAt_cons hat
  exact ⟨_, r, _, _, rfl, rfl, member_stops hpub call, member_stops haccess call⟩

theorem member_blocked_by_member (hl : SeesCode look) {names : List (List Char)}
    (haccount : Word.account ∉ names) (call call' : Bool) (name : List Char) (path : List Piece) :
    Blocked (memberScanner names call) look (MemberEdit name call' path) := by
  refine blocked_of_stops hl ?_
  rintro ps _ c hat rfl
  obtain ⟨r, rfl⟩ := memberAt_cons hat
  exact ⟨_, r, _, _, rfl, rfl, member_stops haccount call, member_stops haccount call⟩

end Stops

section Conformances

variable {look : Lexeme → Piece}

/-- A word is never the end of a conformance list. -/
theorem conformance_step_word (q : ConformanceState) (w : List Char) :
    conformanceStep q (.word w) = .fail ∨
      (∃ b, conformanceStep q (.word w) = .go (.name b) ∧ (w ≠ Word.interface → b = false)) ∨
      ∃ c, conformanceStep q (.word w) = .go (.item c) := by
  cases q with
  | opener => exact .inl rfl
  | gap =>
    simp only [conformanceStep]
    split
    · exact .inr (.inl ⟨_, rfl, by simp⟩)
    · exact .inl rfl
  | name b => exact .inl rfl
  | named b =>
    simp only [conformanceStep]
    split
    · exact .inr (.inl ⟨_, rfl, by simp⟩)
    · exact .inl rfl
  | next c =>
    simp only [conformanceStep]
    split
    · exact .inr (.inr ⟨_, rfl⟩)
    · exact .inl rfl
  | item c => exact .inr (.inr ⟨_, rfl⟩)
  | after c => exact .inl rfl

theorem conformance_feed_word_bracket (q : ConformanceState) (w : List Char) (r : List Piece) :
    conformanceScanner.feed (.go q) (.word w :: .symbol '(' :: r) = .fail := by
  rw [feed_go_cons, conformanceScanner_step]
  obtain h | ⟨b, h, _⟩ | ⟨c, h⟩ := conformance_step_word q w <;> rw [h]
  · simp
  · simp [conformanceStep]
  · simp [conformanceStep, afterItem]

/-- A word other than `interface` cannot be followed by another one in a conformance list. -/
theorem conformance_feed_word_word (q : ConformanceState) {w : List Char} (hw : w ≠ Word.interface)
    (g v : List Char) (r : List Piece) :
    conformanceScanner.feed (.go q) (.word w :: .blank g :: .word v :: r) = .fail := by
  rw [feed_go_cons, conformanceScanner_step]
  obtain h | ⟨b, h, hb⟩ | ⟨c, h⟩ := conformance_step_word q w <;> rw [h]
  · simp
  · simp [conformanceStep, hb hw]
  · simp [conformanceStep]

/-- A dotted path is read as part of an item or not at all, whatever its length. -/
theorem conformance_feed_path (q : ConformanceState) (w : List Char) :
    ∃ u, ∀ rest, (∀ x ∈ rest, IsPart x) → ∀ r,
      conformanceScanner.feed (.go q) (.word w :: .symbol '.' :: (rest ++ r)) = conformanceScanner.feed u r := by
  simp only [feed_go_cons, conformanceScanner_step]
  obtain h | ⟨b, h, _⟩ | ⟨c, h⟩ := conformance_step_word q w <;> rw [h]
  · exact ⟨.fail, fun rest _ r => by simp⟩
  · exact ⟨.fail, fun rest _ r => by simp [conformanceStep]⟩
  · refine ⟨.go (.item c), fun rest hrest r => ?_⟩
    have hparts := conformance_feed_parts hrest c
    simp [conformanceStep, feed_append, hparts]

theorem conformance_blocked_by_keyword (hl : SeesCode look) (b : Bool) :
    Blocked conformanceScanner look (KeywordEdit b) := by
  rintro m m' r ⟨ps, ps', c, r₀, ⟨g, kw, rfl, _, rfl⟩, rfl, rfl, rfl, rfl⟩ q
  simp only [List.map_append, map_inCode hl, List.append_assoc]
  refine ⟨?_, fun r' => conformance_feed_word_bracket q _ _⟩
  cases b with
  | true => exact conformance_feed_word_bracket q _ _
  | false => exact conformance_feed_word_word q (by decide) g kw _

theorem conformance_unseen_by_member (hl : SeesCode look) {name : List Char} {call : Bool} {path : List Piece}
    (hpath : ∀ x ∈ path, IsPart x) : Unseen conformanceScanner look (MemberEdit name call path) := by
  rintro m m' r r' ⟨ps, ps', c, r₀, ⟨w, _, rfl, _⟩, rfl, rfl, rfl, rfl⟩ hr v
  simp only [List.map_append, map_inCode hl] at hr ⊢
  cases v with
  | fail => simp
  | accept => simp
  | go q =>
    obtain ⟨u, hu⟩ := conformance_feed_path q Word.account
    have hold := hu [.word w] (by simp [IsPart]) (c ++ r₀.map look)
    have hnew := hu path hpath (r'.map look)
    exact hold.trans ((hr u).trans hnew.symm)

theorem DeclarationHead.rest_start (h : DeclarationHead) : ∃ v r, h.rest = .blank h.gap :: .word v :: r := by
  obtain hm | ⟨b, hm⟩ := h.middle_ok <;> rw [DeclarationHead.rest, hm] <;> exact ⟨_, _, rfl⟩

theorem CommaList.pieces_start (l : CommaList) :
    ∃ v r, l.pieces = .word l.head.opener :: .blank l.head.gap :: .word v :: r := by
  obtain ⟨v, r, hr⟩ := l.head.rest_start
  exact ⟨v, r ++ l.item ++ l.entries.flatMap Entry.pieces, by simp [CommaList.pieces, DeclarationHead.pieces, hr]⟩

theorem CommaList.joined_start (l : CommaList) :
    ∃ v r, l.joined = .word l.head.opener :: .blank l.head.gap :: .word v :: r := by
  obtain ⟨v, r, hr⟩ := l.head.rest_start
  exact ⟨v, r ++ l.item ++ (l.entries.map Entry.joined).flatMap Entry.pieces,
    by simp [CommaList.joined, DeclarationHead.pieces, hr]⟩

theorem types_ne_interface : ∀ t ∈ Word.types, t ≠ Word.interface := by decide

theorem conformance_blocked_by_conformance (hl : SeesCode look) :
    Blocked conformanceScanner look ConformanceEdit := by
  rintro m m' r ⟨ps, ps', c, r₀, _, ⟨l, rfl, rfl⟩, rfl, rfl, rfl⟩ q
  simp only [List.map_append, map_inCode hl]
  obtain ⟨w, s, hs⟩ := l.pieces_start
  obtain ⟨w', s', hs'⟩ := l.joined_start
  have hne := types_ne_interface _ l.head.opener_ok
  rw [hs, hs']
  exact ⟨conformance_feed_word_word q hne _ w _, fun r' => conformance_feed_word_word q hne _ w' _⟩

end Conformances

section Separators

variable {State : Type} {B : Scanner State} {look : Lexeme → Piece}

/-- The scanner starts on words only, goes over no separator of conformances, and does not end on
blanks. -/
structure Heedless (B : Scanner State) : Prop where
  first_blank : ∀ b, B.first (.blank b) = none
  first_symbol : ∀ d, B.first (.symbol d) = none
  step_blank : ∀ q b, B.step q (.blank b) ≠ .accept
  step_mark : ∀ q d, d = ',' ∨ d = '&' → B.step q (.symbol d) = .fail

theorem keyword_heedless (a : Bool) : Heedless (keywordScanner a) where
  first_blank _ := rfl
  first_symbol _ := rfl
  step_blank q b := by cases q <;> simp [keywordStep]
  step_mark q d hd := by rcases hd with rfl | rfl <;> cases q <;> simp [keywordStep]

theorem member_heedless (names : List (List Char)) (call : Bool) : Heedless (memberScanner names call) where
  first_blank _ := rfl
  first_symbol _ := rfl
  step_blank q b := by cases q <;> simp [memberStep]
  step_mark q d hd := by rcases hd with rfl | rfl <;> cases q <;> simp [memberStep]

theorem Heedless.feed_separator (hB : Heedless B) {g : List Piece} (hg : IsGap g) {d : Char}
    (hd : d = ',' ∨ d = '&') (q : State) (r : List Piece) : B.feed (.go q) (g ++ .symbol d :: r) = .fail := by
  obtain rfl | ⟨b, rfl⟩ := hg
  · simp [hB.step_mark q d hd]
  · simp only [List.singleton_append, feed_go_cons]
    cases hq : B.step q (.blank b) with
    | fail => simp
    | accept => exact absurd hq (hB.step_blank q b)
    | go q' => simp [hB.step_mark q' d hd]

theorem Heedless.unseen (hB : Heedless B) (hl : SeesCode look) : Unseen B look SeparatorEdit := by
  rintro m m' r r' ⟨g, d, g', hg, hd, hg', rfl, rfl⟩ _ v
  simp only [List.map_append, map_inCode hl, List.append_assoc, List.cons_append]
  cases v with
  | fail => simp
  | accept => simp
  | go q =>
    rw [hB.feed_separator hg hd]
    exact (hB.feed_separator (g := [.blank [' ']]) (.inr ⟨_, rfl⟩) (.inr rfl) q _).symm

theorem Heedless.silent (hB : Heedless B) {g g' : List Piece} (hg : IsGap g) (hg' : IsGap g') (d : Char)
    (r : List Piece) : B.Silent (g ++ .symbol d :: g') r := by
  refine silent_of_first ?_
  intro x hx
  simp only [List.mem_append, List.mem_cons] at hx
  rcases hx with hx | rfl | hx
  · obtain rfl | ⟨b, rfl⟩ := hg
    · simp at hx
    · rw [List.mem_singleton.mp hx]; exact hB.first_blank b
  · exact hB.first_symbol d
  · obtain rfl | ⟨b, rfl⟩ := hg'
    · simp at hx
    · rw [List.mem_singleton.mp hx]; exact hB.first_blank b

theorem Edited.append {E : List Lexeme → List Lexeme → List Lexeme → Prop}
    (hE : ∀ {m m' r s}, E m m' r → E m m' (r ++ s)) {xs xs' ys ys' : List Lexeme} {j k : Nat}
    (hx : Edited E xs xs' j) (hy : Edited E ys ys' k) : Edited E (xs ++ ys) (xs' ++ ys') (j + k) := by
  induction hx with
  | nil => simpa using hy
  | keep x _ ih => exact .keep x ih
  | change he _ ih =>
    rw [List.append_assoc, List.append_assoc, Nat.add_right_comm]
    exact .change (hE he) ih

theorem edited_entries (es : List Entry) :
    Edited SeparatorEdit (inCode (es.flatMap Entry.pieces))
      (inCode ((es.map Entry.joined).flatMap Entry.pieces)) es.length := by
  induction es with
  | nil => exact .nil
  | cons e es ih =>
    have hmark : SeparatorEdit (inCode (e.before ++ .symbol e.mark :: e.after))
        (inCode [.blank [' '], .symbol '&', .blank [' ']])
        (inCode (e.item ++ es.flatMap Entry.pieces)) :=
      ⟨_, _, _, e.before_gap, e.mark_separates, e.after_gap, rfl, rfl⟩
    have hrest := Edited.append_left (inCode e.item) ih
    have hall := Edited.change hmark (by simpa [inCode] using hrest)
    simpa [inCode, Entry.pieces, Entry.joined, List.flatMap_map] using hall

/-- A rewrite of conformance lists changes nothing but separators. -/
theorem edited_separators {ts ts' : List Lexeme} {n : Nat} (h : Edited ConformanceEdit ts ts' n) :
    ∃ k, Edited SeparatorEdit ts ts' k := by
  induction h with
  | nil => exact ⟨0, .nil⟩
  | keep x _ ih =>
    obtain ⟨k, hk⟩ := ih
    exact ⟨k, .keep x hk⟩
  | change he _ ih =>
    obtain ⟨ps, ps', c, r₀, _, ⟨l, rfl, rfl⟩, rfl, rfl, rfl⟩ := he
    obtain ⟨k, hk⟩ := ih
    have hlist := Edited.append_left (inCode (l.head.pieces ++ l.item)) (edited_entries l.entries)
    have hall := Edited.append (E := SeparatorEdit) (fun h => h) hlist hk
    refine ⟨l.entries.length + k, ?_⟩
    simpa [inCode, CommaList.pieces, CommaList.joined] using hall

theorem Heedless.hits_edited (hB : Heedless B) (hl : SeesCode look) {ts ts' : List Lexeme} {n : Nat}
    (h : Edited ConformanceEdit ts ts' n) : hits B look ts = hits B look ts' := by
  obtain ⟨k, hk⟩ := edited_separators h
  have h0 := hk.hits_eq (hB.unseen hl) (a := 0) ?_ ?_
  · simpa using h0
  · rintro m m' r ⟨g, d, g', hg, _, hg', rfl, rfl⟩
    rw [Nat.zero_add]
    refine hits_append ?_
    rw [map_inCode hl]
    exact hB.silent hg hg' d _
  · rintro m m' r r' ⟨g, d, g', _, _, _, rfl, rfl⟩ _
    refine hits_append ?_
    rw [map_inCode hl]
    have hgap : IsGap [.blank [' ']] := .inr ⟨_, rfl⟩
    exact hB.silent hgap hgap '&' _

end Separators

section Silences

theorem keyword_silent_keyword {a b : Bool} (hab : a ≠ b) {ps c : List Piece} (h : KeywordAt b ps c)
    (r : List Piece) : (keywordScanner a).Silent ps r := by
  obtain ⟨g, kw, rfl, _, rfl⟩ := h
  have hset : Word.set ≠ Word.pub := by decide
  cases a <;> cases b
  · exact absurd rfl hab
  · exact ⟨accepts_of_opens (keywordScanner_first _) (by simp [keywordStep]),
      silent_of_words (keywordScanner_first _) (by simp [hset.symm]) r⟩
  · exact ⟨accepts_of_opens (keywordScanner_first _) (by simp [keywordStep]),
      silent_of_words (keywordScanner_first _) (by simp) r⟩
  · exact absurd rfl hab

/-- The scanner starts nowhere within an edited stretch, neither within the old one nor within the new one. -/
structure SilentIn {State : Type} (B : Scanner State) (At out : List Piece → List Piece → Prop) : Prop where
  old : ∀ {ps ps' c}, At ps c → out ps ps' → ∀ r, B.Silent ps (c ++ r)
  new : ∀ {ps ps' c}, At ps c → out ps ps' → ∀ r, B.Silent ps' r

theorem keyword_silentIn_keyword {a b : Bool} (hab : a ≠ b) :
    SilentIn (keywordScanner a) (KeywordAt b) fun _ ps' => ps' = accessPieces where
  old := by
    rintro ps _ c hat rfl r
    exact keyword_silent_keyword hab hat _
  new := by
    rintro ps _ c _ rfl r
    exact silent_of_words (keywordScanner_first a) (by decide) r

theorem conformance_silentIn_keyword (b : Bool) :
    SilentIn conformanceScanner (KeywordAt b) fun _ ps' => ps' = accessPieces where
  old := by
    rintro ps _ c hat rfl r
    exact silent_of_words conformanceScanner_first (keywordAt_words hat (by cases b <;> decide)) _
  new := by
    rintro ps _ c _ rfl r
    exact silent_of_words conformanceScanner_first (by decide) r

theorem member_silentIn_keyword (names : List (List Char)) (call b : Bool) :
    SilentIn (memberScanner names call) (KeywordAt b) fun _ ps' => ps' = accessPieces where
  old := by
    rintro ps _ c hat rfl r
    exact silent_of_words (memberScanner_first _ _) (keywordAt_words hat (by cases b <;> decide)) _
  new := by
    rintro ps _ c _ rfl r
    exact silent_of_words (memberScanner_first _ _) (by decide) r

/-- A path from an account whose first word is not looked for. -/
theorem member_silent_path {names : List (List Char)} {call : Bool} {w : List Char} (hw : w ∉ names)
    {rest : List Piece} (hrest : .word Word.account ∉ rest) (hne : w ≠ Word.account) (r : List Piece) :
    (memberScanner names call).Silent (.word Word.account :: .symbol '.' :: .word w :: rest) r := by
  refine ⟨accepts_of_opens (memberScanner_first _ _) ?_,
    silent_of_words (memberScanner_first _ _) (by simp [hne.symm, hrest]) r⟩
  simp [memberStep, hw]

theorem conformance_silent_joined (l : CommaList) {r : List Piece}
    (hitem : conformanceScanner.feed (.go (.item false)) r = .fail)
    (hopener : conformanceScanner.feed (.go .opener) r = .fail) : conformanceScanner.Silent l.joined r := by
  have hjoined : l.joined =
      .word l.head.opener :: (l.head.rest ++ (l.item ++ (l.entries.map Entry.joined).flatMap Entry.pieces)) := by
    simp [CommaList.joined, DeclarationHead.pieces]
  have hcomma : ((l.entries.map Entry.joined).any fun e => e.mark = ',') = false := by
    simp [Entry.joined]
  rw [hjoined]
  refine ⟨accepts_of_opens conformanceScanner_first ?_, conformance_silent_list l.head l.item_ok _ hopener⟩
  rw [List.append_assoc, List.append_assoc, feed_append, conformance_feed_head, feed_append,
    conformance_feed_item l.item_ok, feed_append, conformance_feed_entries, hcomma]
  exact hitem

end Silences

/-- The members of an account that are rewritten. -/
inductive AccountMember where
  | save
  | load
  | borrow
  | copy
  | getCapability
deriving DecidableEq, Repr

namespace AccountMember

def name : AccountMember → List Char
  | .save => ['s', 'a', 'v', 'e']
  | .load => ['l', 'o', 'a', 'd']
  | .borrow => ['b', 'o', 'r', 'r', 'o', 'w']
  | .copy => ['c', 'o', 'p', 'y']
  | .getCapability => ['g', 'e', 't', 'C', 'a', 'p', 'a', 'b', 'i', 'l', 'i', 't', 'y']

/-- The member counts only where it is called. -/
def isCall : AccountMember → Bool
  | .getCapability => false
  | _ => true

/-- What the member becomes, after the dot. -/
def path : AccountMember → List Piece
  | .getCapability => [.word Word.capabilities, .symbol '.', .word Word.get]
  | m => [.word Word.storage, .symbol '.', .word m.name]

theorem name_injective {m m' : AccountMember} (h : m.name = m'.name) : m = m' := by
  cases m <;> cases m' <;> first | rfl | exact absurd h (by decide)

theorem path_eq (m : AccountMember) :
    ∃ w v, m.path = [.word w, .symbol '.', .word v] ∧ (w = Word.storage ∨ w = Word.capabilities) ∧
      (v = m.name ∨ v = Word.get) := by
  cases m <;> exact ⟨_, _, rfl, by simp, by simp⟩

end AccountMember

/-- The constructs that are rewritten piece by piece. -/
inductive Target where
  | keyword (bracketed : Bool)
  | conformance
  | member (m : AccountMember)
deriving DecidableEq, Repr

namespace Target

/-- How many of the construct start in code. -/
def hits (look : Lexeme → Piece) : Target → List Lexeme → Nat
  | .keyword b => CadenceUplift.hits (keywordScanner b) look
  | .conformance => CadenceUplift.hits conformanceScanner look
  | .member m => CadenceUplift.hits (memberScanner [m.name] m.isCall) look

/-- How the construct is rewritten. -/
def Edit : Target → List Lexeme → List Lexeme → List Lexeme → Prop
  | .keyword b => KeywordEdit b
  | .conformance => ConformanceEdit
  | .member m => MemberEdit m.name m.isCall m.path

variable {look : Lexeme → Piece} {ts ts' : List Lexeme} {n : Nat}

theorem path_silent (m m' : AccountMember) (call : Bool) (r : List Piece) :
    (memberScanner [m'.name] call).Silent (.word Word.account :: .symbol '.' :: m.path) r := by
  obtain ⟨w, v, hpath, hw, hv⟩ := m.path_eq
  have hw' : w ∉ [m'.name] := by
    rcases hw with rfl | rfl <;> cases m' <;> decide
  have hv' : Piece.word Word.account ∉ [.symbol '.', .word v] := by
    rcases hv with rfl | rfl
    · cases m <;> decide
    · decide
  have hne : w ≠ Word.account := by rcases hw with rfl | rfl <;> decide
  rw [hpath]
  exact member_silent_path hw' hv' hne r

theorem account_not_name (m : AccountMember) : Word.account ∉ [m.name] := by
  cases m <;> decide

theorem keyword_hits_own (hl : SeesCode look) (b : Bool) (h : Edited (KeywordEdit b) ts ts' n) :
    (keyword b).hits look ts = n + (keyword b).hits look ts' := by
  refine hits_edited_own hl (keyword_finds b) (keyword_blocked_by_keyword hl b b).unseen ?_ h
  rintro ps _ c _ rfl r r' _
  exact silent_of_words (keywordScanner_first b) (by decide) r'

theorem member_hits_own (hl : SeesCode look) (m : AccountMember)
    (h : Edited (MemberEdit m.name m.isCall m.path) ts ts' n) :
    (member m).hits look ts = n + (member m).hits look ts' := by
  have hacc := account_not_name m
  refine hits_edited_own hl (member_finds hacc m.isCall) (member_blocked_by_member hl hacc _ _ _ _).unseen ?_ h
  rintro ps _ c _ rfl r r' _
  exact path_silent m m _ r'

theorem conformance_hits_own (hl : SeesCode look) (h : Edited ConformanceEdit ts ts' n) :
    conformance.hits look ts = n + conformance.hits look ts' := by
  refine hits_edited_own hl conformance_finds (conformance_blocked_by_conformance hl).unseen ?_ h
  rintro ps _ c ⟨_, _, hc⟩ ⟨l, _, rfl⟩ r r' hr
  refine conformance_silent_joined l ?_ ?_
  · rw [← hr, conformance_feed_brace hc]
    rfl
  · rw [← hr, conformance_quiet_brace hc]

/-- A rewrite takes away as many of its constructs as it makes edits. -/
theorem hits_own (hl : SeesCode look) (t : Target) (h : Edited t.Edit ts ts' n) :
    t.hits look ts = n + t.hits look ts' := by
  cases t with
  | keyword b => exact keyword_hits_own hl b h
  | conformance => exact conformance_hits_own hl h
  | member m => exact member_hits_own hl m h

theorem hits_keyword_edit (hl : SeesCode look) {b : Bool} {u : Target} (hu : u ≠ keyword b)
    (h : Edited (KeywordEdit b) ts ts' n) : u.hits look ts = u.hits look ts' := by
  cases u with
  | keyword a =>
    have hsilent := keyword_silentIn_keyword fun hab : a = b => hu (by rw [hab])
    exact hits_edited hl (keyword_blocked_by_keyword hl a b).unseen hsilent.old hsilent.new h
  | conformance =>
    have hsilent := conformance_silentIn_keyword b
    exact hits_edited hl (conformance_blocked_by_keyword hl b).unseen hsilent.old hsilent.new h
  | member m =>
    have hpub : Word.pub ∉ [m.name] := by cases m <;> decide
    have haccess : Word.access ∉ [m.name] := by cases m <;> decide
    have hsilent := member_silentIn_keyword [m.name] m.isCall b
    exact hits_edited hl (member_blocked_by_keyword hl hpub haccess m.isCall b).unseen hsilent.old hsilent.new h

theorem hits_member_edit (hl : SeesCode look) {m : AccountMember} {u : Target} (hu : u ≠ member m)
    (h : Edited (MemberEdit m.name m.isCall m.path) ts ts' n) : u.hits look ts = u.hits look ts' := by
  cases u with
  | keyword a =>
    refine hits_edited hl (keyword_blocked_by_member hl a _ _ _).unseen ?_ ?_ h
    · rintro ps _ c ⟨w, hw, rfl, _⟩ rfl r
      rw [List.mem_singleton.mp hw]
      refine silent_of_words (keywordScanner_first a) ?_ _
      cases m <;> decide
    · rintro ps _ c _ rfl r
      refine silent_of_words (keywordScanner_first a) ?_ _
      cases m <;> decide
  | conformance =>
    have hpath : ∀ x ∈ m.path, IsPart x := by
      obtain ⟨w, v, hpath, _, _⟩ := m.path_eq
      simp [hpath, IsPart]
    refine hits_edited hl (conformance_unseen_by_member hl hpath) ?_ ?_ h
    · rintro ps _ c ⟨w, hw, rfl, _⟩ rfl r
      rw [List.mem_singleton.mp hw]
      refine silent_of_words conformanceScanner_first ?_ _
      cases m <;> decide
    · rintro ps _ c _ rfl r
      refine silent_of_words conformanceScanner_first ?_ _
      cases m <;> decide
  | member m' =>
    have hname : m.name ∉ [m'.name] := by
      intro hm
      exact hu (congrArg member (AccountMember.name_injective (List.mem_singleton.mp hm)).symm)
    have hne : m.name ≠ Word.account := by cases m <;> decide
    refine hits_edited hl (member_blocked_by_member hl (account_not_name m') _ _ _ _).unseen ?_ ?_ h
    · rintro ps _ c ⟨w, hw, rfl, _⟩ rfl r
      rw [List.mem_singleton.mp hw]
      exact member_silent_path hname (by simp) hne _
    · rintro ps _ c _ rfl r
      exact path_silent m m' _ r

/-- A rewrite neither makes nor hides any of the other constructs. -/
theorem hits_other (hl : SeesCode look) {t u : Target} (hu : u ≠ t) (h : Edited t.Edit ts ts' n) :
    u.hits look ts = u.hits look ts' := by
  cases t with
  | keyword b => exact hits_keyword_edit hl hu h
  | member m => exact hits_member_edit hl hu h
  | conformance =>
    cases u with
    | keyword a => exact (keyword_heedless a).hits_edited hl h
    | conformance => exact absurd rfl hu
    | member m => exact (member_heedless _ _).hits_edited hl h

end Target

end CadenceUplift
