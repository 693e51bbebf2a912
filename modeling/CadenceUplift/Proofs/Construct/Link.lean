import CadenceUplift.Proofs.Construct.Foretold

namespace CadenceUplift

open Text Scanner

/-- Where a scanner for link calls stands. -/
inductive LinkState where
  | opener
  | dot
  | name
  | named
  | args
  | closed
  | after
deriving DecidableEq, Repr

/-- How the scanner for link calls goes on. -/
def linkStep : LinkState → Piece → Progress LinkState
  | .opener, .symbol c => if c = '.' then .go .dot else .fail
  | .dot, .word w => if w = Word.link then .go .name else .fail
  | .name, .blank _ => .go .named
  | .name, .symbol c => if c = '<' then .go .args else if c = '(' then .accept else .fail
  | .named, .symbol c => if c = '<' then .go .args else if c = '(' then .accept else .fail
  | .args, x => if x = .symbol '>' then .go .closed else .go .args
  | .closed, .blank _ => .go .after
  | .closed, .symbol c => if c = '(' then .accept else .fail
  | .after, .symbol c => if c = '(' then .accept else .fail
  | _, _ => .fail

/-- Scans a link call. -/
def linkScanner : Scanner LinkState where
  first := opensAmong [Word.account] .opener
  step := linkStep

@[simp] theorem linkScanner_first : linkScanner.first = opensAmong [Word.account] .opener := rfl

@[simp] theorem linkScanner_step : linkScanner.step = linkStep := rfl

/-- Within brackets. -/
def LinkState.inside : LinkState → Bool
  | .args => true
  | _ => false

attribute [local simp] linkStep

section Edits

variable {m m' r r' : List Lexeme}

theorem link_encloses : Encloses linkScanner LinkState.inside (.symbol '>') where
  opens := by
    intro x q hq
    obtain ⟨w, _, rfl, _⟩ := opensAmong_eq_some.mp hq
    rfl
  stays := by
    intro q x hq hx
    cases q <;> simp_all [LinkState.inside]
  mark := by
    intro q d hq hd
    rcases hd with rfl | rfl <;> cases q <;> simp_all [LinkState.inside]
  blank := by
    intro q b hq
    cases q <;> simp_all [LinkState.inside]

theorem link_step_word {q : LinkState} (hq : q.inside = false) {w : List Char} (hw : w ≠ Word.link) :
    linkScanner.step q (.word w) = .fail := by
  cases q <;> simp_all [LinkState.inside]

theorem link_foretold_keyword {b : Bool} (he : KeywordEdit b m m' r) (h : Foretold linkScanner r r') :
    Foretold linkScanner (m ++ r) (m' ++ r') := by
  obtain ⟨_, _, c, r₀, ⟨g, kw, rfl, _, rfl⟩, rfl, rfl, rfl, rfl⟩ := he
  refine link_encloses.foretold ?_ (by decide) ?_ ?_ h
  · cases b <;> simp [keywordPieces]
  · intro q hq
    rw [accessPieces, feed_go_cons, link_step_word hq (by decide), feed_fail]
  · exact silent_of_words linkScanner_first (by decide)

theorem link_foretold_member {a : AccountMember} (he : MemberEdit a.name a.isCall a.path m m' r)
    (h : Foretold linkScanner r r') : Foretold linkScanner (m ++ r) (m' ++ r') := by
  obtain ⟨_, _, c, r₀, ⟨u, _, rfl, _⟩, rfl, rfl, rfl, rfl⟩ := he
  refine link_encloses.foretold ?_ ?_ ?_ ?_ h
  · simp [memberPieces]
  · cases a <;> decide
  · intro q hq
    rw [feed_go_cons, link_step_word hq (by decide), feed_fail]
  · intro r
    obtain ⟨w, v, hpath, hw, hv⟩ := a.path_eq
    have hlink : w ≠ Word.link := by rcases hw with rfl | rfl <;> decide
    have haccount : Piece.word Word.account ∉ [.symbol '.', .word w, .symbol '.', .word v] := by
      rcases hw with rfl | rfl <;> rcases hv with rfl | rfl <;> first | decide | (cases a <;> decide)
    rw [hpath]
    refine ⟨accepts_of_opens linkScanner_first ?_, silent_of_words linkScanner_first (by simpa using haccount) r⟩
    simp [hlink]

theorem link_foretold (t : Target) {ts ts' : List Lexeme} {n : Nat} (h : Edited t.Edit ts ts' n) :
    Foretold linkScanner ts ts' := by
  cases t with
  | keyword b => exact Edited.foretold link_foretold_keyword h
  | member a => exact Edited.foretold link_foretold_member h
  | conformance =>
    obtain ⟨k, hk⟩ := edited_separators h
    exact Edited.foretold (link_encloses.foretold_separator (.inr rfl)) hk

end Edits

section Shapes

variable {xs : List Piece}

/-- The type arguments of a link call, or none. -/
def LinkArgs (ps : List Piece) : Prop :=
  ps = [] ∨ ∃ A g, .symbol '>' ∉ A ∧ IsGap g ∧ ps = .symbol '<' :: (A ++ .symbol '>' :: g)

theorem link_feed_args {A : List Piece} (hA : .symbol '>' ∉ A) {g : List Piece} (hg : IsGap g) (r : List Piece) :
    linkScanner.feed (.go .args) (A ++ .symbol '>' :: (g ++ .symbol '(' :: r)) = .accept := by
  rw [feed_append, link_encloses.feed_inside rfl hA]
  obtain rfl | ⟨b, rfl⟩ := hg <;> simp

theorem link_accepts {g ps : List Piece} (hg : IsGap g) (hps : LinkArgs ps) (r : List Piece) :
    linkScanner.accepts (.word Word.account :: .symbol '.' :: .word Word.link :: (g ++ (ps ++ .symbol '(' :: r))) =
      true := by
  have hfirst : linkScanner.first (.word Word.account) = some .opener := by simp [opensAmong]
  refine accepts_cons.mpr ⟨.opener, hfirst, ?_⟩
  obtain rfl | ⟨A, g', hA, hg', rfl⟩ := hps
  · obtain rfl | ⟨b, rfl⟩ := hg <;> simp
  · have hargs := link_feed_args hA hg' r
    obtain rfl | ⟨b, rfl⟩ := hg <;> simpa using hargs

theorem link_inv_closed (h : linkScanner.feed (.go .closed) xs = .accept) :
    ∃ g r, IsGap g ∧ xs = g ++ .symbol '(' :: r := by
  obtain ⟨x, r, rfl, hx⟩ := feed_go_eq_accept.mp h
  cases x with
  | word w => simp at hx
  | symbol c =>
    by_cases hc : c = '('
    · exact ⟨[], r, .inl rfl, by rw [hc]; rfl⟩
    · simp [hc] at hx
  | blank b =>
    obtain ⟨y, r, rfl, hy⟩ := feed_go_eq_accept.mp hx
    cases y with
    | word w => simp at hy
    | blank b' => simp at hy
    | symbol c =>
      by_cases hc : c = '('
      · exact ⟨[.blank b], r, .inr ⟨b, rfl⟩, by rw [hc]; rfl⟩
      · simp [hc] at hy

theorem link_inv_named (h : linkScanner.feed (.go .named) xs = .accept) :
    ∃ ps r, LinkArgs ps ∧ xs = ps ++ .symbol '(' :: r := by
  obtain ⟨x, r, rfl, hx⟩ := feed_go_eq_accept.mp h
  cases x with
  | word w => simp at hx
  | blank b => simp at hx
  | symbol c =>
    by_cases hopen : c = '<'
    · subst hopen
      obtain ⟨A, r, rfl, hA, hclosed⟩ := link_encloses.inv_inside rfl hx
      obtain ⟨g, r, hg, rfl⟩ := link_inv_closed hclosed
      exact ⟨_, r, .inr ⟨A, g, hA, hg, rfl⟩, by simp⟩
    · by_cases hcall : c = '('
      · exact ⟨[], r, .inl rfl, by rw [hcall]; rfl⟩
      · simp [hopen, hcall] at hx

theorem link_inv_name (h : linkScanner.feed (.go .name) xs = .accept) :
    ∃ g ps r, IsGap g ∧ LinkArgs ps ∧ xs = g ++ (ps ++ .symbol '(' :: r) := by
  obtain ⟨x, r, rfl, hx⟩ := feed_go_eq_accept.mp h
  cases x with
  | word w => simp at hx
  | blank b =>
    obtain ⟨ps, r, hps, rfl⟩ := link_inv_named hx
    exact ⟨[.blank b], ps, r, .inr ⟨b, rfl⟩, hps, rfl⟩
  | symbol c =>
    have hnamed : linkScanner.feed (.go .named) (.symbol c :: r) = .accept := hx
    obtain ⟨ps, r', hps, hr⟩ := link_inv_named hnamed
    exact ⟨[], ps, r', .inl rfl, hps, hr⟩

theorem link_found (h : linkScanner.accepts xs = true) : ∃ g ps r, IsGap g ∧ LinkArgs ps ∧
    xs = .word Word.account :: .symbol '.' :: .word Word.link :: (g ++ (ps ++ .symbol '(' :: r)) := by
  cases xs with
  | nil => simp [accepts] at h
  | cons x xs =>
    obtain ⟨q, hq, hfeed⟩ := accepts_cons.mp h
    obtain ⟨w, hw, rfl, rfl⟩ := opensAmong_eq_some.mp hq
    obtain rfl := List.mem_singleton.mp hw
    have hopener : ∀ x, x ≠ .symbol '.' → linkScanner.step .opener x = .fail := by
      intro x hx
      cases x <;> simp_all
    have hdot : ∀ x, x ≠ .word Word.link → linkScanner.step .dot x = .fail := by
      intro x hx
      cases x <;> simp_all
    obtain ⟨r, rfl, hmember⟩ := (feed_expects hopener).mp hfeed
    obtain ⟨r, rfl, hname⟩ := (feed_expects hdot).mp hmember
    obtain ⟨g, ps, r, hg, hps, rfl⟩ := link_inv_name hname
    exact ⟨g, ps, r, hg, hps, rfl⟩

end Shapes

end CadenceUplift
