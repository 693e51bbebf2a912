import CadenceUplift.Proofs.Lexeme.Pass
import CadenceUplift.Proofs.Text.Words

namespace CadenceUplift

open Text Scanner

/-- Nothing but spaces and tabs. -/
def isSpaces (b : List Char) : Bool := b.all fun c => c == ' ' || c == '\t'

/-- What may follow the opening word in the name of a getter. -/
def goesOn : List Char → Bool
  | [] => true
  | c :: _ => ('A' ≤ c && c ≤ 'Z') || ('0' ≤ c && c ≤ '9') || c == '_'

/-- The name of a getter. -/
def isGetterName (w : List Char) : Bool :=
  Word.getters.any fun g => g.isPrefixOf w && goesOn (w.drop g.length)

/-- At most one piece, of spaces and tabs. -/
def IsSpaceGap (g : List Piece) : Prop := g = [] ∨ ∃ b, isSpaces b = true ∧ g = [.blank b]

/-- A getter without a view modifier, up to the colon of its type. -/
structure Getter where
  args : List Piece
  gap : List Char
  space : List Char
  name : List Char
  before : List Piece
  params : List Piece
  after : List Piece
  args_ok : ∀ x ∈ args, x ≠ .symbol ')' ∧ '\n' ∉ x.text
  gap_ok : isSpaces gap = true
  space_ok : isSpaces space = true
  name_ok : isGetterName name = true
  before_ok : IsSpaceGap before
  params_ok : ∀ x ∈ params, x ≠ .symbol ')'
  after_ok : IsSpaceGap after

namespace Getter

/-- The access modifier after its opening word. -/
def modifier (g : Getter) : List Piece := .symbol '(' :: (g.args ++ [.symbol ')', .blank g.gap])

/-- The signature after the word `fun`, without the colon. -/
def signature (g : Getter) : List Piece :=
  .blank g.space :: .word g.name :: (g.before ++ .symbol '(' :: (g.params ++ .symbol ')' :: g.after))

/-- The getter as it stands. -/
def pieces (g : Getter) : List Piece :=
  .word Word.access :: (g.modifier ++ .word Word.function :: (g.signature ++ [.symbol ':']))

/-- The getter with a view modifier. -/
def viewed (g : Getter) : List Piece :=
  .word Word.access :: (g.modifier ++
    .word Word.view :: .blank [' '] :: .word Word.function :: (g.signature ++ [.symbol ':']))

end Getter

/-- A getter without a view modifier. -/
def GetterAt (m c : List Piece) : Prop := c = [] ∧ ∃ g : Getter, m = g.pieces

/-- Where a scanner for getters stands. -/
inductive GetterState where
  | opener
  | args
  | closed
  | gap
  | function
  | space
  | name
  | named
  | params
  | done
  | after
deriving DecidableEq, Repr

/-- Goes on after spaces and tabs. -/
def overSpaces (b : List Char) (q : GetterState) : Progress GetterState := if isSpaces b then .go q else .fail

/-- How the scanner for getters goes on. -/
def getterStep : GetterState → Piece → Progress GetterState
  | .opener, .symbol c => if c = '(' then .go .args else .fail
  | .args, x => if x = .symbol ')' then .go .closed else if '\n' ∈ x.text then .fail else .go .args
  | .closed, .blank b => overSpaces b .gap
  | .gap, .word w => if w = Word.function then .go .function else .fail
  | .function, .blank b => overSpaces b .space
  | .space, .word w => if isGetterName w then .go .name else .fail
  | .name, .blank b => overSpaces b .named
  | .name, .symbol c => if c = '(' then .go .params else .fail
  | .named, .symbol c => if c = '(' then .go .params else .fail
  | .params, x => if x = .symbol ')' then .go .done else .go .params
  | .done, .blank b => overSpaces b .after
  | .done, .symbol c => if c = ':' then .accept else .fail
  | .after, .symbol c => if c = ':' then .accept else .fail
  | _, _ => .fail

/-- Scans a getter without a view modifier. -/
def getterScanner : Scanner GetterState where
  first := opensAmong [Word.access] .opener
  step := getterStep

@[simp] theorem getterScanner_first : getterScanner.first = opensAmong [Word.access] .opener := rfl

@[simp] theorem getterScanner_step : getterScanner.step = getterStep := rfl

section Forward

theorem getter_feed_args {xs : List Piece} (h : ∀ x ∈ xs, x ≠ .symbol ')' ∧ '\n' ∉ x.text) :
    getterScanner.feed (.go .args) xs = .go .args :=
  feed_stays fun x hx => by simp [getterStep, h x hx]

theorem getter_feed_params {xs : List Piece} (h : ∀ x ∈ xs, x ≠ .symbol ')') :
    getterScanner.feed (.go .params) xs = .go .params :=
  feed_stays fun x hx => by simp [getterStep, h x hx]

theorem getter_feed_modifier (g : Getter) : getterScanner.feed (.go .opener) g.modifier = .go .gap := by
  have hgap : getterStep .closed (.blank g.gap) = .go .gap := by simp [getterStep, overSpaces, g.gap_ok]
  rw [Getter.modifier, feed_go_cons, getterScanner_step, show getterStep .opener (.symbol '(') = .go .args from rfl,
    feed_append, getter_feed_args g.args_ok, feed_go_cons, getterScanner_step,
    show getterStep .args (.symbol ')') = .go .closed from rfl, feed_go_cons, getterScanner_step, hgap, feed_nil]

/-- The signature is read up to its last bracket or the blanks after it. -/
theorem getter_feed_signature (g : Getter) :
    getterScanner.feed (.go .function) g.signature = .go .done ∨
      getterScanner.feed (.go .function) g.signature = .go .after := by
  have hspace : getterStep .function (.blank g.space) = .go .space := by simp [getterStep, overSpaces, g.space_ok]
  have hname : getterStep .space (.word g.name) = .go .name := by simp [getterStep, g.name_ok]
  have hbefore (r : List Piece) :
      getterScanner.feed (.go .name) (g.before ++ .symbol '(' :: r) = getterScanner.feed (.go .params) r := by
    obtain hb | ⟨b, hb, hg⟩ := g.before_ok
    · rw [hb]; rfl
    · have hstep : getterStep .name (.blank b) = .go .named := by simp [getterStep, overSpaces, hb]
      rw [hg, List.singleton_append, feed_go_cons, getterScanner_step, hstep]
      rfl
  have hopen : getterScanner.feed (.go .function) g.signature = getterScanner.feed (.go .done) g.after := by
    rw [Getter.signature, feed_go_cons, getterScanner_step, hspace, feed_go_cons, getterScanner_step, hname, hbefore,
      feed_append, getter_feed_params g.params_ok]
    rfl
  obtain ha | ⟨b, hb, ha⟩ := g.after_ok
  · exact .inl (by rw [hopen, ha]; rfl)
  · have hstep : getterStep .done (.blank b) = .go .after := by simp [getterStep, overSpaces, hb]
    exact .inr (by rw [hopen, ha, feed_go_cons, getterScanner_step, hstep, feed_nil])

end Forward

section Backward

variable {xs : List Piece}

theorem overSpaces_accept {b : List Char} {q : GetterState} {r : List Piece}
    (h : getterScanner.feed (overSpaces b q) r = .accept) :
    isSpaces b = true ∧ getterScanner.feed (.go q) r = .accept := by
  unfold overSpaces at h
  split at h
  next hb => exact ⟨hb, h⟩
  next => simp at h

theorem getter_inv_args (h : getterScanner.feed (.go .args) xs = .accept) :
    ∃ A r, xs = A ++ .symbol ')' :: r ∧ (∀ x ∈ A, x ≠ .symbol ')' ∧ '\n' ∉ x.text) ∧
      getterScanner.feed (.go .closed) r = .accept := by
  refine feed_closes (q := GetterState.args) (p := fun x => '\n' ∉ x.text) ?_ h
  intro x hx
  by_cases hline : '\n' ∈ x.text
  · exact .inl (by simp [getterStep, hx, hline])
  · exact .inr ⟨hline, by simp [getterStep, hx, hline]⟩

theorem getter_inv_params (h : getterScanner.feed (.go .params) xs = .accept) :
    ∃ P r, xs = P ++ .symbol ')' :: r ∧ (∀ x ∈ P, x ≠ .symbol ')') ∧ getterScanner.feed (.go .done) r = .accept := by
  have hstep : ∀ x, x ≠ .symbol ')' → getterScanner.step .params x = .go .params := by
    intro x hx
    simp [getterStep, hx]
  obtain ⟨P, r, heq, hP, hr⟩ := feed_closes (p := fun _ => True) (fun x hx => .inr ⟨trivial, hstep x hx⟩) h
  exact ⟨P, r, heq, fun x hx => (hP x hx).1, hr⟩

/-- Where spaces and tabs have to stand, they do. -/
theorem getter_inv_spaces {q q' : GetterState} (hblank : ∀ b, getterStep q (.blank b) = overSpaces b q')
    (hother : ∀ x, x.kind ≠ .blank → getterStep q x = .fail) (h : getterScanner.feed (.go q) xs = .accept) :
    ∃ b r, xs = .blank b :: r ∧ isSpaces b = true ∧ getterScanner.feed (.go q') r = .accept := by
  obtain ⟨x, r, rfl, hx⟩ := feed_go_eq_accept.mp h
  rw [getterScanner_step] at hx
  cases x with
  | word w => simp [hother (.word w) (by simp)] at hx
  | symbol c => simp [hother (.symbol c) (by simp)] at hx
  | blank b =>
    rw [hblank] at hx
    obtain ⟨hb, hr⟩ := overSpaces_accept hx
    exact ⟨b, r, rfl, hb, hr⟩

theorem getter_inv_closed (h : getterScanner.feed (.go .closed) xs = .accept) :
    ∃ b r, xs = .blank b :: .word Word.function :: r ∧ isSpaces b = true ∧
      getterScanner.feed (.go .function) r = .accept := by
  have hclosed : ∀ x, x.kind ≠ .blank → getterStep .closed x = .fail := by
    intro x hx
    cases x <;> simp_all [getterStep]
  have hgap : ∀ x, x ≠ .word Word.function → getterScanner.step .gap x = .fail := by
    intro x hx
    cases x <;> simp_all [getterStep]
  obtain ⟨b, r, rfl, hb, hr⟩ := getter_inv_spaces (fun _ => rfl) hclosed h
  obtain ⟨r, rfl, hfunction⟩ := (feed_expects hgap).mp hr
  exact ⟨b, r, rfl, hb, hfunction⟩

theorem getter_inv_function (h : getterScanner.feed (.go .function) xs = .accept) :
    ∃ b w r, xs = .blank b :: .word w :: r ∧ isSpaces b = true ∧ isGetterName w = true ∧
      getterScanner.feed (.go .name) r = .accept := by
  have hfunction : ∀ x, x.kind ≠ .blank → getterStep .function x = .fail := by
    intro x hx
    cases x <;> simp_all [getterStep]
  obtain ⟨b, r, rfl, hb, hr⟩ := getter_inv_spaces (fun _ => rfl) hfunction h
  obtain ⟨y, r, rfl, hy⟩ := feed_go_eq_accept.mp hr
  cases y with
  | blank b' => simp [getterStep] at hy
  | symbol c => simp [getterStep] at hy
  | word w =>
    by_cases hw : isGetterName w = true
    · exact ⟨b, w, r, rfl, hb, hw, by simpa [getterStep, hw] using hy⟩
    · simp [getterStep, hw] at hy

/-- Where spaces and tabs may stand in front of a mark, they do or they do not. -/
theorem getter_inv_mark {q q' : GetterState} {d : Char} (hblank : ∀ b, getterStep q (.blank b) = overSpaces b q')
    (hother : ∀ x, x.kind ≠ .blank → x ≠ .symbol d → getterStep q x = .fail)
    (hbehind : ∀ x, x ≠ .symbol d → getterScanner.step q' x = .fail)
    (hsame : getterStep q' (.symbol d) = getterStep q (.symbol d)) (h : getterScanner.feed (.go q) xs = .accept) :
    ∃ g r, IsSpaceGap g ∧ xs = g ++ .symbol d :: r ∧ getterScanner.feed (getterStep q (.symbol d)) r = .accept := by
  obtain ⟨x, r, rfl, hx⟩ := feed_go_eq_accept.mp h
  rw [getterScanner_step] at hx
  by_cases hmark : x = .symbol d
  · subst hmark
    exact ⟨[], r, .inl rfl, rfl, hx⟩
  · cases x with
    | word w => simp [hother (.word w) (by simp) hmark] at hx
    | symbol c => simp [hother (.symbol c) (by simp) hmark] at hx
    | blank b =>
      rw [hblank] at hx
      obtain ⟨hb, hr⟩ := overSpaces_accept hx
      obtain ⟨r, rfl, hd⟩ := (feed_expects hbehind).mp hr
      exact ⟨[.blank b], r, .inr ⟨b, hb, rfl⟩, rfl, hsame ▸ hd⟩

theorem getter_inv_name (h : getterScanner.feed (.go .name) xs = .accept) :
    ∃ g r, IsSpaceGap g ∧ xs = g ++ .symbol '(' :: r ∧ getterScanner.feed (.go .params) r = .accept := by
  have hname : ∀ x, x.kind ≠ .blank → x ≠ .symbol '(' → getterStep .name x = .fail := by
    intro x hx hd
    cases x <;> simp_all [getterStep]
  have hnamed : ∀ x, x ≠ .symbol '(' → getterScanner.step .named x = .fail := by
    intro x hd
    cases x <;> simp_all [getterStep]
  exact getter_inv_mark (fun _ => rfl) hname hnamed rfl h

theorem getter_inv_done (h : getterScanner.feed (.go .done) xs = .accept) :
    ∃ g r, IsSpaceGap g ∧ xs = g ++ .symbol ':' :: r := by
  have hdone : ∀ x, x.kind ≠ .blank → x ≠ .symbol ':' → getterStep .done x = .fail := by
    intro x hx hd
    cases x <;> simp_all [getterStep]
  have hafter : ∀ x, x ≠ .symbol ':' → getterScanner.step .after x = .fail := by
    intro x hd
    cases x <;> simp_all [getterStep]
  obtain ⟨g, r, hg, heq, _⟩ := getter_inv_mark (fun _ => rfl) hdone hafter rfl h
  exact ⟨g, r, hg, heq⟩

theorem getter_found (h : getterScanner.accepts xs = true) : ∃ (g : Getter) (r : List Piece), xs = g.pieces ++ r := by
  cases xs with
  | nil => simp [accepts] at h
  | cons x r =>
    obtain ⟨q, hq, hr⟩ := accepts_cons.mp h
    obtain ⟨w, hw, rfl, rfl⟩ := opensAmong_eq_some.mp hq
    obtain rfl := List.mem_singleton.mp hw
    have hother : ∀ y, y ≠ .symbol '(' → getterScanner.step .opener y = .fail := by
      intro y hy
      cases y <;> simp_all [getterStep]
    obtain ⟨r, rfl, h₁⟩ := (feed_expects hother).mp hr
    obtain ⟨A, r, rfl, hA, h₂⟩ := getter_inv_args h₁
    obtain ⟨b, r, rfl, hb, h₃⟩ := getter_inv_closed h₂
    obtain ⟨b', v, r, rfl, hb', hv, h₄⟩ := getter_inv_function h₃
    obtain ⟨g, r, hg, rfl, h₅⟩ := getter_inv_name h₄
    obtain ⟨P, r, rfl, hP, h₆⟩ := getter_inv_params h₅
    obtain ⟨g', r, hg', rfl⟩ := getter_inv_done h₆
    exact ⟨⟨A, b, b', v, g, P, g', hA, hb, hb', hv, hg, hP, hg'⟩, r,
      by simp [Getter.pieces, Getter.modifier, Getter.signature]⟩

end Backward

theorem getter_feed_before_colon (g : Getter) :
    ∃ q, getterScanner.feed (.go .opener) (g.modifier ++ .word Word.function :: g.signature) = .go q ∧
      getterStep q (.symbol ':') = .accept := by
  have hfun : getterScanner.feed (.go .opener) (g.modifier ++ .word Word.function :: g.signature) =
      getterScanner.feed (.go .function) g.signature := by
    rw [feed_append, getter_feed_modifier]
    rfl
  rcases getter_feed_signature g with h | h <;> exact ⟨_, hfun.trans h, rfl⟩

theorem getter_accepts (g : Getter) (r : List Piece) : getterScanner.accepts (g.pieces ++ r) = true := by
  obtain ⟨q, hq, haccept⟩ := getter_feed_before_colon g
  have hfirst : getterScanner.first (.word Word.access) = some .opener := by
    rw [getterScanner_first]
    exact opensAmong_eq_some.mpr ⟨_, List.mem_singleton.mpr rfl, rfl, rfl⟩
  refine accepts_cons.mpr ⟨.opener, hfirst, ?_⟩
  have hsplit : g.modifier ++ .word Word.function :: (g.signature ++ [.symbol ':']) ++ r =
      (g.modifier ++ .word Word.function :: g.signature) ++ .symbol ':' :: r := by simp
  change getterScanner.feed (.go .opener) (g.modifier ++ .word Word.function :: (g.signature ++ [.symbol ':']) ++ r) = _
  rw [hsplit, feed_append, hq, feed_go_cons, getterScanner_step, haccept, feed_accept]

theorem Getter.pieces_eq (g : Getter) :
    g.pieces = .word Word.access :: (g.modifier ++ .word Word.function :: g.signature ++ [.symbol ':']) := by
  simp [Getter.pieces]

theorem Getter.eq_nil_of_longer {g g' : Getter} {a : List Piece} (h : g'.pieces = g.pieces ++ a) : a = [] := by
  rcases List.eq_nil_or_concat a with rfl | ⟨b, x, rfl⟩
  · rfl
  · rw [g.pieces_eq, g'.pieces_eq, List.concat_eq_append, List.cons_append, ← List.append_assoc] at h
    have hinit := (List.append_inj_left' (List.cons.inj h).2 rfl)
    obtain ⟨q, hq, haccept⟩ := getter_feed_before_colon g
    obtain ⟨q', hq', _⟩ := getter_feed_before_colon g'
    rw [hinit, feed_append, feed_append, hq, feed_go_cons, getterScanner_step, haccept, feed_accept, feed_accept] at hq'
    exact absurd hq' (by simp)

/-- A getter ends at one place. -/
theorem Getter.pieces_inj {g g' : Getter} {r r' : List Piece} (h : g.pieces ++ r = g'.pieces ++ r') :
    g.pieces = g'.pieces ∧ r = r' := by
  rcases List.append_eq_append_iff.mp h with ⟨a, ha, hr⟩ | ⟨a, ha, hr⟩
  · obtain rfl := Getter.eq_nil_of_longer ha
    exact ⟨by simpa using ha.symm, by simpa using hr⟩
  · obtain rfl := Getter.eq_nil_of_longer ha
    exact ⟨by simpa using ha, by simpa using hr.symm⟩

theorem getterAt_iff {xs : List Piece} :
    getterScanner.accepts xs = true ↔ ∃ m c r, xs = m ++ (c ++ r) ∧ GetterAt m c := by
  constructor
  · intro h
    obtain ⟨g, r, rfl⟩ := getter_found h
    exact ⟨g.pieces, [], r, rfl, rfl, g, rfl⟩
  · rintro ⟨_, _, r, rfl, rfl, g, rfl⟩
    exact getter_accepts g r

section Viewed

variable {xs r : List Piece}

/-- Brackets are left at their end only. -/
theorem getter_feed_args_fail (hxs : ∀ x ∈ xs, x ≠ .symbol ')') (hr : getterScanner.feed (.go .closed) r = .fail) :
    getterScanner.feed (.go .args) (xs ++ .symbol ')' :: r) = .fail := by
  induction xs with
  | nil => exact hr
  | cons x xs ih =>
    rw [List.cons_append, feed_go_cons, getterScanner_step, getterStep, if_neg (hxs x (by simp))]
    split
    · exact feed_fail _
    · exact ih fun y hy => hxs y (by simp [hy])

theorem getter_feed_params_fail (hxs : ∀ x ∈ xs, x ≠ .symbol ')') (hr : getterScanner.feed (.go .done) r = .fail) :
    getterScanner.feed (.go .params) (xs ++ .symbol ')' :: r) = .fail := by
  rw [feed_append, getter_feed_params hxs]
  exact hr

theorem getter_feed_opener_fail (hxs : ∀ x ∈ xs, x ≠ .symbol ')') (hr : getterScanner.feed (.go .closed) r = .fail) :
    getterScanner.feed (.go .opener) (xs ++ .symbol ')' :: r) = .fail := by
  cases xs with
  | nil => exact feed_fail r
  | cons x xs =>
    have htail : ∀ y ∈ xs, y ≠ .symbol ')' := fun y hy => hxs y (by simp [hy])
    have hrest := getter_feed_args_fail htail hr
    rw [List.cons_append, feed_go_cons, getterScanner_step]
    cases x with
    | word w => exact feed_fail _
    | blank b => exact feed_fail _
    | symbol c =>
      rw [getterStep]
      split
      · exact hrest
      · exact feed_fail _

theorem getter_silent_brackets (hxs : ∀ x ∈ xs, x ≠ .symbol ')') (hr : getterScanner.feed (.go .closed) r = .fail) :
    getterScanner.Silent xs (.symbol ')' :: r) := by
  induction xs with
  | nil => trivial
  | cons x xs ih =>
    have hrest : ∀ y ∈ xs, y ≠ .symbol ')' := fun y hy => hxs y (by simp [hy])
    exact ⟨accepts_of_opens rfl (getter_feed_opener_fail hrest hr), ih hrest⟩

/-- A view modifier is not what a getter goes on with, nor what its signature ends in. -/
theorem getter_feed_view (b : List Char) (r : List Piece) :
    getterScanner.feed (.go .closed) (.blank b :: .word Word.view :: r) = .fail ∧
      getterScanner.feed (.go .done) (.blank b :: .word Word.view :: r) = .fail := by
  have hview : getterStep .gap (.word Word.view) = .fail := by decide
  simp only [feed_go_cons, getterScanner_step, getterStep, overSpaces]
  constructor
  · split
    · rw [feed_go_cons, getterScanner_step, hview, feed_fail]
    · exact feed_fail _
  · split
    · exact feed_fail _
    · exact feed_fail _

theorem Getter.open_args (g : Getter) : ∀ x ∈ .symbol '(' :: g.args, x ≠ .symbol ')' := by
  intro x hx
  rcases List.mem_cons.mp hx with rfl | hx
  · decide
  · exact (g.args_ok x hx).1

theorem Getter.viewed_eq (g : Getter) :
    g.viewed = .word Word.access :: (.symbol '(' :: g.args ++ .symbol ')' :: .blank g.gap :: .word Word.view ::
      .blank [' '] :: .word Word.function :: (g.signature ++ [.symbol ':'])) := by
  simp [Getter.viewed, Getter.modifier]

/-- No state gets over a getter with a view modifier. -/
theorem getter_feed_viewed (g : Getter) (q : GetterState) (r : List Piece) :
    getterScanner.feed (.go q) (g.viewed ++ r) = .fail := by
  have haccess : getterStep q (.word Word.access) = .fail ∨ getterStep q (.word Word.access) = .go .args ∨
      getterStep q (.word Word.access) = .go .params := by
    cases q <;> decide
  obtain ⟨hclosed, hdone⟩ := getter_feed_view g.gap
    (.blank [' '] :: .word Word.function :: (g.signature ++ [.symbol ':'] ++ r))
  have hargs := getter_feed_args_fail g.open_args hclosed
  have hparams := getter_feed_params_fail g.open_args hdone
  rw [g.viewed_eq, List.cons_append, feed_go_cons, getterScanner_step]
  rcases haccess with h | h | h <;> rw [h]
  · exact feed_fail _
  · simpa using hargs
  · simpa using hparams

theorem getterName_ne_access {w : List Char} (h : isGetterName w = true) : w ≠ Word.access := by
  rintro rfl
  exact absurd h (by decide)

/-- The end of a signature keeps a word in its brackets from being a getter. -/
theorem getter_feed_colon {g : List Piece} (hg : IsSpaceGap g) (r : List Piece) :
    getterScanner.feed (.go .closed) (g ++ .symbol ':' :: r) = .fail := by
  obtain rfl | ⟨b, hb, rfl⟩ := hg
  · exact feed_fail r
  · have hstep : getterStep .closed (.blank b) = .go .gap := by simp [getterStep, overSpaces, hb]
    rw [List.singleton_append, feed_go_cons, getterScanner_step, hstep]
    exact feed_fail r

theorem getter_silent_gap {g : List Piece} (hg : IsSpaceGap g) (r : List Piece) : getterScanner.Silent g r := by
  refine silent_of_first ?_
  obtain rfl | ⟨b, _, rfl⟩ := hg
  · simp
  · simp [opensAmong]

theorem getter_silent_signature (g : Getter) (r : List Piece) :
    getterScanner.Silent (g.signature ++ [.symbol ':']) r := by
  have hname : getterScanner.first (.word g.name) = none := by
    rw [getterScanner_first]
    refine opensAmong_eq_none ?_
    intro w hw hword
    exact getterName_ne_access g.name_ok ((Piece.word.inj hword).trans (List.mem_singleton.mp hw))
  have hsplit : g.signature ++ [.symbol ':'] = .blank g.space :: .word g.name :: (g.before ++ .symbol '(' ::
      (g.params ++ .symbol ')' :: (g.after ++ [.symbol ':']))) := by simp [Getter.signature]
  rw [hsplit]
  refine ⟨accepts_of_first_none rfl _, accepts_of_first_none hname _, silent_append.mpr
    ⟨getter_silent_gap g.before_ok _, accepts_of_first_none rfl _, silent_append.mpr ⟨?_, ?_⟩⟩⟩
  · have hcolon := getter_feed_colon g.after_ok r
    simpa using getter_silent_brackets g.params_ok hcolon
  · exact ⟨accepts_of_first_none rfl _, silent_append.mpr
      ⟨getter_silent_gap g.after_ok _, accepts_of_first_none rfl _, trivial⟩⟩

/-- No getter starts in one that has a view modifier. -/
theorem getter_silent_viewed (g : Getter) (r : List Piece) : getterScanner.Silent g.viewed r := by
  have hview : getterScanner.first (.word Word.view) = none := by decide
  have hfun : getterScanner.first (.word Word.function) = none := by decide
  have hargs : ∀ x ∈ .word Word.access :: .symbol '(' :: g.args, x ≠ .symbol ')' := by
    intro x hx
    rcases List.mem_cons.mp hx with rfl | hx
    · simp
    · exact g.open_args x hx
  obtain ⟨hclosed, _⟩ := getter_feed_view g.gap
    (.blank [' '] :: .word Word.function :: (g.signature ++ [.symbol ':'] ++ r))
  have hsplit : g.viewed = (.word Word.access :: .symbol '(' :: g.args) ++ .symbol ')' :: .blank g.gap ::
      .word Word.view :: .blank [' '] :: .word Word.function :: (g.signature ++ [.symbol ':']) := by
    simp [Getter.viewed, Getter.modifier]
  rw [hsplit]
  refine silent_append.mpr ⟨by simpa using getter_silent_brackets hargs hclosed, accepts_of_first_none rfl _,
    accepts_of_first_none rfl _, accepts_of_first_none hview _, accepts_of_first_none rfl _,
    accepts_of_first_none hfun _, getter_silent_signature g r⟩

end Viewed

/-- The end of an access modifier with the word `fun`, and perhaps a view modifier between them. -/
def insertion (b : List Char) (viewed : Bool) : List Piece :=
  .symbol ')' :: .blank b :: if viewed then [.word Word.view, .blank [' '], .word Word.function]
    else [.word Word.function]

/-- A view modifier is put in front of the word `fun`. -/
def InsertEdit (m m' _r : List Lexeme) : Prop :=
  ∃ b ρ, m = (insertion b false).map (⟨·, ρ⟩) ∧ m' = (insertion b true).map (⟨·, ρ⟩)

theorem map_piece_mk (xs : List Piece) (ρ : Region) : (xs.map (⟨·, ρ⟩ : Piece → Lexeme)).map Lexeme.piece = xs := by
  rw [List.map_map]
  exact List.map_id'' (fun x => rfl) xs

/-- A getter takes a view modifier. -/
def GetterEdit (m m' _r : List Lexeme) : Prop :=
  (∃ g : Getter, m.map Lexeme.piece = g.pieces ∧ m'.map Lexeme.piece = g.viewed) ∧
    ∃ front old new rest, InsertEdit old new rest ∧ m = front ++ (old ++ rest) ∧ m' = front ++ (new ++ rest)

section Passes

variable {ts ts' : List Lexeme} {n : Nat}

/-- What a scanner accepts after a pass, it accepted before. -/
theorem getter_feed_of_pass (h : Pass GetterAt GetterEdit ts ts' n) (v : Progress GetterState)
    (hv : getterScanner.feed v (ts'.map Lexeme.piece) = .accept) :
    getterScanner.feed v (ts.map Lexeme.piece) = .accept := by
  induction h generalizing v with
  | nil => exact hv
  | @keep x r r' n _ _ ih =>
    cases v with
    | fail => simp at hv
    | accept => exact feed_accept _
    | go q => exact ih _ hv
  | @skip x m r r' c r₀ n _ _ _ _ ih =>
    rw [List.map_append, feed_append] at hv ⊢
    exact ih _ hv
  | @change x m m' r r' c r₀ n _ _ _ he _ _ =>
    obtain ⟨⟨g, _, hm'⟩, _⟩ := he
    rw [List.map_append, hm'] at hv
    cases v with
    | fail => simp at hv
    | accept => exact feed_accept _
    | go q => simp [getter_feed_viewed g q] at hv

theorem not_getterAt {xs : List Piece} (h : getterScanner.accepts xs = false) :
    ∀ m c r, xs = m ++ (c ++ r) → ¬GetterAt m c := by
  intro m c r heq hat
  have hacc := getterAt_iff.mpr ⟨m, c, r, heq, hat⟩
  simp [h] at hacc

theorem accepts_of_not_getterAt {xs : List Piece} (h : ∀ m c r, xs = m ++ (c ++ r) → ¬GetterAt m c) :
    getterScanner.accepts xs = false := by
  cases hacc : getterScanner.accepts xs with
  | false => rfl
  | true =>
    obtain ⟨m, c, r, heq, hat⟩ := getterAt_iff.mp hacc
    exact absurd hat (h m c r heq)

/-- Pieces in which no getter starts are kept. -/
theorem Pass.keep_all {E : List Lexeme → List Lexeme → List Lexeme → Prop} {m : List Lexeme}
    (hm : getterScanner.Silent (m.map Lexeme.piece) (ts.map Lexeme.piece)) (h : Pass GetterAt E ts ts' n) :
    Pass GetterAt E (m ++ ts) (m ++ ts') n := by
  induction m with
  | nil => exact h
  | cons x m ih =>
    obtain ⟨hx, hrest⟩ := hm
    exact .keep (not_getterAt (by simpa using hx)) (ih hrest)

/-- What a pass leaves, the next pass leaves as it is. -/
theorem Pass.getter_settled (h : Pass GetterAt GetterEdit ts ts' n) :
    Pass GetterAt (fun _ _ _ => False) ts' ts' 0 := by
  induction h with
  | nil => exact .nil
  | @keep x r r' n hnot hr ih =>
    refine .keep (not_getterAt ?_) ih
    cases hacc : getterScanner.accepts ((x :: r').map Lexeme.piece) with
    | false => rfl
    | true =>
      obtain ⟨q, hq, hfeed⟩ := accepts_cons.mp hacc
      have hold : getterScanner.accepts ((x :: r).map Lexeme.piece) = true :=
        accepts_cons.mpr ⟨q, hq, getter_feed_of_pass hr _ hfeed⟩
      rw [accepts_of_not_getterAt hnot] at hold
      exact absurd hold (by simp)
  | @skip x m r r' c r₀ n hat hc hx _ ih =>
    obtain ⟨rfl, g, hg⟩ := hat
    exact .skip ⟨rfl, g, hg⟩ (List.nil_append _).symm hx ih
  | @change x m m' r r' c r₀ n _ _ _ he _ ih =>
    obtain ⟨⟨g, _, hm'⟩, _⟩ := he
    exact ih.keep_all (by rw [hm']; exact getter_silent_viewed g _)

/-- The ways a pass can go on. -/
theorem Pass.inv {At : List Piece → List Piece → Prop} {E : List Lexeme → List Lexeme → List Lexeme → Prop}
    (h : Pass At E ts ts' n) :
    (ts = [] ∧ n = 0) ∨
      (∃ x r r', ts = x :: r ∧ (∀ m c r₀, ts.map Lexeme.piece = m ++ (c ++ r₀) → ¬At m c) ∧ Pass At E r r' n) ∨
      (∃ x m r r' c r₀, ts = x :: m ++ r ∧ At ((x :: m).map Lexeme.piece) c ∧ r.map Lexeme.piece = c ++ r₀ ∧
        x.region ≠ .code ∧ Pass At E r r' n) ∨
      ∃ x m r c r₀, ts = x :: m ++ r ∧ At ((x :: m).map Lexeme.piece) c ∧ r.map Lexeme.piece = c ++ r₀ ∧
        x.region = .code := by
  cases h with
  | nil => exact .inl ⟨rfl, rfl⟩
  | keep hnot hr => exact .inr (.inl ⟨_, _, _, rfl, hnot, hr⟩)
  | skip hat hc hx hr => exact .inr (.inr (.inl ⟨_, _, _, _, _, _, rfl, hat, hc, hx, hr⟩))
  | change hat hc hx _ _ => exact .inr (.inr (.inr ⟨_, _, _, _, _, rfl, hat, hc, hx⟩))

/-- Two getters at the start of the same lexemes take the same of them. -/
theorem getter_stretch_unique {m m' r r' : List Lexeme} {c c' : List Piece} (h : m ++ r = m' ++ r')
    (hm : GetterAt (m.map Lexeme.piece) c) (hm' : GetterAt (m'.map Lexeme.piece) c') : m = m' ∧ r = r' := by
  obtain ⟨_, g, hg⟩ := hm
  obtain ⟨_, g', hg'⟩ := hm'
  have hpieces : g.pieces ++ r.map Lexeme.piece = g'.pieces ++ r'.map Lexeme.piece := by
    rw [← hg, ← hg', ← List.map_append, ← List.map_append, h]
  have hlen : m.length = m'.length := by
    have hsame := congrArg List.length (Getter.pieces_inj hpieces).1
    rwa [← hg, ← hg', List.length_map, List.length_map] at hsame
  exact List.append_inj h hlen

/-- If one pass over the lexemes changes nothing, none does. -/
theorem Pass.count_zero {E : List Lexeme → List Lexeme → List Lexeme → Prop} {k : Nat} {ts₂ : List Lexeme}
    (h : Pass GetterAt (fun _ _ _ => False) ts ts' k) (h' : Pass GetterAt E ts ts₂ n) : n = 0 := by
  induction h generalizing n ts₂ with
  | nil =>
    obtain ⟨_, hn⟩ | ⟨x, r, _, hts, _⟩ | ⟨x, m, r, _, _, _, hts, _⟩ | ⟨x, m, r, _, _, hts, _⟩ := h'.inv
    · exact hn
    · simp at hts
    · simp at hts
    · simp at hts
  | @keep x r r' k hnot _ ih =>
    obtain ⟨hts, _⟩ | ⟨y, s, s', hts, _, hs⟩ | ⟨y, m, s, _, c, r₀, hts, hat, hc, _⟩ | ⟨y, m, s, c, r₀, hts, hat, hc, _⟩ :=
      h'.inv
    · simp at hts
    · obtain ⟨rfl, rfl⟩ := List.cons.inj hts
      exact ih hs
    · exact absurd hat (hnot _ c r₀ (by rw [hts, List.map_append, hc]))
    · exact absurd hat (hnot _ c r₀ (by rw [hts, List.map_append, hc]))
  | @skip x m r r' c r₀ k hat hc hx _ ih =>
    obtain ⟨hts, _⟩ | ⟨y, s, s', _, hnot, _⟩ | ⟨y, m', s, s', c', _, hts, hat', _, _, hs⟩ | ⟨y, m', s, c', _, hts, _, _, hy⟩ :=
      h'.inv
    · simp at hts
    · exact absurd hat (hnot _ c r₀ (by rw [List.map_append, hc]))
    · obtain ⟨_, rfl⟩ := getter_stretch_unique hts hat hat'
      exact ih hs
    · obtain rfl : x = y := (List.cons.inj hts).1
      exact absurd hy hx
  | change _ _ _ he _ _ => exact he.elim

end Passes

end CadenceUplift
