import CadenceUplift.Proofs.Construct.Foretold
import CadenceUplift.Proofs.Construct.Getter

namespace CadenceUplift

open Text Scanner

/-- How far a scanner is, with its states seen as those of another one. -/
def Progress.map {State State' : Type} (f : State → State') : Progress State → Progress State'
  | .fail => .fail
  | .accept => .accept
  | .go q => .go (f q)

/-- Where a scanner for latent getters stands. -/
inductive LatentState where
  /-- Behind `pub`. -/
  | bare
  | opened
  | named
  /-- Behind `pub(set)`. -/
  | complete
  | getter (q : GetterState)
deriving DecidableEq, Repr

/-- How the scanner for latent getters goes on. -/
def latentStep : LatentState → Piece → Progress LatentState
  | .bare, .blank _ => .go (.getter .gap)
  | .bare, .symbol c => if c = '(' then .go .opened else .fail
  | .opened, .word w => if w = Word.set then .go .named else .fail
  | .named, .symbol c => if c = ')' then .go .complete else .fail
  | .complete, .blank _ => .go (.getter .gap)
  | .getter .args, x => if x = .symbol ')' then .go (.getter .closed) else .go (.getter .args)
  | .getter q, x => (getterStep q x).map .getter
  | _, _ => .fail

/-- A keyword or an access modifier may open a latent getter. -/
def latentFirst : Piece → Option LatentState
  | .word w => if w = Word.pub then some .bare else if w = Word.access then some (.getter .opener) else none
  | _ => none

/-- Scans a getter behind a keyword, or behind an access modifier with anything in its brackets. -/
def latentScanner : Scanner LatentState where
  first := latentFirst
  step := latentStep

@[simp] theorem latentScanner_first : latentScanner.first = latentFirst := rfl

@[simp] theorem latentScanner_step : latentScanner.step = latentStep := rfl

/-- Within brackets. -/
def LatentState.inside : LatentState → Bool
  | .getter .args | .getter .params => true
  | _ => false

section Rewrites

variable {m m' r r' : List Lexeme}

attribute [local simp] latentStep getterStep overSpaces Progress.map

theorem latent_encloses : Encloses latentScanner LatentState.inside (.symbol ')') where
  opens := by
    intro x q hq
    cases x with
    | word w => rfl
    | blank b => cases hq
    | symbol c => cases hq
  stays := by
    intro q x hq hx
    cases q with
    | getter q => cases q <;> simp_all [LatentState.inside]
    | bare | opened | named | complete => cases hq
  mark := by
    intro q d hq hd
    cases q with
    | getter q => rcases hd with rfl | rfl <;> cases q <;> simp_all [LatentState.inside]
    | bare | opened | named | complete => rcases hd with rfl | rfl <;> simp
  blank := by
    intro q b hq
    cases q with
    | getter q =>
      cases hb : isSpaces b <;> cases q <;> simp_all [LatentState.inside]
    | bare | opened | named | complete => simp [LatentState.inside]

/-- Outside of brackets, only certain words are part of a latent getter. -/
theorem latent_step_word {q : LatentState} (hq : q.inside = false) {w : List Char}
    (hw : w ≠ Word.set ∧ w ≠ Word.function ∧ isGetterName w = false) : latentScanner.step q (.word w) = .fail := by
  cases q with
  | getter q => cases q <;> simp_all [LatentState.inside]
  | bare | opened | named | complete => simp [hw]

theorem latent_silent {xs : List Piece} (hxs : ∀ w ∈ [Word.pub, Word.access], .word w ∉ xs) (r : List Piece) :
    latentScanner.Silent xs r := by
  refine silent_of_first ?_
  intro x hx
  cases x with
  | word w =>
    have hpub : w ≠ Word.pub := fun h => hxs Word.pub (by simp) (h ▸ hx)
    have haccess : w ≠ Word.access := fun h => hxs Word.access (by simp) (h ▸ hx)
    simp [latentFirst, hpub, haccess]
  | blank b => rfl
  | symbol c => rfl

theorem latent_foretold_member {a : AccountMember} (he : MemberEdit a.name a.isCall a.path m m' r)
    (h : Foretold latentScanner r r') : Foretold latentScanner (m ++ r) (m' ++ r') := by
  obtain ⟨_, _, c, r₀, ⟨u, _, rfl, _⟩, rfl, rfl, rfl, rfl⟩ := he
  refine latent_encloses.foretold ?_ ?_ ?_ ?_ h
  · simp [memberPieces]
  · cases a <;> decide
  · intro q hq
    rw [feed_go_cons, latent_step_word hq (by decide), feed_fail]
  · cases a <;> exact latent_silent (by decide)

/-- A keyword in front of the rest of a getter is where a latent getter starts. -/
theorem latent_hits_keyword (b : Bool) (g : List Char)
    (h : latentScanner.feed (.go (.getter .gap)) (r.map Lexeme.piece) = .accept) :
    hits latentScanner Lexeme.piece (inCode (keywordPieces b ++ [.blank g]) ++ r) ≠ 0 := by
  obtain ⟨xs, hpieces, hxs⟩ : ∃ xs, keywordPieces b ++ [Piece.blank g] = .word Word.pub :: xs ∧
      latentScanner.feed (.go .bare) xs = .go (.getter .gap) := by
    cases b <;> exact ⟨_, rfl, by simp⟩
  rw [hpieces]
  change hits latentScanner Lexeme.piece (⟨.word Word.pub, .code⟩ :: (inCode xs ++ r)) ≠ 0
  refine hits_cons_ne_zero.mpr (.inl ⟨rfl, accepts_cons.mpr ⟨.bare, rfl, ?_⟩⟩)
  rw [List.map_append, map_inCode fun _ => rfl, feed_append, hxs]
  exact h

theorem latent_feed_access {q : LatentState} (hq : q.inside = true) :
    latentScanner.feed (.go q) accessPieces = .go (.getter .gap) ∨
      latentScanner.feed (.go q) accessPieces = .go (.getter .after) := by
  have hspace : isSpaces [' '] = true := by decide
  cases q with
  | getter q => cases q <;> simp_all [LatentState.inside, accessPieces]
  | bare | opened | named | complete => cases hq

/-- The modifier that a keyword becomes may open a getter only where the keyword opened a latent one. -/
theorem latent_foretold_keyword {b : Bool} (he : KeywordEdit b m m' r) (h : Foretold latentScanner r r') :
    Foretold latentScanner (m ++ r) (m' ++ r') := by
  obtain ⟨_, _, c, r₀, ⟨g, kw, rfl, _, rfl⟩, rfl, rfl, rfl, rfl⟩ := he
  have hgap (hv : latentScanner.feed (.go (.getter .gap)) (r'.map Lexeme.piece) = .accept) :
      hits latentScanner Lexeme.piece (inCode (keywordPieces b ++ [.blank g]) ++ (inCode [.word kw] ++ r₀)) ≠ 0 := by
    rcases h.feed _ hv with hold | hits
    · exact latent_hits_keyword b g hold
    · exact hits_append_ne_zero hits _
  refine ⟨?_, ?_⟩
  · intro v hv
    rw [List.map_append, map_inCode fun _ => rfl, feed_append] at hv
    cases v with
    | fail => simp at hv
    | accept => exact .inl (feed_accept _)
    | go q =>
      right
      cases hq : q.inside with
      | false =>
        rw [accessPieces, feed_go_cons, latent_step_word hq (by decide), feed_fail, feed_fail] at hv
        cases hv
      | true =>
        rcases latent_feed_access hq with hopen | hclosed
        · exact hgap (hopen ▸ hv)
        · -- In the brackets of a signature, the modifier would end it, with a declaration in place of the colon.
          rcases h.feed _ (hclosed ▸ hv) with hold | hits
          · have hkw : latentScanner.feed (.go (.getter .after)) (.word kw :: r₀.map Lexeme.piece) = .fail := by simp
            exact absurd (hkw.symm.trans hold) (by simp)
          · exact hits_append_ne_zero hits _
  · intro hits
    change CadenceUplift.hits _ _ (⟨.word Word.access, .code⟩ :: (inCode accessPieces.tail ++ r')) ≠ 0 at hits
    rcases hits_cons_ne_zero.mp hits with ⟨_, hacc⟩ | hrest
    · obtain ⟨q, hq, hfeed⟩ := accepts_cons.mp hacc
      obtain rfl : LatentState.getter .opener = q := Option.some.inj hq
      rw [List.map_append, map_inCode fun _ => rfl, feed_append] at hfeed
      exact hgap hfeed
    · rw [hits_append (by rw [map_inCode fun _ => rfl]; exact latent_silent (by decide) _)] at hrest
      exact hits_append_ne_zero (h.hits hrest) _

theorem latent_foretold_edited (t : Target) {ts ts' : List Lexeme} {n : Nat} (h : Edited t.Edit ts ts' n) :
    Foretold latentScanner ts ts' := by
  cases t with
  | keyword b => exact Edited.foretold latent_foretold_keyword h
  | member a => exact Edited.foretold latent_foretold_member h
  | conformance =>
    obtain ⟨k, hk⟩ := edited_separators h
    exact Edited.foretold (latent_encloses.foretold_separator (.inl rfl)) hk

end Rewrites

section Shapes

variable {xs : List Piece}

/-- What stands in front of the signature of a latent getter. -/
def LatentModifier (ps : List Piece) : Prop :=
  (∃ b g, ps = keywordPieces b ++ [.blank g]) ∨
    ∃ A g, ps = .word Word.access :: .symbol '(' :: (A ++ [.symbol ')', .blank g]) ∧ .symbol ')' ∉ A ∧ isSpaces g = true

theorem latent_of_getter {q : GetterState} (h : getterScanner.feed (.go q) xs = .accept) :
    latentScanner.feed (.go (.getter q)) xs = .accept := by
  induction xs generalizing q with
  | nil => simp at h
  | cons x xs ih =>
    rw [feed_go_cons] at h ⊢
    by_cases hargs : q = .args
    · subst hargs
      by_cases hx : x = .symbol ')'
      · subst hx
        exact ih h
      · have hstep : latentScanner.step (.getter .args) x = .go (.getter .args) := by simp [latentStep, hx]
        rw [hstep]
        by_cases hline : '\n' ∈ x.text
        · simp [getterStep, hx, hline] at h
        · exact ih (by simpa [getterStep, hx, hline] using h)
    · have hstep : latentScanner.step (.getter q) x = (getterScanner.step q x).map .getter := by
        cases q <;> first | rfl | exact absurd rfl hargs
      rw [hstep]
      cases hq : getterScanner.step q x with
      | fail => simp [hq] at h
      | accept => exact feed_accept _
      | go q' => exact ih (hq ▸ h)

theorem Getter.latent (g : Getter) (r : List Piece) : latentScanner.accepts (g.pieces ++ r) = true := by
  obtain ⟨q, hq, hfeed⟩ := accepts_cons.mp (getter_accepts g r)
  obtain rfl : GetterState.opener = q := Option.some.inj hq
  exact accepts_cons.mpr ⟨_, rfl, latent_of_getter hfeed⟩

/-- A getter's scanner does not get back to where it was in front of its gap. -/
theorem getterStep_behind {q q' : GetterState} {x : Piece} (hq : q ≠ .opener ∧ q ≠ .args)
    (h : getterStep q x = .go q') : q' ≠ .opener ∧ q' ≠ .args := by
  cases q with
  | opener => exact absurd rfl hq.1
  | args => exact absurd rfl hq.2
  | closed | gap | function | space | name | named | params | done | after =>
    cases x <;> simp only [getterStep, overSpaces, reduceCtorEq] at h <;> split at h <;> cases h <;> simp

theorem getter_of_latent {q : GetterState} (hq : q ≠ .opener ∧ q ≠ .args)
    (h : latentScanner.feed (.go (.getter q)) xs = .accept) : getterScanner.feed (.go q) xs = .accept := by
  induction xs generalizing q with
  | nil => simp at h
  | cons x xs ih =>
    have hstep : latentScanner.step (.getter q) x = (getterScanner.step q x).map .getter := by
      cases q <;> first | rfl | exact absurd rfl hq.2
    rw [feed_go_cons] at h ⊢
    rw [hstep] at h
    cases hx : getterScanner.step q x with
    | fail => simp [hx, Progress.map] at h
    | accept => exact feed_accept _
    | go q' => exact ih (getterStep_behind hq hx) (by simpa [hx, Progress.map] using h)

theorem getter_inv_signature (h : getterScanner.feed (.go .function) xs = .accept) :
    ∃ (g : Getter) (r : List Piece), xs = g.signature ++ .symbol ':' :: r := by
  obtain ⟨b, w, r, rfl, hb, hw, hname⟩ := getter_inv_function h
  obtain ⟨g, r, hg, rfl, hparams⟩ := getter_inv_name hname
  obtain ⟨P, r, rfl, hP, hdone⟩ := getter_inv_params hparams
  obtain ⟨g', r, hg', rfl⟩ := getter_inv_done hdone
  have hspace : isSpaces [' '] = true := by decide
  exact ⟨⟨[], [' '], b, w, g, P, g', by simp, hspace, hb, hw, hg, hP, hg'⟩, r, by simp [Getter.signature]⟩

/-- Behind its modifier, a latent getter is a getter. -/
theorem latent_inv_gap (h : latentScanner.feed (.go (.getter .gap)) xs = .accept) :
    ∃ (g : Getter) (r : List Piece), xs = .word Word.function :: (g.signature ++ .symbol ':' :: r) := by
  have hother : ∀ x, x ≠ .word Word.function → getterScanner.step .gap x = .fail := by
    intro x hx
    cases x <;> simp_all [getterStep]
  obtain ⟨r, rfl, hfun⟩ := (feed_expects hother).mp (getter_of_latent (by decide) h)
  obtain ⟨g, r, rfl⟩ := getter_inv_signature hfun
  exact ⟨g, r, rfl⟩

theorem latent_inv_bare (h : latentScanner.feed (.go .bare) xs = .accept) :
    ∃ b g r, .word Word.pub :: xs = keywordPieces b ++ .blank g :: r ∧
      latentScanner.feed (.go (.getter .gap)) r = .accept := by
  obtain ⟨x, r, rfl, hx⟩ := feed_go_eq_accept.mp h
  cases x with
  | word w => simp [latentStep] at hx
  | blank g => exact ⟨false, g, r, rfl, hx⟩
  | symbol c =>
    by_cases hc : c = '('
    · subst hc
      have hopened : ∀ x, x ≠ .word Word.set → latentScanner.step .opened x = .fail := by
        intro x hx
        cases x <;> simp_all [latentStep]
      have hnamed : ∀ x, x ≠ .symbol ')' → latentScanner.step .named x = .fail := by
        intro x hx
        cases x <;> simp_all [latentStep]
      obtain ⟨r, rfl, hset⟩ := (feed_expects hopened).mp hx
      obtain ⟨r, rfl, hcomplete⟩ := (feed_expects hnamed).mp hset
      obtain ⟨y, r, rfl, hy⟩ := feed_go_eq_accept.mp hcomplete
      cases y with
      | word w => simp [latentStep] at hy
      | symbol c => simp [latentStep] at hy
      | blank g => exact ⟨true, g, r, rfl, hy⟩
    · simp [latentStep, hc] at hx

theorem latent_found (h : latentScanner.accepts xs = true) :
    ∃ (ps : List Piece) (g : Getter) (r : List Piece), LatentModifier ps ∧
      xs = ps ++ .word Word.function :: (g.signature ++ .symbol ':' :: r) := by
  cases xs with
  | nil => simp [accepts] at h
  | cons x xs =>
    obtain ⟨q, hq, hfeed⟩ := accepts_cons.mp h
    cases x with
    | blank b => cases hq
    | symbol c => cases hq
    | word w =>
      by_cases hpub : w = Word.pub
      · subst hpub
        obtain rfl : LatentState.bare = q := Option.some.inj hq
        obtain ⟨b, g, r, hxs, hgap⟩ := latent_inv_bare hfeed
        obtain ⟨sig, r, rfl⟩ := latent_inv_gap hgap
        exact ⟨_, sig, r, .inl ⟨b, g, rfl⟩, by rw [hxs]; simp⟩
      · by_cases haccess : w = Word.access
        · subst haccess
          obtain rfl : LatentState.getter .opener = q := Option.some.inj hq
          have hopener : ∀ x, x ≠ .symbol '(' → latentScanner.step (.getter .opener) x = .fail := by
            intro x hx
            cases x <;> simp_all [latentStep, getterStep, Progress.map]
          obtain ⟨r, rfl, hargs⟩ := (feed_expects hopener).mp hfeed
          obtain ⟨A, r, rfl, hA, hclosed⟩ := latent_encloses.inv_inside rfl hargs
          obtain ⟨b, r, rfl, hb, hfun⟩ := getter_inv_closed (getter_of_latent (by decide) hclosed)
          obtain ⟨sig, r, rfl⟩ := getter_inv_signature hfun
          exact ⟨_, sig, r, .inr ⟨A, b, rfl, hA, hb⟩, by simp⟩
        · simp [latentFirst, hpub, haccess] at hq

end Shapes

end CadenceUplift
