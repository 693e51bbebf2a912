import CadenceUplift.Proofs.Text.Pieces

namespace CadenceUplift

open Text

/-- What a piece of a text is part of. -/
inductive Region where
  | code
  | comment
  /-- The inside of a string. -/
  | string
  /-- A quote at the end of a string. -/
  | quote
deriving DecidableEq, Repr

/-- A piece of a text with the region that it starts in. -/
structure Lexeme where
  piece : Piece
  region : Region
deriving DecidableEq, Repr

/-- Pieces that stand in code. -/
def inCode (xs : List Piece) : List Lexeme := xs.map fun x => ⟨x, .code⟩

/-- What a scanner knows after some pieces. -/
inductive Progress (State : Type) where
  | fail
  | accept
  | go (q : State)
deriving DecidableEq, Repr

/-- The scanner has accepted. -/
def Progress.isAccept {State : Type} : Progress State → Bool
  | .accept => true
  | _ => false

theorem Progress.isAccept_iff {State : Type} {v : Progress State} : v.isAccept = true ↔ v = .accept := by
  cases v <;> simp [Progress.isAccept]

/-- A scanner for one construct: how it starts on a first piece, and how it goes on. -/
structure Scanner (State : Type) where
  first : Piece → Option State
  step : State → Piece → Progress State

/-- Starts on one of the given words. -/
def opensAmong {State : Type} (words : List (List Char)) (q : State) : Piece → Option State
  | .word w => if w ∈ words then some q else none
  | _ => none

theorem opensAmong_eq_some {State : Type} {words : List (List Char)} {q q' : State} {x : Piece} :
    opensAmong words q x = some q' ↔ ∃ w ∈ words, x = .word w ∧ q' = q := by
  cases x with
  | word w =>
    by_cases hw : w ∈ words
    · simp [opensAmong, hw, eq_comm]
    · simp [opensAmong, hw]
  | blank b => simp [opensAmong]
  | symbol c => simp [opensAmong]

theorem opensAmong_eq_none {State : Type} {words : List (List Char)} {q : State} {x : Piece}
    (h : ∀ w ∈ words, x ≠ .word w) : opensAmong words q x = none := by
  cases hq : opensAmong words q x with
  | none => rfl
  | some q' =>
    obtain ⟨w, hw, hx, _⟩ := opensAmong_eq_some.mp hq
    exact absurd hx (h w hw)

namespace Scanner

variable {State : Type} {B : Scanner State}

/-- How far the scanner is after more pieces. -/
def feed (B : Scanner State) : Progress State → List Piece → Progress State
  | .go q, x :: r => feed B (B.step q x) r
  | v, _ => v

/-- The construct starts at the first piece. -/
def accepts (B : Scanner State) : List Piece → Bool
  | [] => false
  | x :: r =>
    match B.first x with
    | some q => (B.feed (.go q) r).isAccept
    | none => false

@[simp] theorem feed_nil (v : Progress State) : B.feed v [] = v := by
  cases v <;> rfl

@[simp] theorem feed_fail (xs : List Piece) : B.feed .fail xs = .fail := by
  cases xs <;> rfl

@[simp] theorem feed_accept (xs : List Piece) : B.feed .accept xs = .accept := by
  cases xs <;> rfl

@[simp] theorem feed_go_cons (q : State) (x : Piece) (r : List Piece) :
    B.feed (.go q) (x :: r) = B.feed (B.step q x) r := rfl

theorem feed_append (v : Progress State) (xs ys : List Piece) :
    B.feed v (xs ++ ys) = B.feed (B.feed v xs) ys := by
  induction xs generalizing v with
  | nil => simp
  | cons x xs ih => cases v <;> simp [ih]

theorem feed_go_eq_accept {q : State} {xs : List Piece} :
    B.feed (.go q) xs = .accept ↔ ∃ x r, xs = x :: r ∧ B.feed (B.step q x) r = .accept := by
  cases xs with
  | nil => simp
  | cons x r => simp

/-- A state that goes on with one piece only accepts that piece and what the next state accepts. -/
theorem feed_expects {q : State} {y : Piece} (hother : ∀ x, x ≠ y → B.step q x = .fail) {xs : List Piece} :
    B.feed (.go q) xs = .accept ↔ ∃ r, xs = y :: r ∧ B.feed (B.step q y) r = .accept := by
  rw [feed_go_eq_accept]
  constructor
  · rintro ⟨x, r, rfl, hx⟩
    by_cases hxy : x = y
    · exact ⟨r, by rw [hxy], hxy ▸ hx⟩
    · simp [hother x hxy] at hx
  · rintro ⟨r, rfl, hr⟩
    exact ⟨y, r, rfl, hr⟩

theorem feed_stays {q : State} {xs : List Piece} (h : ∀ x ∈ xs, B.step q x = .go q) : B.feed (.go q) xs = .go q := by
  induction xs with
  | nil => rfl
  | cons x xs ih =>
    rw [feed_go_cons, h x List.mem_cons_self]
    exact ih fun y hy => h y (List.mem_cons_of_mem x hy)

/-- A state that is left at one piece only accepts what stands in front of that piece and what the next state accepts. -/
theorem feed_closes {q : State} {close : Piece} {p : Piece → Prop}
    (hstep : ∀ x, x ≠ close → B.step q x = .fail ∨ p x ∧ B.step q x = .go q) {xs : List Piece}
    (h : B.feed (.go q) xs = .accept) :
    ∃ ys r, xs = ys ++ close :: r ∧ (∀ x ∈ ys, x ≠ close ∧ p x) ∧ B.feed (B.step q close) r = .accept := by
  induction xs with
  | nil => cases h
  | cons x xs ih =>
    rw [feed_go_cons] at h
    by_cases hx : x = close
    · subst hx
      exact ⟨[], xs, rfl, by simp, h⟩
    · rcases hstep x hx with hfail | ⟨hp, hstay⟩
      · simp [hfail] at h
      · obtain ⟨ys, r, rfl, hys, hr⟩ := ih (hstay ▸ h)
        exact ⟨x :: ys, r, rfl, List.forall_mem_cons.mpr ⟨⟨hx, hp⟩, hys⟩, hr⟩

/-- The scanner gets over the piece in no state. -/
def Stops (B : Scanner State) (x : Piece) : Prop := ∀ q, B.step q x = .fail

theorem accepts_eq {x : Piece} {q : State} (hq : B.first x = some q) (r : List Piece) :
    B.accepts (x :: r) = (B.feed (.go q) r).isAccept := by
  simp only [accepts, hq]

theorem accepts_cons {x : Piece} {r : List Piece} :
    B.accepts (x :: r) = true ↔ ∃ q, B.first x = some q ∧ B.feed (.go q) r = .accept := by
  constructor
  · intro h
    cases hq : B.first x with
    | none => simp [accepts, hq] at h
    | some q => exact ⟨q, rfl, Progress.isAccept_iff.mp (accepts_eq hq r ▸ h)⟩
  · rintro ⟨q, hq, hv⟩
    rw [accepts_eq hq, hv]
    rfl

theorem accepts_eq_of_feed {x : Piece} {r r' : List Piece}
    (h : ∀ v, B.feed v r = B.feed v r') : B.accepts (x :: r) = B.accepts (x :: r') := by
  cases hq : B.first x with
  | none => simp [accepts, hq]
  | some q => rw [accepts_eq hq, accepts_eq hq, h]

theorem accepts_of_first_none {x : Piece} (h : B.first x = none) (r : List Piece) :
    B.accepts (x :: r) = false := by
  simp [accepts, h]

theorem accepts_of_opens {words : List (List Char)} {q : State} (hB : B.first = opensAmong words q) {x : Piece}
    {r : List Piece} (h : B.feed (.go q) r = .fail) : B.accepts (x :: r) = false := by
  cases hq : B.first x with
  | none => exact accepts_of_first_none hq r
  | some q' =>
    rw [hB] at hq
    obtain ⟨_, _, _, rfl⟩ := opensAmong_eq_some.mp hq
    rw [accepts_eq (hB ▸ hq), h]
    rfl

/-- No construct starts within a stretch, given what follows it. -/
def Silent (B : Scanner State) : List Piece → List Piece → Prop
  | [], _ => True
  | x :: xs, r => B.accepts (x :: (xs ++ r)) = false ∧ Silent B xs r

theorem silent_append {xs ys r : List Piece} :
    B.Silent (xs ++ ys) r ↔ B.Silent xs (ys ++ r) ∧ B.Silent ys r := by
  induction xs with
  | nil => simp [Silent]
  | cons x xs ih => simp [Silent, ih, and_assoc]

theorem silent_of_first {xs r : List Piece} (h : ∀ x ∈ xs, B.first x = none) : B.Silent xs r := by
  induction xs with
  | nil => trivial
  | cons x xs ih =>
    exact ⟨accepts_of_first_none (h x (by simp)) _, ih fun y hy => h y (by simp [hy])⟩

theorem silent_of_words {words : List (List Char)} {q : State} (hB : B.first = opensAmong words q)
    {xs : List Piece} (h : ∀ w ∈ words, .word w ∉ xs) (r : List Piece) : B.Silent xs r := by
  refine silent_of_first ?_
  intro x hx
  rw [hB]
  refine opensAmong_eq_none ?_
  rintro w hw rfl
  exact h w hw hx

/-- A scanner finds what a relation describes: a stretch of pieces, and those in front of which it has to
stand. No other construct starts within such a stretch. -/
structure Finds (B : Scanner State) (At : List Piece → List Piece → Prop) : Prop where
  opens : ∀ {m c}, At m c → ∃ w m₀, m = .word w :: m₀
  accepts : ∀ {m c}, At m c → ∀ r, B.accepts (m ++ (c ++ r)) = true
  found : ∀ {xs}, Divided xs → B.accepts xs = true → ∃ m c r, xs = m ++ (c ++ r) ∧ At m c
  silent : ∀ {x m c}, At (x :: m) c → ∀ r, B.Silent m (c ++ r)

end Scanner

open Scanner

/-- How many constructs start in code, for pieces looked at in a given way. -/
def hits {State : Type} (B : Scanner State) (look : Lexeme → Piece) : List Lexeme → Nat
  | [] => 0
  | x :: r => (if x.region = .code ∧ B.accepts (look x :: r.map look) = true then 1 else 0) + hits B look r

/-- Lexemes in which some stretches were changed; an edit may depend on what follows the stretch. The
number counts the edits. -/
inductive Edited (E : List Lexeme → List Lexeme → List Lexeme → Prop) :
    List Lexeme → List Lexeme → Nat → Prop
  | nil : Edited E [] [] 0
  | keep (x : Lexeme) {r r' : List Lexeme} {n : Nat} : Edited E r r' n → Edited E (x :: r) (x :: r') n
  | change {m m' r r' : List Lexeme} {n : Nat} :
      E m m' r → Edited E r r' n → Edited E (m ++ r) (m' ++ r') (n + 1)

variable {State : Type} {B : Scanner State} {look : Lexeme → Piece} {E : List Lexeme → List Lexeme → List Lexeme → Prop}

theorem Edited.append_left {r r' : List Lexeme} {n : Nat} (xs : List Lexeme) (h : Edited E r r' n) :
    Edited E (xs ++ r) (xs ++ r') n := by
  induction xs with
  | nil => exact h
  | cons x xs ih => exact .keep x ih

/-- No state of the scanner can tell an edited stretch, together with what follows, from the old one. -/
def Unseen (B : Scanner State) (look : Lexeme → Piece) (E : List Lexeme → List Lexeme → List Lexeme → Prop) :
    Prop :=
  ∀ {m m' r r' : List Lexeme}, E m m' r → (∀ v, B.feed v (r.map look) = B.feed v (r'.map look)) →
    ∀ v, B.feed v ((m ++ r).map look) = B.feed v ((m' ++ r').map look)

/-- No state of the scanner gets over an edited stretch, neither over the old one nor over the new one. -/
def Blocked (B : Scanner State) (look : Lexeme → Piece) (E : List Lexeme → List Lexeme → List Lexeme → Prop) : Prop :=
  ∀ m m' r, E m m' r → ∀ q, B.feed (.go q) ((m ++ r).map look) = .fail ∧
    ∀ r', B.feed (.go q) ((m' ++ r').map look) = .fail

theorem Blocked.unseen (h : Blocked B look E) : Unseen B look E := by
  intro m m' r r' he _ v
  cases v with
  | fail => simp
  | accept => simp
  | go q =>
    obtain ⟨hold, hnew⟩ := h m m' r he q
    rw [hold, hnew r']

/-- What is unseen in every edit is unseen in all of them. -/
theorem Edited.feed_eq (hE : Unseen B look E) {ts ts' : List Lexeme} {n : Nat} (h : Edited E ts ts' n) :
    ∀ v, B.feed v (ts.map look) = B.feed v (ts'.map look) := by
  induction h with
  | nil => exact fun _ => rfl
  | keep x _ ih =>
    intro v
    cases v with
    | fail => simp
    | accept => simp
    | go q => exact ih _
  | change he _ ih => exact hE he ih

theorem hits_cons (x : Lexeme) (r : List Lexeme) :
    hits B look (x :: r) =
      (if x.region = .code ∧ B.accepts (look x :: r.map look) = true then 1 else 0) + hits B look r := rfl

theorem hits_cons_ne_zero {x : Lexeme} {r : List Lexeme} :
    hits B look (x :: r) ≠ 0 ↔
      (x.region = .code ∧ B.accepts (look x :: r.map look) = true) ∨ hits B look r ≠ 0 := by
  rw [hits_cons]
  split
  next h => simp [h]
  next h => simp [h]

theorem hits_le_append (look : Lexeme → Piece) (m r : List Lexeme) : hits B look r ≤ hits B look (m ++ r) := by
  induction m with
  | nil => exact Nat.le_refl _
  | cons x m ih =>
    rw [List.cons_append, hits_cons]
    omega

/-- A stretch in which no construct starts adds no hits. -/
theorem hits_append {m r : List Lexeme} (h : B.Silent (m.map look) (r.map look)) :
    hits B look (m ++ r) = hits B look r := by
  induction m with
  | nil => rfl
  | cons x m ih =>
    obtain ⟨hx, hm⟩ := h
    have hx : B.accepts (look x :: (m ++ r).map look) = false := by simpa using hx
    rw [List.cons_append, hits_cons, hx, ih hm]
    simp

/-- If each edited stretch had `a` hits and has none any more, `n` edits take `a * n` hits away. -/
theorem Edited.hits_eq (hE : Unseen B look E) {a : Nat}
    (hold : ∀ {m m' r : List Lexeme}, E m m' r → hits B look (m ++ r) = a + hits B look r)
    (hnew : ∀ {m m' r r' : List Lexeme}, E m m' r → (∀ v, B.feed v (r.map look) = B.feed v (r'.map look)) →
      hits B look (m' ++ r') = hits B look r')
    {ts ts' : List Lexeme} {n : Nat} (h : Edited E ts ts' n) :
    hits B look ts = a * n + hits B look ts' := by
  induction h with
  | nil => simp [hits]
  | keep x hr ih =>
    rw [hits_cons, hits_cons, ih, accepts_eq_of_feed (hr.feed_eq hE)]
    omega
  | change he hr ih =>
    rw [hold he, hnew he (hr.feed_eq hE), ih, Nat.mul_succ]
    omega

end CadenceUplift
