import CadenceUplift.Proofs.Lexeme.Pass

namespace CadenceUplift

open Text Pattern

namespace Scanner

variable {State : Type} {B : Scanner State}

/-- The pieces that the scanner goes over until it accepts. -/
def run (B : Scanner State) : Progress State → List Piece → Option (List Piece)
  | .go q, x :: r => (run B (B.step q x) r).map (x :: ·)
  | .accept, _ => some []
  | _, _ => none

/-- The construct that starts at the first piece, together with what it stands in front of. -/
def stretch? (B : Scanner State) : List Piece → Option (List Piece)
  | [] => none
  | x :: r => (B.first x).bind fun q => (B.run (.go q) r).map (x :: ·)

@[simp] theorem run_fail (xs : List Piece) : B.run .fail xs = none := by cases xs <;> rfl

@[simp] theorem run_accept (xs : List Piece) : B.run .accept xs = some [] := by cases xs <;> rfl

@[simp] theorem run_go_cons (q : State) (x : Piece) (r : List Piece) :
    B.run (.go q) (x :: r) = (B.run (B.step q x) r).map (x :: ·) := rfl

theorem run_append {q q' : State} {xs : List Piece} (h : B.feed (.go q) xs = .go q') (ys : List Piece) :
    B.run (.go q) (xs ++ ys) = (B.run (.go q') ys).map (xs ++ ·) := by
  induction xs generalizing q with
  | nil =>
    obtain rfl : q = q' := by simpa using h
    simp
  | cons x xs ih =>
    rw [feed_go_cons] at h
    rw [List.cons_append, run_go_cons]
    cases hx : B.step q x with
    | fail => simp [hx] at h
    | accept => simp [hx] at h
    | go q₁ =>
      rw [hx] at h
      rw [ih h, Option.map_map]
      rfl

theorem run_eq_none {v : Progress State} {xs : List Piece} (h : B.feed v xs ≠ .accept) : B.run v xs = none := by
  induction xs generalizing v with
  | nil =>
    cases v with
    | fail => rfl
    | accept => exact absurd rfl h
    | go q => rfl
  | cons x xs ih =>
    cases v with
    | fail => rfl
    | accept => exact absurd rfl h
    | go q => rw [run_go_cons, ih h, Option.map_none]

theorem stretch?_eq_none {xs : List Piece} (h : B.accepts xs = false) : B.stretch? xs = none := by
  cases xs with
  | nil => rfl
  | cons x r =>
    cases hq : B.first x with
    | none => simp [stretch?, hq]
    | some q =>
      have hfeed : B.feed (.go q) r ≠ .accept := by
        intro haccept
        rw [accepts_eq hq, haccept] at h
        cases h
      simp [stretch?, hq, run_eq_none hfeed]

/-- A scanner goes over the construct and what it has to stand in front of, and `front` tells the construct
from that. -/
structure Delimits (B : Scanner State) (At : List Piece → List Piece → Prop) (front : List Piece → List Piece) : Prop
    extends B.Finds At where
  stretch : ∀ {m c}, At m c → ∀ r, B.stretch? (m ++ (c ++ r)) = some (m ++ c)
  front_eq : ∀ {m c}, At m c → front (m ++ c) = m

end Scanner

open Scanner

variable {State : Type} {B : Scanner State}

/-- The constructs that start in code, each with what it stands in front of. -/
def stretches (B : Scanner State) : List Lexeme → List (List Piece)
  | [] => []
  | x :: r => (if x.region = .code then (B.stretch? ((x :: r).map Lexeme.piece)).toList else []) ++ stretches B r

theorem stretches_cons (x : Lexeme) (r : List Lexeme) :
    stretches B (x :: r) =
      (if x.region = .code then (B.stretch? ((x :: r).map Lexeme.piece)).toList else []) ++ stretches B r := rfl

theorem stretches_append {m r : List Lexeme} (h : B.Silent (m.map Lexeme.piece) (r.map Lexeme.piece)) :
    stretches B (m ++ r) = stretches B r := by
  induction m with
  | nil => rfl
  | cons x m ih =>
    obtain ⟨hx, hm⟩ := h
    have hnone : B.stretch? ((x :: (m ++ r)).map Lexeme.piece) = none := stretch?_eq_none (by simpa using hx)
    rw [List.cons_append, stretches_cons, hnone, ih hm]
    simp

section Edits

variable {E : List Lexeme → List Lexeme → List Lexeme → Prop}

theorem Edited.run_eq (hE : Blocked B Lexeme.piece E) {ts ts' : List Lexeme} {n : Nat} (h : Edited E ts ts' n) (v : Progress State) :
    B.run v (ts.map Lexeme.piece) = B.run v (ts'.map Lexeme.piece) := by
  induction h generalizing v with
  | nil => rfl
  | keep x _ ih =>
    cases v with
    | fail => simp
    | accept => simp
    | go q => rw [List.map_cons, List.map_cons, run_go_cons, run_go_cons, ih]
  | @change m m' r r' n he _ ih =>
    cases v with
    | fail => simp
    | accept => simp
    | go q =>
      obtain ⟨hold, hnew⟩ := hE m m' r he q
      rw [run_eq_none (by rw [hold]; simp), run_eq_none (by rw [hnew r']; simp)]

/-- Constructs stay as they are under edits that the scanner never gets over and in which none of them starts. -/
theorem Edited.stretches_eq (hE : Blocked B Lexeme.piece E)
    (hsilent : ∀ {m m' r}, E m m' r → B.Silent (m.map Lexeme.piece) (r.map Lexeme.piece) ∧
      ∀ r', B.Silent (m'.map Lexeme.piece) r')
    {ts ts' : List Lexeme} {n : Nat} (h : Edited E ts ts' n) : stretches B ts = stretches B ts' := by
  induction h with
  | nil => rfl
  | keep x hr ih =>
    rw [stretches_cons, stretches_cons, ih, List.map_cons, List.map_cons, stretch?, stretch?]
    simp only [hr.run_eq hE]
  | change he _ ih =>
    obtain ⟨hold, hnew⟩ := hsilent he
    rw [stretches_append hold, stretches_append (hnew _), ih]

end Edits

section Matches

variable {At : List Piece → List Piece → Prop} {front : List Piece → List Piece}

theorem stretches_keep (hB : B.Finds At) {x : Lexeme} {r : List Lexeme} (hdiv : Divided ((x :: r).map Lexeme.piece))
    (hnot : ∀ m c r₀, (x :: r).map Lexeme.piece = m ++ (c ++ r₀) → ¬At m c) :
    stretches B (x :: r) = stretches B r := by
  have hnone : B.stretch? ((x :: r).map Lexeme.piece) = none := by
    apply stretch?_eq_none
    rw [← Bool.not_eq_true]
    intro haccepts
    obtain ⟨m, c, r₀, heq, hat⟩ := hB.found hdiv haccepts
    exact hnot m c r₀ heq hat
  rw [stretches_cons, hnone]
  simp

theorem stretches_hit (hB : B.Delimits At front) {x : Lexeme} {m r : List Lexeme} {c r₀ : List Piece}
    (hat : At ((x :: m).map Lexeme.piece) c) (hr : r.map Lexeme.piece = c ++ r₀) :
    stretches B (x :: m ++ r) =
      (if x.region = .code then [(x :: m).map Lexeme.piece ++ c] else []) ++ stretches B r := by
  have hrest : stretches B (m ++ r) = stretches B r := stretches_append (hr ▸ hB.silent hat r₀)
  have hstretch := hB.stretch hat r₀
  rw [← hr, ← List.map_append] at hstretch
  rw [List.cons_append, stretches_cons, hrest, ← List.cons_append, hstretch]
  rfl

theorem stretches_tagged (hB : B.Delimits At front) {m c : List Piece} (hat : At m c) (σ : Reader) (r : List Piece) :
    stretches B (tagged σ (m ++ (c ++ r))) =
      (if σ.inCode then [m ++ c] else []) ++ stretches B (tagged (σ.after (textOf m)) (c ++ r)) := by
  obtain ⟨w, m₀, rfl⟩ := hB.opens hat
  obtain ⟨L, hL, htag⟩ := tagged_append (σ.after w) m₀ (c ++ r)
  have hlexemes : tagged σ (.word w :: m₀ ++ (c ++ r)) = ⟨.word w, σ.region (.word w) (m₀ ++ (c ++ r)).head?⟩ :: L ++
      tagged (σ.after (textOf (.word w :: m₀))) (c ++ r) := by
    rw [textOf_cons, Reader.after_append, List.cons_append, tagged]
    exact congrArg _ (htag (c ++ r) (.refl _))
  have hpieces : (⟨.word w, σ.region (.word w) (m₀ ++ (c ++ r)).head?⟩ :: L).map Lexeme.piece = .word w :: m₀ := by
    rw [List.map_cons, hL]
  rw [hlexemes, stretches_hit hB (hpieces ▸ hat) (map_piece_tagged _ _), hpieces]
  simp only [region_word]

/-- What a reader sees of a pattern spells the constructs that its scanner finds. -/
theorem Visible.texts_eq (hB : B.Delimits At front) {p : Pattern} {σ : Reader} {pre : List Char} {rest : List Piece}
    {ms : List Match} (h : Visible p At σ pre rest ms) :
    ms.map (·.text (pre ++ textOf rest).toArray) = (stretches B (tagged (σ.after pre) rest)).map (textOf ∘ front) := by
  induction h with
  | nil => rfl
  | @keep pre x r ms hdiv hnot _ ih =>
    rw [Reader.after_append, List.append_assoc] at ih
    rw [textOf_cons, ih, tagged, stretches_keep hB.toFinds]
    · simpa only [List.map_cons, map_piece_tagged] using hdiv
    · simpa only [List.map_cons, map_piece_tagged] using hnot
  | @skip pre m c r ms _ hat hσ _ ih =>
    rw [Reader.after_append, List.append_assoc, ← textOf_append] at ih
    rw [ih, stretches_tagged hB hat]
    simp [hσ]
  | @hit pre m c r M ms _ hat hσ _ hstart hstop _ ih =>
    have htext : M.text (pre ++ textOf (m ++ (c ++ r))).toArray = textOf m := by
      rw [Match.text, hstop, hstart, textOf_append]
      simp
    rw [Reader.after_append, List.append_assoc, ← textOf_append] at ih
    rw [List.map_cons, htext, ih, stretches_tagged hB hat]
    simp [hσ, hB.front_eq hat]

theorem Reads.texts_matchesOutside {p : Pattern} (hR : Reads p At) (hB : B.Delimits At front) (s : List Char)
    (skipLiterals : Bool) :
    (matchesOutside p s.toArray (skipIndex skipLiterals s)).map (·.text s.toArray) =
      (stretches B (tagged (readerFor skipLiterals) (pieces s))).map (textOf ∘ front) := by
  have htexts := (hR.visible s skipLiterals).texts_eq hB
  rwa [List.nil_append, textOf_pieces] at htexts

end Matches

end CadenceUplift
