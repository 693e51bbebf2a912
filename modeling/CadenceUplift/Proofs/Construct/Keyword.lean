import CadenceUplift.Proofs.Lexeme.Scanner
import CadenceUplift.Proofs.Text.Words

namespace CadenceUplift

open Text Scanner

/-- Where a scanner for a keyword in front of a declaration stands. -/
inductive KeywordState where
  /-- After `pub`, with `(set)` still to come. -/
  | bare
  | opened
  | inside
  /-- After the whole keyword. -/
  | complete
  | gap
deriving DecidableEq, Repr

/-- How the scanner for a keyword goes on. -/
def keywordStep : KeywordState → Piece → Progress KeywordState
  | .bare, .symbol c => if c = '(' then .go .opened else .fail
  | .opened, .word w => if w = Word.set then .go .inside else .fail
  | .inside, .symbol c => if c = ')' then .go .complete else .fail
  | .complete, .blank _ => .go .gap
  | .gap, .blank _ => .go .gap
  | .gap, .word w => if Word.declarations.contains w then .accept else .fail
  | _, _ => .fail

/-- Scans `pub`, or `pub(set)`, in front of a declaration. -/
def keywordScanner (bracketed : Bool) : Scanner KeywordState where
  first := opensAmong [Word.pub] (if bracketed then .bare else .complete)
  step := keywordStep

@[simp] theorem keywordScanner_first (b : Bool) :
    (keywordScanner b).first = opensAmong [Word.pub] (if b then .bare else .complete) := rfl

@[simp] theorem keywordScanner_step (b : Bool) : (keywordScanner b).step = keywordStep := rfl

attribute [local simp] keywordStep

/-- The pieces of a keyword. -/
def keywordPieces (bracketed : Bool) : List Piece :=
  if bracketed then [.word Word.pub, .symbol '(', .word Word.set, .symbol ')']
  else [.word Word.pub]

/-- A keyword and the blanks after it, in front of a declaration. -/
def KeywordAt (bracketed : Bool) (m c : List Piece) : Prop :=
  ∃ g kw, m = keywordPieces bracketed ++ [.blank g] ∧ kw ∈ Word.declarations ∧ c = [.word kw]

theorem keyword_feed_gap {xs : List Piece} {b : Bool}
    (h : (keywordScanner b).feed (.go .gap) xs = .accept) :
    (∃ g r, xs = .blank g :: r) ∨ ∃ kw r, xs = .word kw :: r ∧ kw ∈ Word.declarations := by
  obtain ⟨x, r, rfl, hx⟩ := feed_go_eq_accept.mp h
  cases x with
  | blank g => exact .inl ⟨g, r, rfl⟩
  | symbol c => simp at hx
  | word kw =>
    refine .inr ⟨kw, r, rfl, ?_⟩
    by_contra hkw
    simp [hkw] at hx

theorem keyword_feed_complete {xs : List Piece} (hxs : Divided xs) {b : Bool}
    (h : (keywordScanner b).feed (.go .complete) xs = .accept) :
    ∃ g kw r, xs = .blank g :: .word kw :: r ∧ kw ∈ Word.declarations := by
  obtain ⟨x, xs, rfl, hx⟩ := feed_go_eq_accept.mp h
  cases x with
  | word w => simp at hx
  | symbol c => simp at hx
  | blank g =>
    obtain ⟨g', r, rfl⟩ | ⟨kw, r, rfl, hkw⟩ := keyword_feed_gap hx
    · have hap := (divided_cons.mp hxs).2.1 (.blank g') (by simp)
      simp [Piece.Apart] at hap
    · exact ⟨g, kw, r, rfl, hkw⟩

theorem keyword_feed_bare {b : Bool} {xs : List Piece} :
    (keywordScanner b).feed (.go .bare) xs = .accept ↔
      ∃ r, xs = .symbol '(' :: .word Word.set :: .symbol ')' :: r ∧
        (keywordScanner b).feed (.go .complete) r = .accept := by
  have hbare : ∀ x, x ≠ .symbol '(' → keywordStep .bare x = .fail := by
    intro x hx
    cases x <;> simp_all
  have hopened : ∀ x, x ≠ .word Word.set → keywordStep .opened x = .fail := by
    intro x hx
    cases x <;> simp_all
  have hinside : ∀ x, x ≠ .symbol ')' → keywordStep .inside x = .fail := by
    intro x hx
    cases x <;> simp_all
  constructor
  · intro h
    obtain ⟨xs, rfl, h₁⟩ := (feed_expects hbare).mp h
    obtain ⟨xs, rfl, h₂⟩ := (feed_expects hopened).mp h₁
    obtain ⟨r, rfl, h₃⟩ := (feed_expects hinside).mp h₂
    exact ⟨r, rfl, h₃⟩
  · rintro ⟨r, rfl, h⟩
    exact h

theorem keyword_found {b : Bool} {xs : List Piece} (hxs : Divided xs)
    (h : (keywordScanner b).accepts xs = true) : ∃ m c r, xs = m ++ (c ++ r) ∧ KeywordAt b m c := by
  cases xs with
  | nil => simp [accepts] at h
  | cons x r =>
    obtain ⟨q, hq, hr⟩ := accepts_cons.mp h
    obtain ⟨w, hw, rfl, rfl⟩ := opensAmong_eq_some.mp hq
    obtain rfl := List.mem_singleton.mp hw
    cases b with
    | false =>
      obtain ⟨g, kw, r₀, rfl, hkw⟩ := keyword_feed_complete hxs.tail hr
      exact ⟨_, [.word kw], r₀, rfl, g, kw, rfl, hkw, rfl⟩
    | true =>
      obtain ⟨r, rfl, hr⟩ := keyword_feed_bare.mp hr
      obtain ⟨g, kw, r₀, rfl, hkw⟩ := keyword_feed_complete hxs.tail.tail.tail.tail hr
      exact ⟨_, [.word kw], r₀, rfl, g, kw, rfl, hkw, rfl⟩

theorem keyword_finds (b : Bool) : (keywordScanner b).Finds (KeywordAt b) where
  opens := by
    rintro m c ⟨g, kw, rfl, _, _⟩
    cases b <;> exact ⟨_, _, rfl⟩
  accepts := by
    rintro m c ⟨g, kw, rfl, hkw, rfl⟩ r
    cases b <;> simp [accepts, keywordScanner, opensAmong, keywordPieces, hkw, Progress.isAccept]
  found := keyword_found
  silent := by
    rintro x m c ⟨g, kw, hm, _, rfl⟩ r
    refine silent_of_first ?_
    have hm : m = (keywordPieces b ++ [Piece.blank g]).tail := by rw [← hm]; rfl
    have hset : Word.set ≠ Word.pub := by decide
    cases b <;> simp [hm, keywordPieces, keywordScanner, opensAmong, hset]

end CadenceUplift
