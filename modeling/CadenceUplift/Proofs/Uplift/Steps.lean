import CadenceUplift.Uplift
import CadenceUplift.Proofs.Construct.Insertion
import CadenceUplift.Proofs.Construct.Rewriting

namespace CadenceUplift

open Text Pattern

theorem Pass.edited {At : List Piece → List Piece → Prop} {E : List Lexeme → List Lexeme → List Lexeme → Prop}
    {ts ts' : List Lexeme} {n : Nat} (h : Pass At E ts ts' n) : Edited E ts ts' n := by
  induction h with
  | nil => exact .nil
  | keep _ _ ih => exact .keep _ ih
  | skip _ _ _ _ ih => exact ih.append_left _
  | change _ _ _ he _ ih => exact .change he ih

/-- The lexemes of a text as a replacement sees them. -/
def lexemes (skipLiterals : Bool) (s : List Char) : List Lexeme := tagged (readerFor skipLiterals) (pieces s)

/-- Without matches to replace, a text stays as it is. -/
theorem replaceInCode_unchanged {ε : Type} {p : Pattern} {f : Match → Array Char → Except ε (List Char)}
    {s s' : List Char} {skipLiterals : Bool}
    (h : replaceInCode p f s skipLiterals = .ok ⟨s', (matchesOutside p s.toArray (skipIndex skipLiterals s)).length⟩)
    (hzero : (matchesOutside p s.toArray (skipIndex skipLiterals s)).length = 0) : s' = s := by
  have hnil := List.eq_nil_of_length_eq_zero hzero
  have hsame : replaceInCode p f s skipLiterals = .ok ⟨s, 0⟩ := by
    rw [replaceInCode]
    change (rewriteAll f s.toArray (matchesOutside p s.toArray (skipIndex skipLiterals s)) >>= _) = _
    rw [hnil]
    simp [rewriteAll, splice, pure, Except.pure, bind, Except.bind]
    exact hnil
  rw [hsame, hzero] at h
  cases h
  rfl

/-- A step of an uplift. -/
inductive Step where
  | target (t : Target)
  | getter
deriving DecidableEq, Repr

namespace Step

/-- What the step looks for. -/
def pattern : Step → Pattern
  | .target t => t.pattern
  | .getter => Legacy.getter

/-- What a match becomes. -/
def write : Step → Match → Array Char → List Char
  | .target t => t.write
  | .getter => insertView

/-- The pass that the step is part of. -/
def category : Step → Category
  | .target (.keyword _) => .accessModifier
  | .target .conformance => .interface
  | .target (.member _) => .storage
  | .getter => .function

/-- The number of places that the step would change. -/
def load (skipLiterals : Bool) (st : Step) (s : List Char) : Nat :=
  (matchesOutside st.pattern s.toArray (skipIndex skipLiterals s)).length

/-- The step over a text. -/
def run (skipLiterals : Bool) (st : Step) (s : List Char) : Except UpliftError Replaced :=
  replaceInCode st.pattern (fun M t => .ok (st.write M t)) s skipLiterals

end Step

section Loads

variable {skipLiterals : Bool} {s s' : List Char} {n : Nat}

theorem Target.load_eq_hits (t : Target) (s : List Char) :
    (Step.target t).load skipLiterals s = t.hits Lexeme.piece (lexemes skipLiterals s) := by
  have hreads := (t.rewrites (ε := Unit)).toReads
  cases t with
  | keyword b => exact hreads.length_matchesOutside (keyword_finds b) s skipLiterals
  | conformance => exact hreads.length_matchesOutside conformance_finds s skipLiterals
  | member m => exact hreads.length_matchesOutside (member_finds (account_not_name m) m.isCall) s skipLiterals

/-- A step of a construct takes it away and leaves the others. -/
theorem Target.run_step (t : Target) (skipLiterals : Bool) (s : List Char) :
    ∃ s', (Step.target t).run skipLiterals s = .ok ⟨s', (Step.target t).load skipLiterals s⟩ ∧
      (Step.target t).load skipLiterals s' = 0 ∧
      ∀ u, u ≠ t → (Step.target u).load skipLiterals s' = (Step.target u).load skipLiterals s := by
  obtain ⟨s', n, hrun, hn, hpass⟩ := t.rewrites.replaceInCode s skipLiterals
  obtain rfl : n = (Step.target t).load skipLiterals s := hn
  have hsees : SeesCode Lexeme.piece := fun _ => rfl
  have hown := hits_own hsees t hpass.edited
  refine ⟨s', hrun, ?_, ?_⟩
  · rw [load_eq_hits] at hown ⊢
    simp only [lexemes] at hown ⊢
    omega
  · intro u hu
    rw [load_eq_hits, load_eq_hits]
    exact (hits_other hsees hu hpass.edited).symm

/-- The step for getters takes them away and makes none of the other constructs. -/
theorem getter_run_step (skipLiterals : Bool) (s : List Char) :
    ∃ s', Step.getter.run skipLiterals s = .ok ⟨s', Step.getter.load skipLiterals s⟩ ∧
      Step.getter.load skipLiterals s' = 0 ∧
      ∀ u, (Step.target u).load skipLiterals s' ≤ (Step.target u).load skipLiterals s := by
  obtain ⟨s', n, hrun, hn, hpass⟩ := getter_rewrites.replaceInCode s skipLiterals
  obtain rfl : n = Step.getter.load skipLiterals s := hn
  obtain ⟨s₂, k, _, hk, hpass'⟩ := (getter_rewrites (ε := UpliftError)).replaceInCode s' skipLiterals
  refine ⟨s', hrun, hk.symm.trans (hpass.getter_settled.count_zero hpass'), ?_⟩
  intro u
  rw [Target.load_eq_hits, Target.load_eq_hits]
  exact u.hits_inserted hpass.inserted

/-- The text after a step. -/
def Step.after (skipLiterals : Bool) (st : Step) (s : List Char) : List Char :=
  match st.run skipLiterals s with
  | .ok r => r.text
  | .error _ => s

theorem Step.after_of_run {st : Step} (h : st.run skipLiterals s = .ok ⟨s', n⟩) :
    st.after skipLiterals s = s' := by
  rw [Step.after, h]

/-- A step ends, counts what it looked for, and leaves none of it. -/
theorem Step.run_ok (st : Step) (skipLiterals : Bool) (s : List Char) :
    st.run skipLiterals s = .ok ⟨st.after skipLiterals s, st.load skipLiterals s⟩ ∧
      st.load skipLiterals (st.after skipLiterals s) = 0 := by
  cases st with
  | target t =>
    obtain ⟨s', hrun, hzero, _⟩ := t.run_step skipLiterals s
    rw [Step.after_of_run hrun]
    exact ⟨hrun, hzero⟩
  | getter =>
    obtain ⟨s', hrun, hzero, _⟩ := getter_run_step skipLiterals s
    rw [Step.after_of_run hrun]
    exact ⟨hrun, hzero⟩

theorem Step.run_eq (st : Step) (skipLiterals : Bool) (s : List Char) :
    st.run skipLiterals s = .ok ⟨st.after skipLiterals s, st.load skipLiterals s⟩ :=
  (st.run_ok skipLiterals s).1

theorem Step.load_after (st : Step) (skipLiterals : Bool) (s : List Char) :
    st.load skipLiterals (st.after skipLiterals s) = 0 :=
  (st.run_ok skipLiterals s).2

theorem Step.after_unchanged {st : Step} (h : st.load skipLiterals s = 0) : st.after skipLiterals s = s :=
  replaceInCode_unchanged (st.run_eq skipLiterals s) h

theorem Target.load_after_other {t u : Target} (h : u ≠ t) (skipLiterals : Bool) (s : List Char) :
    (Step.target u).load skipLiterals ((Step.target t).after skipLiterals s) =
      (Step.target u).load skipLiterals s := by
  obtain ⟨s', hrun, _, hothers⟩ := t.run_step skipLiterals s
  rw [Step.after_of_run hrun, hothers u h]

/-- What a step has taken away, no step brings back, the getters apart. -/
theorem Target.load_after_zero {u : Target} (h : (Step.target u).load skipLiterals s = 0) (st : Step) :
    (Step.target u).load skipLiterals (st.after skipLiterals s) = 0 := by
  cases st with
  | target t =>
    by_cases hut : u = t
    · rw [hut]
      exact Step.load_after _ _ _
    · rw [load_after_other hut, h]
  | getter =>
    obtain ⟨s', hrun, _, hothers⟩ := getter_run_step skipLiterals s
    rw [Step.after_of_run hrun]
    exact Nat.le_zero.mp (h ▸ hothers u)

end Loads

end CadenceUplift
