import CadenceUplift.Proofs.Literal.Reader

namespace CadenceUplift

open Literal (Mode)

/-- The kinds and texts of the literals of a text, in order. -/
def literalTexts (s : List Char) : List (LiteralKind × List Char) :=
  (literals s).map fun l => (l.kind, s.extract l.start l.stop)

namespace Reader

/-- What the reader has of a literal after one more character. -/
def gathered (σ : Reader) (acc : List Char) (c : Char) : List Char :=
  match σ.kind?, (σ.next c).kind? with
  | some _, _ => acc ++ [c]
  | none, some .comment => ['/', c]
  | none, _ => [c]

/-- The literal that one more character completes. A newline is not part of it. -/
def completed (σ : Reader) (acc : List Char) (c : Char) : List (LiteralKind × List Char) :=
  match σ.kind?, (σ.next c).kind? with
  | some k, none => [(k, if c = '\n' then acc else acc ++ [c])]
  | _, _ => []

/-- The literals of a text, for a reader that has `acc` of the one it is in. -/
def literalsFrom : Reader → List Char → List Char → List (LiteralKind × List Char)
  | σ, acc, [] => σ.kind?.toList.map (·, acc)
  | σ, acc, c :: r => σ.completed acc c ++ literalsFrom (σ.next c) (σ.gathered acc c) r

theorem literalsFrom_cons (σ : Reader) (acc : List Char) (c : Char) (r : List Char) :
    σ.literalsFrom acc (c :: r) = σ.completed acc c ++ (σ.next c).literalsFrom (σ.gathered acc c) r := rfl

theorem literalsFrom_congr {r : List Char} {σ τ : Reader} (h : Agree r σ τ) (acc : List Char) :
    σ.literalsFrom acc r = τ.literalsFrom acc r := by
  cases r with
  | nil => simp only [literalsFrom, h.kind]
  | cons e r => simp only [literalsFrom, completed, gathered, h.kind, h.next e (by simp)]

/-- In code there is nothing to go on from. -/
theorem literalsFrom_inCode {σ : Reader} (hσ : σ.kind? = none) (acc acc' r : List Char) :
    σ.literalsFrom acc r = σ.literalsFrom acc' r := by
  cases r with
  | nil => simp [literalsFrom, hσ]
  | cons e r =>
    have hgathered : σ.gathered acc e = σ.gathered acc' e := by
      simp only [gathered, hσ]
      cases (σ.next e).kind? with
      | none => rfl
      | some k => cases k <;> rfl
    have hcompleted : σ.completed acc e = σ.completed acc' e := by simp [completed, hσ]
    rw [literalsFrom, literalsFrom, hgathered, hcompleted]

theorem kind?_eq_none_iff {σ : Reader} : σ.kind? = none ↔ σ.inCode = true := by
  cases σ <;> simp [kind?, Reader.inCode]

/-- A stretch that does not lead out of code holds no literal. -/
theorem literalsFrom_append {σ : Reader} (hσ : σ.inCode = true) {m : List Char}
    (hm : ∀ c ∈ m, ∀ τ : Reader, τ.inCode = true → (τ.next c).inCode = true) (acc acc' r : List Char) :
    σ.literalsFrom acc (m ++ r) = (σ.after m).literalsFrom acc' r := by
  induction m generalizing σ acc with
  | nil => exact literalsFrom_inCode (kind?_eq_none_iff.mpr hσ) acc acc' r
  | cons c m ih =>
    have hnext := hm c (by simp) σ hσ
    have hnone : σ.completed acc c = [] := by simp [completed, kind?_eq_none_iff.mpr hσ]
    rw [List.cons_append, literalsFrom_cons, hnone, List.nil_append]
    exact ih hnext (fun d hd => hm d (by simp [hd])) _

/-- A character of code that opens no literal. -/
theorem literalsFrom_pass {σ : Reader} (hσ : σ.kind? = none) {c : Char} {r : List Char} (h : Agree r (σ.next c) σ)
    (acc acc' : List Char) : σ.literalsFrom acc (c :: r) = σ.literalsFrom acc' r := by
  have hnone : σ.completed acc c = [] := by simp [completed, hσ]
  rw [literalsFrom_cons, hnone, List.nil_append, literalsFrom_congr h, literalsFrom_inCode hσ]

/-- A character of a literal that does not end it. -/
theorem literalsFrom_further {σ : Reader} {k : LiteralKind} (hσ : σ.kind? = some k) {c : Char} {r : List Char}
    (h : Agree r (σ.next c) σ) (acc : List Char) : σ.literalsFrom acc (c :: r) = σ.literalsFrom (acc ++ [c]) r := by
  have hnext : (σ.next c).kind? = some k := h.kind.trans hσ
  have hnone : σ.completed acc c = [] := by simp [completed, hσ, hnext]
  have hmore : σ.gathered acc c = acc ++ [c] := by simp [gathered, hσ]
  rw [literalsFrom_cons, hnone, List.nil_append, hmore, literalsFrom_congr h]

end Reader

theorem completed_quiet {c : Char} (hc : Quiet c) (σ : Reader) (acc : List Char) : σ.completed acc c = [] := by
  rw [Reader.completed, next_quiet hc, Reader.kind?_settle]
  cases σ.kind? <;> rfl

section Scanning

variable {s : List Char} {a i : Nat} {c : Char}

theorem extract_further (ha : a ≤ i) (hc : s[i]? = some c) : s.extract a (i + 1) = s.extract a i ++ [c] := by
  have hsub : i + 1 - a = (i - a) + 1 := by omega
  have hget : (s.drop a)[i - a]? = some c := by rw [List.getElem?_drop, Nat.add_sub_cancel' ha, hc]
  rw [List.extract_eq_take_drop, List.extract_eq_take_drop, hsub, List.take_add_one, hget]
  rfl

theorem extract_self (s : List Char) (i : Nat) : s.extract i i = [] := by
  simp [List.extract_eq_take_drop]

end Scanning

end CadenceUplift
