import CadenceUplift.Proofs.Literal.Lookup
import CadenceUplift.Proofs.Text.Pieces

namespace CadenceUplift

open Literal (Mode)

/-- Where a reader stands. -/
inductive Reader where
  /-- Everything counts as code. -/
  | off
  | code
  /-- In code, after a slash that may open a comment. -/
  | slash
  | line
  | block (depth : Nat)
  | blockSlash (depth : Nat)
  | blockStar (depth : Nat)
  | string
  /-- In a string, after a backslash. -/
  | escape
deriving DecidableEq, Repr

namespace Reader

/-- The next state in code. -/
def codeNext (c : Char) : Reader := if c = '/' then .slash else if c = '"' then .string else .code

/-- The next state in a block comment. -/
def blockNext (depth : Nat) (c : Char) : Reader :=
  if c = '/' then .blockSlash depth else if c = '*' then .blockStar depth else .block depth

/-- The state after one more character. -/
def next : Reader → Char → Reader
  | .off, _ => .off
  | .code, c => codeNext c
  | .slash, c => if c = '/' then .line else if c = '*' then .block 0 else codeNext c
  | .line, c => if c = '\n' then .code else .line
  | .block d, c => blockNext d c
  | .blockSlash d, c => if c = '*' then .block (d + 1) else blockNext d c
  | .blockStar d, c =>
    if c = '/' then
      match d with
      | 0 => .code
      | d + 1 => .block d
    else blockNext d c
  | .string, c => if c = '\\' then .escape else if c = '"' ∨ c = '\n' then .code else .string
  | .escape, _ => .string

/-- The state after a text. -/
def after (σ : Reader) (s : List Char) : Reader := s.foldl next σ

/-- The reader stands in code. -/
def inCode : Reader → Bool
  | .off | .code | .slash => true
  | _ => false

/-- The kind of the literal that the reader is in. -/
def kind? : Reader → Option LiteralKind
  | .off | .code | .slash => none
  | .line | .block _ | .blockSlash _ | .blockStar _ => some .comment
  | .string | .escape => some .string

@[simp] theorem after_nil (σ : Reader) : σ.after [] = σ := rfl

@[simp] theorem after_cons (σ : Reader) (c : Char) (s : List Char) : σ.after (c :: s) = (σ.next c).after s := rfl

@[simp] theorem after_append (σ : Reader) (s u : List Char) : σ.after (s ++ u) = (σ.after s).after u :=
  List.foldl_append

theorem after_off (s : List Char) : Reader.off.after s = .off := by
  induction s with
  | nil => rfl
  | cons c s ih => exact ih

/-- The state once a comment or an escape can no longer begin or end with the next character. -/
def settle (σ : Reader) : Reader := σ.next ' '

@[simp] theorem settle_settle (σ : Reader) : σ.settle.settle = σ.settle := by
  cases σ <;> rfl

theorem inCode_settle (σ : Reader) : σ.settle.inCode = σ.inCode := by
  cases σ <;> rfl

theorem kind?_settle (σ : Reader) : σ.settle.kind? = σ.kind? := by
  cases σ <;> rfl

/-- The state of a reader in a mode of the search for literals. -/
def ofMode : Mode → Reader
  | .code => .code
  | .line _ => .line
  | .block _ d => .block d
  | .string _ => .string

end Reader

/-- The literals that a reader at `i` in a literal from `start` still has to expect. -/
def Pending (i start : Nat) (ls : List Literal) : Prop :=
  ∃ l ls', ls = l :: ls' ∧ l.start = start ∧ i ≤ l.stop ∧ Ordered l.stop ls'

theorem Pending.mono {i j start : Nat} {ls : List Literal} (h : Pending j start ls) (hij : i ≤ j) :
    Pending i start ls := by
  obtain ⟨l, ls', rfl, hs, hj, ho⟩ := h
  exact ⟨l, ls', rfl, hs, Nat.le_trans hij hj, ho⟩

theorem Pending.ordered {i start : Nat} {ls : List Literal} (h : Pending i start ls) (hi : start ≤ i) :
    Ordered start ls := by
  obtain ⟨l, ls', rfl, rfl, hj, ho⟩ := h
  exact ⟨Nat.le_refl _, Nat.le_trans hi hj, ho⟩

/-- In code all literals come later; otherwise the first is the one that the reader is in. -/
def Continues (i : Nat) : Mode → List Literal → Prop
  | .code, ls => Ordered i ls
  | .line s, ls | .block s _, ls | .string s, ls => Pending i s ls

theorem continues_scan (mode : Mode) (i : Nat) (s : List Char) : Continues i mode (Literal.scan mode i s) := by
  fun_induction Literal.scan mode i s with
  | case1 => trivial
  | case2 | case3 | case4 => exact ⟨_, _, rfl, rfl, Nat.le_refl _, trivial⟩
  | case5 i r ih => exact Pending.ordered (i := i + 2) ih (by omega)
  | case6 i r ih => exact Pending.ordered (i := i + 2) ih (by omega)
  | case7 i r ih => exact Pending.ordered (i := i + 1) ih (by omega)
  | case8 i c r _ _ _ ih => exact Ordered.mono ih (by omega)
  | case9 s i r ih => exact ⟨_, _, rfl, rfl, Nat.le_refl _, Ordered.mono ih (by simp)⟩
  | case10 s i c r _ ih => exact Pending.mono ih (by omega)
  | case11 s d i r ih => exact Pending.mono ih (by omega)
  | case12 s i r ih => exact ⟨_, _, rfl, rfl, by simp, ih⟩
  | case13 s d i r ih => exact Pending.mono ih (by omega)
  | case14 s d i c r _ _ _ ih => exact Pending.mono ih (by omega)
  | case15 s i c r ih => exact Pending.mono ih (by omega)
  | case16 s i r ih => exact ⟨_, _, rfl, rfl, by simp, ih⟩
  | case17 s i r ih => exact ⟨_, _, rfl, rfl, Nat.le_refl _, Ordered.mono ih (by simp)⟩
  | case18 s i c r _ _ _ ih => exact Pending.mono ih (by omega)

theorem ordered_literals (s : List Char) : Ordered 0 (literals s) :=
  continues_scan .code 0 s

/-- One of the literals has the offset. -/
def Covered (j : Nat) (ls : List Literal) : Prop := ∃ l ∈ ls, l.start ≤ j ∧ j < l.stop

instance (j : Nat) (ls : List Literal) : Decidable (Covered j ls) :=
  inferInstanceAs (Decidable (∃ l ∈ ls, l.start ≤ j ∧ j < l.stop))

theorem Ordered.not_covered {i j : Nat} {ls : List Literal} (h : Ordered i ls) (hj : j < i) : ¬Covered j ls := by
  rintro ⟨l, hl, hs, _⟩
  have := h.start_le l hl
  omega

theorem Pending.covered {i j start : Nat} {ls : List Literal} (h : Pending i start ls) (hs : start ≤ j) (hj : j < i) :
    Covered j ls := by
  obtain ⟨l, ls', rfl, rfl, hi, _⟩ := h
  exact ⟨l, by simp, hs, by omega⟩

theorem covered_cons_of_le {j : Nat} {l : Literal} {ls : List Literal} (h : l.stop ≤ j) :
    Covered j (l :: ls) ↔ Covered j ls := by
  constructor
  · rintro ⟨l', hl', hs, hstop⟩
    rcases List.mem_cons.mp hl' with rfl | hl'
    · omega
    · exact ⟨l', hl', hs, hstop⟩
  · rintro ⟨l', hl', hs, hstop⟩
    exact ⟨l', by simp [hl'], hs, hstop⟩

theorem covers_literalIndex_iff {s : List Char} {j : Nat} : (literalIndex s).covers j = true ↔ Covered j (literals s) :=
  covers_ofList (ordered_literals s) j

/-- The offset at which the literal of a mode starts is not beyond the reader. -/
def StartsBy (i : Nat) : Mode → Prop
  | .code => True
  | .line s | .block s _ | .string s => s ≤ i

namespace Reader

/-- States in the same kind of place that no text starting like `r` tells apart. -/
structure Agree (r : List Char) (σ τ : Reader) : Prop where
  inCode : σ.inCode = τ.inCode
  kind : σ.kind? = τ.kind?
  next : ∀ e ∈ r.head?, σ.next e = τ.next e

variable {r : List Char} {c : Char}

theorem Agree.inCode_after {σ τ : Reader} (h : Agree r σ τ) {a b : List Char} (hr : r = a ++ b) :
    (σ.after a).inCode = (τ.after a).inCode := by
  cases a with
  | nil => exact h.inCode
  | cons e a => rw [after_cons, after_cons, h.next e (by simp [hr])]

theorem head_ne {y : Char} (h : ∀ r', r = y :: r' → False) : ∀ e ∈ r.head?, e ≠ y := by
  rintro e he rfl
  obtain ⟨r', rfl⟩ := List.head?_eq_some_iff.mp he
  exact h r' rfl

/-- A character of code that opens nothing: a slash that no slash or star follows is like any other. -/
theorem agree_code (hline : ∀ r', c = '/' → r = '/' :: r' → False) (hblock : ∀ r', c = '/' → r = '*' :: r' → False)
    (hquote : c ≠ '"') : Agree r (Reader.code.next c) .code := by
  by_cases hc : c = '/'
  · have h₁ := head_ne fun r' => hline r' hc
    have h₂ := head_ne fun r' => hblock r' hc
    have hstate : Reader.code.next c = .slash := by simp [next, codeNext, hc]
    rw [hstate]
    exact ⟨rfl, rfl, fun e he => by simp [next, h₁ e he, h₂ e he]⟩
  · have hstate : Reader.code.next c = .code := by simp [next, codeNext, hc, hquote]
    rw [hstate]
    exact ⟨rfl, rfl, fun _ _ => rfl⟩

theorem agree_line (hline : c ≠ '\n') : Agree r (Reader.line.next c) .line := by
  have hstate : Reader.line.next c = .line := by simp [next, hline]
  rw [hstate]
  exact ⟨rfl, rfl, fun _ _ => rfl⟩

theorem agree_block {d : Nat} (hopen : ∀ r', c = '/' → r = '*' :: r' → False)
    (hclose : ∀ r', c = '*' → r = '/' :: r' → False) : Agree r ((Reader.block d).next c) (.block d) := by
  change Agree r (blockNext d c) (.block d)
  unfold blockNext
  split
  next hc =>
    have hstar := head_ne fun r' => hopen r' hc
    exact ⟨rfl, rfl, fun e he => by simp [next, hstar e he]⟩
  next =>
    split
    next hc =>
      have hslash := head_ne fun r' => hclose r' hc
      exact ⟨rfl, rfl, fun e he => by simp [next, hslash e he]⟩
    next => exact ⟨rfl, rfl, fun _ _ => rfl⟩

/-- A character of a string that neither ends it nor takes another: a backslash is one at the end of the text only. -/
theorem agree_string (hback : ∀ y r', c = '\\' → r = y :: r' → False) (hquote : c ≠ '"') (hline : c ≠ '\n') :
    Agree r (Reader.string.next c) .string := by
  by_cases hc : c = '\\'
  · have hstate : Reader.string.next c = .escape := by simp [next, hc]
    rw [hstate]
    refine ⟨rfl, rfl, ?_⟩
    intro e he
    obtain ⟨r', hr⟩ := List.head?_eq_some_iff.mp he
    exact (hback e r' hc hr).elim
  · have hstate : Reader.string.next c = .string := by simp [next, hc, hquote, hline]
    rw [hstate]
    exact ⟨rfl, rfl, fun _ _ => rfl⟩

end Reader

/-- A mark closes a comment at the top and further in. -/
theorem not_closes {d : Nat} {c : Char} {r : List Char} (htop : ∀ r', d = 0 → c = '*' → r = '/' :: r' → False)
    (hdeep : ∀ d' r', d = d' + 1 → c = '*' → r = '/' :: r' → False) : ∀ r', c = '*' → r = '/' :: r' → False := by
  intro r' hc hr
  cases d with
  | zero => exact htop r' rfl hc hr
  | succ d => exact hdeep d r' rfl hc hr

theorem drop_eq_cons {s r : List Char} {i : Nat} {c : Char} (h : s.drop i = c :: r) :
    s[i]? = some c ∧ s.drop (i + 1) = r ∧ i < s.length := by
  have hlt : i < s.length := by
    by_contra hge
    rw [List.drop_eq_nil_of_le (by omega)] at h
    cases h
  rw [List.drop_eq_getElem_cons hlt] at h
  obtain ⟨hc, hr⟩ := List.cons.inj h
  exact ⟨by rw [List.getElem?_eq_getElem hlt, hc], hr, hlt⟩

/-- A character that no comment or string begins or ends with. -/
def Quiet (c : Char) : Prop := ∀ x ∈ ['/', '*', '"', '\\', '\n'], c ≠ x

/-- Characters of a kind that has no mark of a literal are quiet. -/
theorem quiet_of {p : Char → Bool} (hmarks : ['/', '*', '"', '\\', '\n'].any p = false) {c : Char} (hc : p c = true) :
    Quiet c := by
  rintro x hx rfl
  exact List.any_eq_false.mp hmarks _ hx hc

theorem quiet_of_isWord {c : Char} (hc : Text.isWord c = true) : Quiet c := quiet_of (by decide) hc

/-- Quiet characters are all alike to a reader. -/
theorem next_quiet {c : Char} (hc : Quiet c) (σ : Reader) : σ.next c = σ.settle := by
  have hslash := hc '/' (by simp)
  have hstar := hc '*' (by simp)
  have hquote := hc '"' (by simp)
  have hback := hc '\\' (by simp)
  have hline := hc '\n' (by simp)
  cases σ <;> simp [Reader.settle, Reader.next, Reader.codeNext, Reader.blockNext, hslash, hstar, hquote, hback, hline]

theorem after_eq_settle {σ : Reader} {s : List Char} (hne : s ≠ [])
    (h : ∀ c ∈ s, σ.next c = σ.settle ∧ σ.settle.next c = σ.settle) : σ.after s = σ.settle := by
  have hrest (u : List Char) (hu : ∀ c ∈ u, σ.settle.next c = σ.settle) : σ.settle.after u = σ.settle := by
    induction u with
    | nil => rfl
    | cons c u ih =>
      rw [Reader.after_cons, hu c (by simp)]
      exact ih fun d hd => hu d (by simp [hd])
  obtain ⟨c, u, rfl⟩ := List.exists_cons_of_ne_nil hne
  rw [Reader.after_cons, (h c (by simp)).1]
  exact hrest u fun d hd => (h d (by simp [hd])).2

theorem after_quiet {s : List Char} (hne : s ≠ []) (hs : ∀ c ∈ s, Quiet c) (σ : Reader) : σ.after s = σ.settle := by
  refine after_eq_settle hne fun c hc => ⟨next_quiet (hs c hc) σ, ?_⟩
  rw [next_quiet (hs c hc), Reader.settle_settle]

/-- What stands in front of a character, where the text starts with another one. -/
theorem exists_tail_of_ne {x c : Char} {r a b : List Char} (h : x :: r = a ++ c :: b) (hne : c ≠ x) :
    ∃ a', a = x :: a' ∧ r = a' ++ c :: b := by
  rcases List.cons_eq_append_iff.mp h with ⟨rfl, hr⟩ | ⟨a', rfl, hr⟩
  · exact absurd (List.cons.inj hr).1 hne
  · exact ⟨a', rfl, hr⟩

/-- What stands in front of a quiet character, where the text does not start with one. -/
theorem exists_tail {x c : Char} {r a b : List Char} (h : x :: r = a ++ c :: b) (hc : Quiet c)
    (hx : x ∈ ['/', '*', '"', '\\', '\n']) : ∃ a', a = x :: a' ∧ r = a' ++ c :: b :=
  exists_tail_of_ne h (hc x hx)

theorem one_further (i : Nat) (x : Char) (a : List Char) : i + (x :: a).length = i + 1 + a.length := by
  simp; omega

theorem two_further (i : Nat) (x y : Char) (a : List Char) : i + (x :: y :: a).length = i + 2 + a.length := by
  simp; omega

theorem inCode_after_iff {x : Char} {r : List Char} {σ : Reader} (h : Reader.Agree r (σ.next x) σ) {a b : List Char}
    (hr : r = a ++ b) : (σ.after a).inCode = false ↔ (σ.after (x :: a)).inCode = false := by
  rw [Reader.after_cons, h.inCode_after hr]

/-- At a quiet character the reader is in code exactly when no literal covers the place. -/
theorem scan_covered (mode : Mode) (i : Nat) (s : List Char) {a b : List Char} {c : Char} (hs : s = a ++ c :: b)
    (hc : Quiet c) (hi : StartsBy i mode) :
    Covered (i + a.length) (Literal.scan mode i s) ↔ ((Reader.ofMode mode).after a).inCode = false := by
  fun_induction Literal.scan mode i s generalizing a with
  | case1 | case2 | case3 | case4 => simp at hs
  | case5 i r ih | case6 i r ih =>
    obtain ⟨a₁, rfl, h₁⟩ := exists_tail hs hc (by decide)
    obtain ⟨a₂, rfl, h₂⟩ := exists_tail h₁ hc (by decide)
    rw [two_further]
    exact ih h₂ (by simp [StartsBy])
  | case7 i r ih =>
    obtain ⟨a₁, rfl, h₁⟩ := exists_tail hs hc (by decide)
    rw [one_further]
    exact ih h₁ (by simp [StartsBy])
  | case8 i x r hline hblock hquote ih =>
    rcases List.cons_eq_append_iff.mp hs with ⟨rfl, hr⟩ | ⟨a₁, rfl, h₁⟩
    · have hno := Ordered.not_covered (j := i) (continues_scan .code (i + 1) r) (by omega)
      simpa [Reader.ofMode, Reader.inCode] using hno
    · rw [one_further, ih h₁ trivial]
      exact inCode_after_iff (Reader.agree_code hline hblock hquote) h₁
  | case9 s i r ih | case17 s i r ih =>
    obtain ⟨a₁, rfl, h₁⟩ := exists_tail hs hc (by decide)
    rw [one_further, covered_cons_of_le (by simp; omega)]
    exact ih h₁ trivial
  | case10 s i x r hx ih =>
    rcases List.cons_eq_append_iff.mp hs with ⟨rfl, hr⟩ | ⟨a₁, rfl, h₁⟩
    · have hyes := Pending.covered (j := i) (continues_scan (.line s) (i + 1) r) hi (by omega)
      simpa [Reader.ofMode, Reader.inCode] using hyes
    · rw [one_further, ih h₁ (Nat.le_succ_of_le hi)]
      exact inCode_after_iff (Reader.agree_line hx) h₁
  | case11 s d i r ih | case13 s d i r ih =>
    obtain ⟨a₁, rfl, h₁⟩ := exists_tail hs hc (by decide)
    obtain ⟨a₂, rfl, h₂⟩ := exists_tail h₁ hc (by decide)
    rw [two_further]
    exact ih h₂ (Nat.le_add_right_of_le hi)
  | case12 s i r ih =>
    obtain ⟨a₁, rfl, h₁⟩ := exists_tail hs hc (by decide)
    obtain ⟨a₂, rfl, h₂⟩ := exists_tail h₁ hc (by decide)
    rw [two_further, covered_cons_of_le (by simp)]
    exact ih h₂ trivial
  | case14 s d i x r hopen hclose hdeep ih =>
    rcases List.cons_eq_append_iff.mp hs with ⟨rfl, hr⟩ | ⟨a₁, rfl, h₁⟩
    · have hyes := Pending.covered (j := i) (continues_scan (.block s d) (i + 1) r) hi (by omega)
      simpa [Reader.ofMode, Reader.inCode] using hyes
    · rw [one_further, ih h₁ (Nat.le_succ_of_le hi)]
      exact inCode_after_iff (Reader.agree_block hopen (not_closes hclose hdeep)) h₁
  | case15 s i x r ih =>
    obtain ⟨a₁, rfl, h₁⟩ := exists_tail hs hc (by decide)
    rcases List.cons_eq_append_iff.mp h₁ with ⟨rfl, hr⟩ | ⟨a₂, rfl, h₂⟩
    · have hyes := Pending.covered (j := i + 1) (continues_scan (.string s) (i + 2) r)
        (Nat.le_succ_of_le hi) (by omega)
      simpa [Reader.ofMode, Reader.next, Reader.inCode] using hyes
    · rw [two_further]
      exact ih h₂ (Nat.le_add_right_of_le hi)
  | case16 s i r ih =>
    obtain ⟨a₁, rfl, h₁⟩ := exists_tail hs hc (by decide)
    rw [one_further, covered_cons_of_le (by simp)]
    exact ih h₁ trivial
  | case18 s i x r hback hquote hline ih =>
    rcases List.cons_eq_append_iff.mp hs with ⟨rfl, hr⟩ | ⟨a₁, rfl, h₁⟩
    · have hyes := Pending.covered (j := i) (continues_scan (.string s) (i + 1) r) hi (by omega)
      simpa [Reader.ofMode, Reader.inCode] using hyes
    · rw [one_further, ih h₁ (Nat.le_succ_of_le hi)]
      exact inCode_after_iff (Reader.agree_string hback hquote hline) h₁

/-- A quiet character is in a literal just if a reader in front of it is. -/
theorem covered_literals {s a b : List Char} {c : Char} (hs : s = a ++ c :: b) (hc : Quiet c) :
    Covered a.length (literals s) ↔ (Reader.code.after a).inCode = false := by
  have hscan := scan_covered .code 0 s hs hc trivial
  rw [Nat.zero_add] at hscan
  exact hscan

/-- What a look-up of literals says at a word character, the reader says too. -/
theorem covers_literalIndex {a b : List Char} {c : Char} (hc : Text.isWord c = true) :
    (literalIndex (a ++ c :: b)).covers a.length = !(Reader.code.after a).inCode := by
  rw [Bool.eq_iff_iff, covers_literalIndex_iff]
  exact (covered_literals rfl (quiet_of_isWord hc)).trans (by simp)

end CadenceUplift
