import CadenceUplift.Legacy.Shapes
import CadenceUplift.Proofs.Lexeme.Pass
import CadenceUplift.Proofs.Pattern.Language
import CadenceUplift.Proofs.Text.Lines
import CadenceUplift.Proofs.Text.Words

namespace CadenceUplift

open Text Pattern

namespace Pattern

theorem mem_language_all_cons {p : Pattern} {ps : List Pattern} {u : List Char} :
    u ∈ (all (p :: ps)).language ↔ ∃ x y, u = x ++ y ∧ x ∈ p.language ∧ y ∈ (all ps).language := by
  rw [language_all, List.map_cons, List.prod_cons, Language.mem_mul, ← language_all]
  constructor
  · rintro ⟨x, hx, y, hy, rfl⟩
    exact ⟨x, y, rfl, hx, hy⟩
  · rintro ⟨x, y, rfl, hx, hy⟩
    exact ⟨x, hx, y, hy, rfl⟩

theorem mem_language_all_append {ps qs : List Pattern} {u : List Char} :
    u ∈ (all (ps ++ qs)).language ↔ ∃ x y, u = x ++ y ∧ x ∈ (all ps).language ∧ y ∈ (all qs).language := by
  rw [language_all, List.map_append, List.prod_append, Language.mem_mul, ← language_all, ← language_all]
  constructor
  · rintro ⟨x, hx, y, hy, rfl⟩
    exact ⟨x, y, rfl, hx, hy⟩
  · rintro ⟨x, y, rfl, hx, hy⟩
    exact ⟨x, hx, y, hy, rfl⟩

theorem mem_language_all_nil {u : List Char} : u ∈ (all []).language ↔ u = [] := mem_language_empty

theorem mem_language_all_singleton {p : Pattern} {u : List Char} : u ∈ (all [p]).language ↔ u ∈ p.language := Iff.rfl

theorem isTextual_all {ps : List Pattern} (h : ∀ p ∈ ps, p.isTextual = true) : (all ps).isTextual = true := by
  induction ps with
  | nil => rfl
  | cons p ps ih =>
    have hp := h p (by simp)
    have hps := ih fun q hq => h q (by simp [hq])
    cases ps with
    | nil => exact hp
    | cons q qs => simpa [all, isTextual, hp] using hps

theorem isTextual_chars (s : List Char) : ∀ p ∈ s.map Pattern.char, p.isTextual = true := by
  intro p hp
  obtain ⟨c, _, rfl⟩ := List.mem_map.mp hp
  rfl

section Behind

variable {a u : List Char} {cs : List Capture} {e : Place} {ps : List Pattern}

theorem reach_edge_cons :
    Reach (a ++ u).toArray (all (edge :: ps)) ⟨a.length, cs⟩ e ↔
      endsWord a ≠ startsWord u ∧ Reach (a ++ u).toArray (all ps) ⟨a.length, cs⟩ e := by
  rw [reach_all_cons]
  simp only [reach_edge_behind]
  constructor
  · rintro ⟨_, ⟨hne, rfl⟩, h⟩
    exact ⟨hne, h⟩
  · rintro ⟨hne, h⟩
    exact ⟨_, ⟨hne, rfl⟩, h⟩

theorem reach_textual_cons {p : Pattern} (hp : p.isTextual = true) :
    Reach (a ++ u).toArray (all (p :: ps)) ⟨a.length, cs⟩ e ↔
      ∃ x r, u = x ++ r ∧ x ∈ p.language ∧ Reach (a ++ x ++ r).toArray (all ps) ⟨(a ++ x).length, cs⟩ e := by
  rw [reach_all_cons]
  simp only [reach_textual hp]
  constructor
  · rintro ⟨_, ⟨x, r, rfl, hx, rfl⟩, h⟩
    exact ⟨x, r, rfl, hx, by simpa using h⟩
  · rintro ⟨x, r, rfl, hx, h⟩
    exact ⟨_, ⟨x, r, rfl, hx, rfl⟩, by simpa using h⟩

theorem reach_chars_append {w : List Char} :
    Reach (a ++ u).toArray (all (w.map .char ++ ps)) ⟨a.length, cs⟩ e ↔
      ∃ r, u = w ++ r ∧ Reach (a ++ w ++ r).toArray (all ps) ⟨(a ++ w).length, cs⟩ e := by
  have hw : (all (w.map .char)).isTextual = true := isTextual_all (isTextual_chars w)
  rw [reach_all_append]
  simp only [reach_textual hw, mem_language_chars]
  constructor
  · rintro ⟨_, ⟨x, r, rfl, rfl, rfl⟩, h⟩
    exact ⟨r, rfl, by simpa using h⟩
  · rintro ⟨r, rfl, h⟩
    exact ⟨_, ⟨w, r, rfl, rfl, rfl⟩, by simpa using h⟩

theorem reach_group_cons {n : Nat} {p : Pattern} (hp : p.isTextual = true) :
    Reach (a ++ u).toArray (all (.group n p :: ps)) ⟨a.length, cs⟩ e ↔
      ∃ x r, u = x ++ r ∧ x ∈ p.language ∧
        Reach (a ++ x ++ r).toArray (all ps) ⟨(a ++ x).length, ⟨n, a.length, (a ++ x).length⟩ :: cs⟩ e := by
  rw [reach_all_cons]
  simp only [Reach, reach_textual hp]
  constructor
  · rintro ⟨_, ⟨_, ⟨x, r, rfl, hx, rfl⟩, rfl⟩, h⟩
    exact ⟨x, r, rfl, hx, by simpa using h⟩
  · rintro ⟨x, r, rfl, hx, h⟩
    exact ⟨_, ⟨_, ⟨x, r, rfl, hx, rfl⟩, rfl⟩, by simpa using h⟩

theorem reach_edge_group_cons {n : Nat} {qs : List Pattern} (hq : (all qs).isTextual = true) :
    Reach (a ++ u).toArray (all (.group n (all (edge :: qs)) :: ps)) ⟨a.length, cs⟩ e ↔
      endsWord a ≠ startsWord u ∧ Reach (a ++ u).toArray (all (.group n (all qs) :: ps)) ⟨a.length, cs⟩ e := by
  rw [reach_group_cons hq, reach_all_cons]
  simp only [Reach, reach_edge_cons, reach_textual hq]
  constructor
  · rintro ⟨_, ⟨_, ⟨hedge, x, r, rfl, hx, rfl⟩, rfl⟩, h⟩
    exact ⟨hedge, x, r, rfl, hx, by simpa using h⟩
  · rintro ⟨hedge, x, r, rfl, hx, h⟩
    exact ⟨_, ⟨_, ⟨hedge, x, r, rfl, hx, rfl⟩, rfl⟩, by simpa using h⟩

theorem reach_ahead {p : Pattern} {t : Array Char} {s : Place} :
    Reach t (.ahead false p) s e ↔ (∃ far, Reach t p s far) ∧ e = s := Iff.rfl

theorem reach_all_nil {t : Array Char} {s : Place} : Reach t (all []) s e ↔ e = s := Iff.rfl

theorem reach_all_singleton {p : Pattern} {t : Array Char} {s : Place} : Reach t (all [p]) s e ↔ Reach t p s e := Iff.rfl

end Behind

theorem mem_language_many_blank {u : List Char} : u ∈ (many blank).language ↔ ∀ c ∈ u, isBlank c = true := by
  rw [blank, mem_language_many_member]
  simp [CharSet.holds, CharItem.holds]

theorem mem_language_many1_blank {u : List Char} :
    u ∈ (many1 blank).language ↔ u ≠ [] ∧ ∀ c ∈ u, isBlank c = true := by
  rw [blank, mem_language_many1_member]
  simp [CharSet.holds, CharItem.holds]

theorem mem_language_many_word {u : List Char} : u ∈ (many word).language ↔ ∀ c ∈ u, isWord c = true := by
  rw [word, mem_language_many_member]
  simp [CharSet.holds, CharItem.holds]

theorem mem_language_among {s : String} {u : List Char} : u ∈ (among s).language ↔ ∃ c ∈ s.toList, u = [c] := by
  rw [among, mem_language_member]
  simp [CharSet.holds, CharItem.holds, List.any_eq_true]

theorem mem_language_wordsOf {ws : List String} (hne : ws ≠ []) {u : List Char} :
    u ∈ (Legacy.wordsOf ws).language ↔ ∃ w ∈ ws, u = w.toList := by
  rw [Legacy.wordsOf, mem_language_oneOf (by simpa using hne)]
  simp only [List.mem_map, exists_exists_and_eq_and, Legacy.chars, mem_language_chars]

end Pattern

namespace Text

theorem isWord_of_upper {c : Char} (h : 'A' ≤ c ∧ c ≤ 'Z') : isWord c = true := by
  have hup : c.isUpper = true := decide_eq_true h
  have halpha : c.isAlpha = true := Bool.or_eq_true_iff.mpr (.inl hup)
  have hlt : c.toNat < 128 := Nat.lt_of_le_of_lt h.2 (by decide)
  simp [isWord, isAlphanumeric, hlt, Char.isAlphanum, halpha]

theorem isWord_of_lower {c : Char} (h : 'a' ≤ c ∧ c ≤ 'z') : isWord c = true := by
  have hlow : c.isLower = true := Bool.and_eq_true_iff.mpr ⟨decide_eq_true h.1, decide_eq_true h.2⟩
  have halpha : c.isAlpha = true := Bool.or_eq_true_iff.mpr (.inr hlow)
  have hlt : c.toNat < 128 := Nat.lt_of_le_of_lt h.2 (by decide)
  simp [isWord, isAlphanumeric, hlt, Char.isAlphanum, halpha]

theorem isWord_of_digit {c : Char} (h : '0' ≤ c ∧ c ≤ '9') : isWord c = true := by
  have hdigit : c.isDigit = true := by simpa [Char.isDigit, Char.le_def] using h
  have hlt : c.toNat < 128 := Nat.lt_of_le_of_lt h.2 (by decide)
  simp [isWord, isAlphanumeric, hlt, Char.isAlphanum, hdigit]

theorem startsWord_append {w : List Char} (hne : w ≠ []) (s : List Char) : startsWord (w ++ s) = startsWord w := by
  obtain ⟨c, v, rfl⟩ := List.exists_cons_of_ne_nil hne
  rfl

theorem startsBlank_append {w : List Char} (hne : w ≠ []) (s : List Char) : startsBlank (w ++ s) = startsBlank w := by
  obtain ⟨c, v, rfl⟩ := List.exists_cons_of_ne_nil hne
  rfl

theorem Piece.Valid.startsWord {w : List Char} (h : (Piece.word w).Valid) : startsWord w = true := by
  obtain ⟨c, v, rfl⟩ := List.exists_cons_of_ne_nil h.1
  exact h.2 c (by simp)

theorem Piece.Valid.startsBlank {w : List Char} (h : (Piece.word w).Valid) : startsBlank w = false := by
  obtain ⟨c, v, rfl⟩ := List.exists_cons_of_ne_nil h.1
  exact isBlank_of_isWord (h.2 c (by simp))

theorem Piece.Valid.endsWord {w : List Char} (h : (Piece.word w).Valid) (a : List Char) : endsWord (a ++ w) = true := by
  have hlast := h.2 _ (List.getLast_mem h.1)
  simp [Text.endsWord, List.getLast?_append, List.getLast?_eq_some_getLast h.1, hlast]

theorem startsWord_of_blank {g : List Char} (hg : ∀ c ∈ g, isBlank c = true) (hne : g ≠ []) (s : List Char) :
    startsWord (g ++ s) = false := by
  obtain ⟨c, v, rfl⟩ := List.exists_cons_of_ne_nil hne
  exact isWord_of_isBlank (hg c (by simp))

theorem startsWord_gap {g s : List Char} (hg : ∀ c ∈ g, isBlank c = true) (hs : startsWord s = false) :
    startsWord (g ++ s) = false := by
  cases g with
  | nil => exact hs
  | cons c g => exact isWord_of_isBlank (hg c (by simp))

end Text

end CadenceUplift
