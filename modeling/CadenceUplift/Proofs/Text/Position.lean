import CadenceUplift.Proofs.Literal.Lookup
import CadenceUplift.Proofs.Text.Lines
import Mathlib.Algebra.GroupWithZero.Nat

namespace CadenceUplift.Text

/-- The offset at which a line begins: every line before it takes its characters and a newline. -/
def lineStart (ls : List (List Char)) (k : Nat) : Nat := ((ls.take k).map fun l => l.length + 1).sum

/-- The position of an offset: a line of the text, and a column on it or right behind it. -/
structure Position.Of (p : Position) (s : List Char) (offset : Nat) : Prop where
  line_pos : 1 ≤ p.line
  line_le : p.line ≤ (lines s).length
  column_pos : 1 ≤ p.column
  column_le : ∀ l, (lines s)[p.line - 1]? = some l → p.column ≤ l.length + 1
  offset_eq : lineStart (lines s) (p.line - 1) + (p.column - 1) = offset

section Starts

@[simp] theorem lineStart_zero (ls : List (List Char)) : lineStart ls 0 = 0 := rfl

@[simp] theorem lineStart_cons (l : List Char) (ls : List (List Char)) (k : Nat) :
    lineStart (l :: ls) (k + 1) = l.length + 1 + lineStart ls k := rfl

theorem lineStart_succ {ls : List (List Char)} {k : Nat} {l : List Char} (h : ls[k]? = some l) :
    lineStart ls (k + 1) = lineStart ls k + l.length + 1 := by
  rw [lineStart, List.take_add_one, h]
  simp [lineStart]
  omega

theorem lineStart_mono (ls : List (List Char)) {j k : Nat} (h : j ≤ k) : lineStart ls j ≤ lineStart ls k := by
  induction ls generalizing j k with
  | nil => simp [lineStart]
  | cons l ls ih =>
    cases j with
    | zero => simp
    | succ j =>
      obtain ⟨k, rfl⟩ : ∃ k', k = k' + 1 := ⟨k - 1, by omega⟩
      have hrest := ih (j := j) (k := k) (by omega)
      simp only [lineStart_cons]
      omega

/-- The last line ends where the text does. -/
theorem lineStart_length (s : List Char) : lineStart (lines s) (lines s).length = s.length + 1 := by
  induction s with
  | nil => rfl
  | cons c s ih =>
    by_cases hc : c = '\n'
    · rw [lines, if_pos hc, List.length_cons, lineStart_cons, ih, List.length_nil, List.length_cons]
      omega
    · obtain ⟨l, ls, hls⟩ := List.exists_cons_of_ne_nil (lines_ne_nil s)
      rw [hls, List.length_cons, lineStart_cons] at ih
      rw [lines_cons hc hls, List.length_cons, lineStart_cons, List.length_cons, List.length_cons]
      omega

/-- The table of line starts, for a text that starts at offset `i`. -/
theorem cons_laterLineStarts (i : Nat) (s : List Char) :
    i :: laterLineStarts i s = (List.range (lines s).length).map fun k => i + lineStart (lines s) k := by
  induction s generalizing i with
  | nil => rfl
  | cons c s ih =>
    have hrest := ih (i + 1)
    by_cases hc : c = '\n'
    · rw [laterLineStarts, if_pos hc, hrest, lines, if_pos hc, List.length_cons, List.range_succ_eq_map]
      simp [Function.comp_def, Nat.add_assoc]
    · obtain ⟨l, ls, hls⟩ := List.exists_cons_of_ne_nil (lines_ne_nil s)
      rw [hls, List.length_cons, List.range_succ_eq_map, List.map_cons, List.map_map, List.cons.injEq] at hrest
      rw [laterLineStarts, if_neg hc, hrest.2, lines_cons hc hls, List.length_cons, List.range_succ_eq_map]
      simp [Function.comp_def]
      omega

theorem lineOffsets_eq (s : List Char) : lineOffsets s = (List.range (lines s).length).map (lineStart (lines s)) := by
  have htable := cons_laterLineStarts 0 s
  simpa [lineOffsets] using htable

end Starts

section Search

variable {s : List Char} {offset : Nat}

theorem getD_lineOffsets {k : Nat} (hk : k < (lines s).length) :
    (lineOffsets s).toArray.getD k 0 = lineStart (lines s) k := by
  simp [lineOffsets_eq, Array.getD_eq_getD_getElem?, hk]

/-- The search finds how many lines start at the offset or before it: at least the first, and the next one, if any,
starts behind it. -/
theorem countUpTo_lineOffsets (s : List Char) (offset : Nat) :
    ∃ k < (lines s).length, countUpTo (lineOffsets s).toArray offset = k + 1 ∧ lineStart (lines s) k ≤ offset ∧
      (k + 1 < (lines s).length → offset < lineStart (lines s) (k + 1)) := by
  have hsize : (lineOffsets s).toArray.size = (lines s).length := by simp [lineOffsets_eq]
  have hsorted : ∀ i j, i ≤ j → j < (lineOffsets s).toArray.size →
      (lineOffsets s).toArray.getD i 0 ≤ (lineOffsets s).toArray.getD j 0 := by
    intro i j hij hj
    rw [hsize] at hj
    rw [getD_lineOffsets (by omega), getD_lineOffsets hj]
    exact lineStart_mono _ hij
  obtain ⟨hmax, hbelow, habove⟩ := countUpTo_spec offset hsorted
  have hlines : 0 < (lines s).length := List.length_pos_iff.mpr (lines_ne_nil s)
  cases hcount : countUpTo (lineOffsets s).toArray offset with
  | zero =>
    have hfirst := habove 0 (by omega) (by omega)
    rw [getD_lineOffsets hlines, lineStart_zero] at hfirst
    omega
  | succ k =>
    have hk : k < (lines s).length := by omega
    refine ⟨k, hk, rfl, ?_, ?_⟩
    · have hstart := hbelow k (by omega)
      rwa [getD_lineOffsets hk] at hstart
    · intro hnext
      have hafter := habove (k + 1) (by omega) (by omega)
      rwa [getD_lineOffsets hnext] at hafter

/-- Offsets up to the end of a text have their position. -/
theorem positionAt_of (h : offset ≤ s.length) : (positionAt (lineOffsets s).toArray offset).Of s offset := by
  obtain ⟨k, hk, hcount, hstart, hnext⟩ := countUpTo_lineOffsets s offset
  have hposition : positionAt (lineOffsets s).toArray offset = ⟨k + 1, offset - lineStart (lines s) k + 1⟩ := by
    rw [positionAt, hcount, Nat.add_sub_cancel, getD_lineOffsets hk]
  rw [hposition]
  refine ⟨Nat.le_add_left 1 k, hk, Nat.le_add_left 1 _, ?_, ?_⟩
  · intro l hl
    have hline := lineStart_succ hl
    have hend : offset < lineStart (lines s) (k + 1) := by
      rcases Nat.lt_or_ge (k + 1) (lines s).length with hlt | hge
      · exact hnext hlt
      · have hlast := lineStart_length s
        rw [Nat.le_antisymm hge hk] at hlast
        omega
    simp only [Nat.add_sub_cancel] at hline
    simp only
    omega
  · simp only [Nat.add_sub_cancel]
    omega

end Search

/-- An offset on a line, or right behind it, has no position on another line. -/
theorem Position.Of.line_eq {p : Position} {s : List Char} {offset : Nat} (h : p.Of s offset) {k : Nat}
    {l : List Char} (hl : (lines s)[k]? = some l) (hlow : lineStart (lines s) k ≤ offset)
    (hhigh : offset ≤ lineStart (lines s) k + l.length) : p.line = k + 1 := by
  obtain ⟨hpos, hle, _, hcolumn, hoffset⟩ := h
  have hlt : p.line - 1 < (lines s).length := by omega
  have hline := List.getElem?_eq_getElem hlt
  have hbound := hcolumn _ hline
  have hnext := lineStart_succ hl
  have hnext' := lineStart_succ hline
  rcases Nat.lt_trichotomy (p.line - 1) k with hless | heq | hmore
  · have hmono := lineStart_mono (lines s) (show p.line - 1 + 1 ≤ k from hless)
    omega
  · omega
  · have hmono := lineStart_mono (lines s) (show k + 1 ≤ p.line - 1 from hmore)
    omega

section Inverse

/-- As many newlines stand before a place on a line as there are lines before it. -/
theorem count_newline_take {s : List Char} {k j : Nat} {l : List Char} (hl : (lines s)[k]? = some l)
    (hj : j ≤ l.length) : (s.take (lineStart (lines s) k + j)).count '\n' = k := by
  induction s generalizing k j l with
  | nil =>
    cases k with
    | zero => simp
    | succ k => simp [lines] at hl
  | cons c s ih =>
    by_cases hc : c = '\n'
    · subst hc
      rw [lines, if_pos rfl] at hl ⊢
      cases k with
      | zero =>
        obtain rfl : [] = l := by simpa using hl
        obtain rfl : j = 0 := by simpa using hj
        simp
      | succ k =>
        have hrest := ih (k := k) hl hj
        rw [lineStart_cons, show [].length + 1 + lineStart (lines s) k + j = lineStart (lines s) k + j + 1 by
          simp only [List.length_nil]; omega, List.take_succ_cons, List.count_cons_self, hrest]
    · obtain ⟨l₀, ls, hls⟩ := List.exists_cons_of_ne_nil (lines_ne_nil s)
      rw [lines_cons hc hls] at hl ⊢
      rw [hls] at ih
      cases k with
      | zero =>
        obtain rfl : c :: l₀ = l := by simpa using hl
        cases j with
        | zero => simp
        | succ j =>
          have hrest := ih (k := 0) (j := j) (l := l₀) rfl (by simpa using hj)
          simpa [hc] using hrest
      | succ k =>
        have hrest := ih (k := k + 1) hl hj
        rw [lineStart_cons] at hrest ⊢
        rw [List.length_cons, show l₀.length + 1 + 1 + lineStart ls k + j = l₀.length + 1 + lineStart ls k + j + 1 by omega,
          List.take_succ_cons, List.count_cons_of_ne hc, hrest]

theorem Position.Of.line_eq_count {p : Position} {s : List Char} {offset : Nat} (h : p.Of s offset) :
    p.line = (s.take offset).count '\n' + 1 := by
  obtain ⟨hpos, hle, hcolumn, hbound, hoffset⟩ := h
  have hline := List.getElem?_eq_getElem (show p.line - 1 < (lines s).length by omega)
  have hcount := count_newline_take hline (j := p.column - 1) (by have := hbound _ hline; omega)
  rw [hoffset] at hcount
  omega

/-- A position has one offset. -/
theorem Position.Of.offset_unique {p : Position} {s : List Char} {o o' : Nat} (h : p.Of s o) (h' : p.Of s o') : o = o' :=
  h.offset_eq.symm.trans h'.offset_eq

/-- The line of a position is in the table, and its start there and the column give the offset. -/
theorem Position.Of.exists_line {p : Position} {s : List Char} {offset : Nat} (h : p.Of s offset) :
    ∃ start line, (lineOffsets s)[p.line - 1]? = some start ∧ start + (p.column - 1) = offset ∧
      (lines s)[p.line - 1]? = some line ∧ p.column - 1 ≤ line.length := by
  obtain ⟨hpos, hle, hcolumn, hbound, hoffset⟩ := h
  have hlt : p.line - 1 < (lines s).length := by omega
  have hline := List.getElem?_eq_getElem hlt
  have hin := hbound _ hline
  refine ⟨lineStart (lines s) (p.line - 1), _, ?_, hoffset, hline, by omega⟩
  rw [lineOffsets_eq, List.getElem?_map, List.getElem?_range hlt]
  rfl

/-- The start of a line and a column on it, or right behind it, give an offset with this position. -/
theorem positionAt_lineStart {s : List Char} {k j : Nat} {l : List Char} (hl : (lines s)[k]? = some l)
    (hj : j ≤ l.length) : lineStart (lines s) k + j ≤ s.length ∧
      positionAt (lineOffsets s).toArray (lineStart (lines s) k + j) = ⟨k + 1, j + 1⟩ := by
  obtain ⟨hk, _⟩ := List.getElem?_eq_some_iff.mp hl
  have hnext := lineStart_succ hl
  have hlast := lineStart_mono (lines s) (show k + 1 ≤ (lines s).length from hk)
  rw [lineStart_length] at hlast
  have hin : lineStart (lines s) k + j ≤ s.length := by omega
  refine ⟨hin, ?_⟩
  have hof := positionAt_of hin
  generalize positionAt (lineOffsets s).toArray (lineStart (lines s) k + j) = p at hof ⊢
  have hline := hof.line_eq hl (by omega) (by omega)
  have hoffset := hof.offset_eq
  have hcolumn := hof.column_pos
  rw [hline, Nat.add_sub_cancel] at hoffset
  have heta : p = ⟨p.line, p.column⟩ := rfl
  rw [heta, Position.mk.injEq]
  exact ⟨hline, by omega⟩

end Inverse

/-- Offsets and positions are inverse to each other. The position of an offset up to the end of a text is that of a
line, as many lines behind the first one as newlines stand before the offset, and of a column on the line or right behind
it; the start of the line and the column give the offset back. Each such line and column are the position of exactly one
offset. -/
theorem positionAt_inverse (s : List Char) :
    (∀ o ≤ s.length, ∃ l column start line, positionAt (lineOffsets s).toArray o = ⟨l, column⟩ ∧
      l = (s.take o).count '\n' + 1 ∧ 1 ≤ l ∧ l ≤ (lines s).length ∧ 1 ≤ column ∧
      (lineOffsets s)[l - 1]? = some start ∧ start + (column - 1) = o ∧
      (lines s)[l - 1]? = some line ∧ column - 1 ≤ line.length) ∧
    ∀ l column line, 1 ≤ l → 1 ≤ column → (lines s)[l - 1]? = some line → column - 1 ≤ line.length →
      ∃! o, o ≤ s.length ∧ positionAt (lineOffsets s).toArray o = ⟨l, column⟩ := by
  constructor
  · intro o ho
    have hof := positionAt_of ho
    generalize positionAt (lineOffsets s).toArray o = p at hof ⊢
    obtain ⟨start, line, hstart, hoffset, hline, hin⟩ := hof.exists_line
    exact ⟨p.line, p.column, start, line, rfl, hof.line_eq_count, hof.line_pos, hof.line_le, hof.column_pos, hstart, hoffset,
      hline, hin⟩
  · intro l column line hl hcolumn hline hin
    obtain ⟨hle, hposition⟩ := positionAt_lineStart hline hin
    rw [Nat.sub_add_cancel hl, Nat.sub_add_cancel hcolumn] at hposition
    refine ⟨_, ⟨hle, hposition⟩, ?_⟩
    rintro o ⟨ho, ho'⟩
    exact (ho' ▸ positionAt_of ho).offset_unique (hposition ▸ positionAt_of hle)

end CadenceUplift.Text
