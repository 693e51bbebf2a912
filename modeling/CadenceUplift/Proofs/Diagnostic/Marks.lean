import CadenceUplift.Diagnostic.Report
import CadenceUplift.Proofs.Pattern.Extent
import CadenceUplift.Proofs.Text.Lines
import Mathlib.Data.List.Forall2
import Mathlib.Data.List.TakeWhile

namespace CadenceUplift

open Text Pattern Legacy

section Blanked

/-- What blanking makes of a character: it stays, or it was no newline and becomes a space. -/
def Blanks (c' c : Char) : Prop := c' = c ∨ c' = ' ' ∧ c ≠ '\n'

theorem Blanks.newline_iff {c' c : Char} (h : Blanks c' c) : c' = '\n' ↔ c = '\n' := by
  rcases h with rfl | ⟨rfl, hc⟩
  · exact Iff.rfl
  · exact ⟨fun h => absurd h (by decide), fun h => absurd h hc⟩

theorem blanks_blankAt (l : Literal) (i : Nat) (c : Char) : Blanks (l.blankAt i c) c := by
  unfold Literal.blankAt
  split
  next => exact .inl rfl
  next hc =>
    split
    next => exact .inr ⟨rfl, hc⟩
    next =>
      split
      next => exact .inl rfl
      next => exact .inr ⟨rfl, hc⟩

theorem blanks_blankFrom (i : Nat) (ls : List Literal) (s : List Char) : List.Forall₂ Blanks (blankFrom i ls s) s := by
  induction s generalizing i ls with
  | nil =>
    cases ls with
    | nil => exact .nil
    | cons l ls => exact .nil
  | cons c s ih =>
    cases ls with
    | nil => exact List.forall₂_same.mpr fun d _ => .inl rfl
    | cons l ls =>
      rw [blankFrom]
      split
      next => exact .cons (.inl rfl) (ih _ _)
      next => exact .cons (blanks_blankAt l i c) (ih _ _)

theorem blanks_lines {s' s : List Char} (h : List.Forall₂ Blanks s' s) :
    List.Forall₂ (List.Forall₂ Blanks) (lines s') (lines s) := by
  induction h with
  | nil => exact .cons .nil .nil
  | @cons c' c s' s hc _ ih =>
    by_cases hline : c = '\n'
    · rw [lines, lines, if_pos hline, if_pos (hc.newline_iff.mpr hline)]
      exact .cons .nil ih
    · obtain ⟨l', ls', hls'⟩ := List.exists_cons_of_ne_nil (lines_ne_nil s')
      obtain ⟨l, ls, hls⟩ := List.exists_cons_of_ne_nil (lines_ne_nil s)
      rw [hls', hls] at ih
      cases ih with
      | cons hl hrest =>
        rw [lines_cons (mt hc.newline_iff.mp hline) hls', lines_cons hline hls]
        exact .cons (.cons hc hl) hrest

/-- The lines of a blanked text are the lines of the text, blanked. -/
theorem lines_codeOnly (s : List Char) : List.Forall₂ (List.Forall₂ Blanks) (lines (codeOnly s)) (lines s) :=
  blanks_lines (blanks_blankFrom 0 (literals s) s)

/-- Blanking makes no words. -/
theorem prefix_of_blanks {w u' u : List Char} (h : List.Forall₂ Blanks u' u) (hw : ' ' ∉ w) (hpre : w <+: u') :
    w <+: u := by
  induction w generalizing u' u with
  | nil => exact List.nil_prefix
  | cons c w ih =>
    obtain ⟨r, rfl⟩ := hpre
    rw [List.cons_append] at h
    cases h with
    | @cons _ d _ u hc hrest =>
      obtain ⟨hspace, hw⟩ := not_or.mp (List.mem_cons.not.mp hw)
      have hd : d = c := by
        rcases hc with hc | ⟨hc, _⟩
        · exact hc.symm
        · exact absurd hc.symm hspace
      rw [hd]
      exact (List.prefix_cons_inj c).mpr (ih hrest hw (List.prefix_append w r))

end Blanked

namespace Mark

/-- The number of characters that a mark runs over, at least one. -/
def span (m : Mark) : Nat := max 1 (m.length.getD 1)

/-- The line that a mark names. -/
def lineOf (m : Mark) (ls : List (List Char)) : List Char := ls[m.line - 1]?.getD []

/-- What stands from a mark on to the end of its line. -/
def textAt (m : Mark) (ls : List (List Char)) : List Char := (m.lineOf ls).drop (m.column - 1)

/-- A mark on one of the lines of a text, over characters of that line. -/
structure PointsInto (ls : List (List Char)) (m : Mark) : Prop where
  line_pos : 1 ≤ m.line
  line_le : m.line ≤ ls.length
  column_pos : 1 ≤ m.column
  last_le : m.column + m.span - 1 ≤ (m.lineOf ls).length

variable {m : Mark} {ls ls' : List (List Char)}

theorem lineOf_eq {k : Nat} {l : List Char} (hl : ls[k]? = some l) (hline : m.line = 1 + k) : m.lineOf ls = l := by
  have hk : m.line - 1 = k := by omega
  rw [lineOf, hk, hl]
  rfl

theorem pointsInto_of_line {k : Nat} {l : List Char} (hl : ls[k]? = some l) (hline : m.line = 1 + k)
    (hpos : 1 ≤ m.column) (hlast : m.column + m.span ≤ l.length + 1) : m.PointsInto ls where
  line_pos := by omega
  line_le := by
    have hlt := (List.getElem?_eq_some_iff.mp hl).1
    omega
  column_pos := hpos
  last_le := by
    rw [lineOf_eq hl hline]
    omega

theorem blanks_lineOf (h : List.Forall₂ (List.Forall₂ Blanks) ls' ls) (m : Mark) :
    List.Forall₂ Blanks (m.lineOf ls') (m.lineOf ls) := by
  unfold lineOf
  generalize m.line - 1 = k
  induction h generalizing k with
  | nil => exact .nil
  | cons hl _ ih =>
    cases k with
    | zero => exact hl
    | succ k => exact ih k

theorem PointsInto.of_blanks (h : m.PointsInto ls') (hls : List.Forall₂ (List.Forall₂ Blanks) ls' ls) :
    m.PointsInto ls where
  line_pos := h.line_pos
  line_le := hls.length_eq ▸ h.line_le
  column_pos := h.column_pos
  last_le := (blanks_lineOf hls m).length_eq ▸ h.last_le

theorem prefix_textAt_of_blanks {w : List Char} (hw : ' ' ∉ w) (h : w <+: m.textAt ls')
    (hls : List.Forall₂ (List.Forall₂ Blanks) ls' ls) : w <+: m.textAt ls :=
  prefix_of_blanks (List.forall₂_drop _ (blanks_lineOf hls m)) hw h

end Mark

section Checks

variable {ls : List (List Char)} {k : Nat} {l : List Char}

/-- What a check that goes from line to line reports, it reports on one of the lines. -/
theorem exists_line_of_mem {ε : Type} (check : Nat → List Char → List (List Char) → List ε)
    {walk : Nat → List (List Char) → List ε} (hnil : ∀ i, walk i [] = [])
    (hcons : ∀ i l r, walk i (l :: r) = check i l r ++ walk (i + 1) r) {i : Nat} {e : ε} (h : e ∈ walk i ls) :
    ∃ k l r, ls[k]? = some l ∧ e ∈ check (i + k) l r := by
  induction ls generalizing i with
  | nil => simp [hnil] at h
  | cons l r ih =>
    rw [hcons] at h
    rcases List.mem_append.mp h with h | h
    · exact ⟨0, l, r, rfl, h⟩
    · obtain ⟨k, l', r', hl, he⟩ := ih h
      refine ⟨k + 1, l', r', hl, ?_⟩
      rwa [Nat.add_right_comm, Nat.add_assoc] at he

/-- The mark of a declaration points at the word that declares. -/
theorem declaration_mark {w : String} {ps : List Pattern} {m : Match} {mark : Mark} (hl : ls[k]? = some l)
    (hm : (all (edge :: chars w ++ ps)).IsMatch l.toArray m) (hw : 0 < w.toList.length)
    (hmark : mark = { line := 1 + k, column := m.start + 1 }) :
    mark.PointsInto ls ∧ w.toList <+: mark.textAt ls := by
  have hstarts : w.toList <+: l.drop m.start := hm.starts
  have hlength := hstarts.length_le
  rw [List.length_drop] at hlength
  subst hmark
  refine ⟨Mark.pointsInto_of_line hl rfl (Nat.succ_pos _) ?_, ?_⟩
  · change m.start + 1 + 1 ≤ l.length + 1
    omega
  · rw [Mark.textAt, Mark.lineOf_eq hl rfl]
    exact hstarts

section Functions

/-- What is wrong with a function was found at the first declaration on one of the lines. -/
theorem exists_search_of_functionErrors {i : Nat} {flags : List Bool} {e : FunctionError}
    (h : e ∈ functionErrorsFrom i flags ls) :
    ∃ k l m flag, ls[k]? = some l ∧ functionPattern.search l.toArray = some m ∧
      e.fault ∈ functionFaults l m flag (ls.drop (k + 1)) ∧ e.line = i + k ∧ e.column = m.start + 1 := by
  induction ls generalizing i flags with
  | nil => cases flags <;> cases h
  | cons l r ih =>
    cases flags with
    | nil => cases h
    | cons flag flags =>
      rw [functionErrorsFrom] at h
      rcases List.mem_append.mp h with h | h
      · split at h
        next => cases h
        next m hm =>
          obtain ⟨f, hf, rfl⟩ := List.mem_map.mp h
          exact ⟨0, l, m, flag, rfl, hm, hf, rfl, rfl⟩
      · obtain ⟨k, l', m, flag, hl, hm, hfault, hline, hcolumn⟩ := ih h
        exact ⟨k + 1, l', m, flag, hl, hm, hfault, by omega, hcolumn⟩

theorem functionErrors_marks {e : FunctionError} (h : e ∈ functionErrors ls) :
    e.issue.mark.PointsInto ls ∧ "fun".toList <+: e.issue.mark.textAt ls := by
  obtain ⟨k, l, m, flag, hl, hm, _, hline, hcolumn⟩ := exists_search_of_functionErrors h
  exact declaration_mark hl (isMatch_of_search hm) (by decide) (by simp [FunctionError.issue, hline, hcolumn])

end Functions

section Structures

/-- The word that declares what a fault is about. -/
def StructureFault.word : StructureFault → String
  | .missingAccess .contract | .missingInit _ => "contract"
  | .missingAccess .resource | .missingDestroy => "resource"

theorem StructureFault.word_cases (f : StructureFault) : f.word = "contract" ∨ f.word = "resource" := by
  cases f with
  | missingAccess kind =>
    cases kind with
    | contract => exact .inl rfl
    | resource => exact .inr rfl
  | missingDestroy => exact .inr rfl
  | missingInit inline => exact .inl rfl

theorem exists_match_of_structureErrorsAt {i : Nat} {r : List (List Char)} {e : StructureError}
    (h : e ∈ structureErrorsAt i l r) :
    ∃ m, (typePattern e.fault.word).IsMatch l.toArray m ∧ e.line = i ∧ e.column = m.start + 1 := by
  rcases List.mem_append.mp h with h | h
  · split at h
    next => cases h
    next m hm =>
      split at h
      next => cases h
      next =>
        cases List.mem_singleton.mp h
        exact ⟨m, isMatch_of_search hm, rfl, rfl⟩
  · split at h
    next => cases h
    next m hm =>
      rcases List.mem_append.mp h with h | h
      · split at h
        next => cases h
        next =>
          cases List.mem_singleton.mp h
          exact ⟨m, isMatch_of_search hm, rfl, rfl⟩
      · split at h
        next => cases h
        next =>
          cases List.mem_singleton.mp h
          exact ⟨m, isMatch_of_search hm, rfl, rfl⟩

theorem exists_match_of_firstContract {i : Nat} {e : StructureError} (h : firstContractFrom i ls = some e) :
    ∃ k l m, ls[k]? = some l ∧ (typePattern e.fault.word).IsMatch l.toArray m ∧ e.line = i + k ∧
      e.column = m.start + 1 := by
  induction ls generalizing i with
  | nil => cases h
  | cons l r ih =>
    have hrest (h : firstContractFrom (i + 1) r = some e) : ∃ k l' m, (l :: r)[k]? = some l' ∧
        (typePattern e.fault.word).IsMatch l'.toArray m ∧ e.line = i + k ∧ e.column = m.start + 1 := by
      obtain ⟨k, l', m, hl, hm, hline, hcolumn⟩ := ih h
      exact ⟨k + 1, l', m, hl, hm, by omega, hcolumn⟩
    rw [firstContractFrom] at h
    split at h
    next m hm =>
      split at h
      next => exact hrest h
      next =>
        cases h
        exact ⟨0, l, m, rfl, isMatch_of_search hm, rfl, rfl⟩
    next => exact hrest h

theorem structureErrors_marks {e : StructureError} (h : e ∈ structureErrors ls) :
    e.issue.mark.PointsInto ls ∧ e.fault.word.toList <+: e.issue.mark.textAt ls := by
  have hmatch : ∃ k l m, ls[k]? = some l ∧ (typePattern e.fault.word).IsMatch l.toArray m ∧ e.line = 1 + k ∧
      e.column = m.start + 1 := by
    rcases List.mem_append.mp h with h | h
    · obtain ⟨k, l, r, hl, he⟩ := exists_line_of_mem _ (fun _ => rfl) (fun _ _ _ => rfl) h
      obtain ⟨m, hm, hline, hcolumn⟩ := exists_match_of_structureErrorsAt he
      exact ⟨k, l, m, hl, hm, hline, hcolumn⟩
    · split at h
      next => cases h
      next => exact exists_match_of_firstContract (Option.mem_toList.mp h)
  obtain ⟨k, l, m, hl, hm, hline, hcolumn⟩ := hmatch
  have hword : 0 < e.fault.word.toList.length := by
    rcases e.fault.word_cases with hword | hword <;> rw [hword] <;> decide
  exact declaration_mark hl hm hword (by simp [StructureError.issue, hline, hcolumn])

end Structures

section Events

theorem offset_of_partOf? {segment : List Char} {start : Nat} {p : Part} (h : partOf? segment start = some p) :
    p.offset < start + segment.length := by
  unfold partOf? at h
  split at h
  next => cases h
  next hblank =>
    cases h
    have hdrop : segment.dropWhile isBlank ≠ [] := by
      intro hnil
      exact hblank (List.all_eq_true.mpr (List.dropWhile_eq_nil_iff.mp hnil))
    have hpos := List.length_pos_iff.mpr hdrop
    have hsum := congrArg List.length (List.takeWhile_append_dropWhile (p := isBlank) (l := segment))
    rw [List.length_append] at hsum
    simp only
    omega

/-- The parts of a text stand within it. -/
theorem offset_of_mem_splitFrom {sep : Char} {depth : Int} {start : Nat} {taken r : List Char} {p : Part}
    (h : p ∈ splitFrom sep depth start taken r) : p.offset < start + taken.length + r.length := by
  induction r generalizing depth start taken with
  | nil =>
    rw [splitFrom] at h
    split at h
    next =>
      have hpart := offset_of_partOf? (Option.mem_toList.mp h)
      simpa using hpart
    next => cases h
  | cons c r ih =>
    rw [List.length_cons]
    rw [splitFrom] at h
    split at h
    next =>
      have hpart := ih h
      rw [List.length_cons] at hpart
      omega
    next =>
      split at h
      next =>
        have hpart := ih h
        rw [List.length_cons] at hpart
        omega
      next =>
        split at h
        next =>
          rcases List.mem_append.mp h with h | h
          · have hpart := offset_of_partOf? (Option.mem_toList.mp h)
            rw [List.length_reverse] at hpart
            omega
          · have hpart := ih h
            rw [List.length_nil] at hpart
            omega
        next =>
          have hpart := ih h
          rw [List.length_cons] at hpart
          omega

theorem parameter_kind {p : List Char} {f : EventFault} (h : parameterFault? p = some f) :
    f.kind = "invalid-parameter-types" := by
  unfold parameterFault? at h
  split at h
  next => cases h; rfl
  next =>
    simp only at h
    split at h
    next => cases h; rfl
    next =>
      split at h
      next => cases h
      next => cases h; rfl

/-- The faults of an event point at its word, those of its parameters into its parameter list. -/
theorem eventErrorsOf_marks {m : Match} {e : EventError} (hl : ls[k]? = some l) (hm : eventPattern.IsMatch l.toArray m)
    (h : e ∈ eventErrorsOf (1 + k) l m) :
    e.issue.mark.PointsInto ls ∧
      (e.fault.kind ≠ "invalid-parameter-types" → "event".toList <+: e.issue.mark.textAt ls) := by
  rcases List.mem_append.mp h with h | h
  · split at h
    next => cases h
    next =>
      cases List.mem_singleton.mp h
      obtain ⟨hpoints, hword⟩ := declaration_mark hl hm (by decide) rfl
      exact ⟨hpoints, fun _ => hword⟩
  · obtain ⟨p, hp, he⟩ := List.mem_filterMap.mp h
    obtain ⟨f, hf, rfl⟩ := Option.map_eq_some_iff.mp he
    refine ⟨?_, fun hkind => absurd (parameter_kind hf) hkind⟩
    have hoffset := offset_of_mem_splitFrom hp
    have hne : m.groupText l.toArray 2 ≠ [] := by
      intro hnil
      rw [hnil] at hoffset
      exact absurd hoffset (Nat.not_lt_zero _)
    obtain ⟨c, hc⟩ := Match.exists_capture_of_ne_nil hne
    have hlength := hm.within.length_groupText hc
    have hstop := (hm.within.capture hc).2
    simp only [List.size_toArray] at hstop
    refine Mark.pointsInto_of_line hl rfl (Nat.succ_pos _) ?_
    change ((m.capture? 2).map (·.start)).getD 0 + p.offset + 1 + 1 ≤ l.length + 1
    simp only [hc, Option.map_some, Option.getD_some, List.length_nil] at hoffset ⊢
    omega

theorem eventErrors_marks {e : EventError} (h : e ∈ eventErrors ls) :
    e.issue.mark.PointsInto ls ∧
      (e.fault.kind ≠ "invalid-parameter-types" → "event".toList <+: e.issue.mark.textAt ls) := by
  obtain ⟨k, l, r, hl, he⟩ :=
    exists_line_of_mem (fun i l _ => eventErrorsAt i l) (fun _ => rfl) (fun _ _ _ => rfl) h
  rcases List.mem_append.mp he with he | he
  · obtain ⟨m, hm, he⟩ := List.mem_flatMap.mp he
    exact eventErrorsOf_marks hl (isMatch_of_mem_allMatches hm) he
  · split at he
    next m hm =>
      cases List.mem_singleton.mp he
      obtain ⟨hpoints, hword⟩ := declaration_mark hl (isMatch_of_search hm) (by decide) rfl
      exact ⟨hpoints, fun _ => hword⟩
    next => cases he

end Events

section Statements

theorem length_trim_le (l : List Char) : (l.takeWhile isBlank).length + (trim l).length ≤ l.length := by
  have hsum := congrArg List.length (List.takeWhile_append_dropWhile (p := isBlank) (l := l))
  have hright := (List.dropWhile_suffix (p := isBlank) (l := (trimLeft l).reverse)).length_le
  simp only [trim, trimRight, trimLeft, List.length_append, List.length_reverse] at hsum hright ⊢
  omega

/-- A fault of a statement lies between the first and the last character of its line that are not blank. -/
theorem statementErrors_marks {e : StatementError} (h : e ∈ statementErrors ls) : e.issue.mark.PointsInto ls := by
  obtain ⟨k, l, r, hl, he⟩ :=
    exists_line_of_mem (fun i l _ => (statementError? i l).toList) (fun _ => rfl) (fun _ _ _ => rfl) h
  have htrim := length_trim_le l
  have he := Option.mem_toList.mp he
  unfold statementError? at he
  simp only at he
  split at he
  next hbare =>
    have hpos : 0 < (trim l).length := by
      refine List.length_pos_iff.mpr ?_
      rintro hnil
      rw [hnil] at hbare
      exact absurd hbare (by decide)
    cases he
    refine Mark.pointsInto_of_line hl rfl (Nat.succ_pos _) ?_
    change (l.takeWhile isBlank).length + 1 + 1 ≤ l.length + 1
    omega
  next =>
    split at he
    next hopen =>
      have hpos : 0 < (trim l).length := by
        refine List.length_pos_iff.mpr ?_
        rintro hnil
        rw [hnil] at hopen
        exact absurd hopen (by decide)
      cases he
      refine Mark.pointsInto_of_line hl rfl ?_ ?_
      · change 1 ≤ (l.takeWhile isBlank).length + (trim l).length
        omega
      · change (l.takeWhile isBlank).length + (trim l).length + 1 ≤ l.length + 1
        omega
    next => cases he

end Statements

section Style

theorem prefix_of_indexOf? {needle s : List Char} {i : Nat} (h : indexOf? needle s = some i) : needle <+: s.drop i := by
  induction s generalizing i with
  | nil =>
    rw [indexOf?] at h
    split at h
    next hempty =>
      rw [List.isEmpty_iff.mp hempty]
      exact List.nil_prefix
    next => cases h
  | cons c s ih =>
    rw [indexOf?] at h
    split at h
    next hstarts =>
      cases h
      exact List.isPrefixOf_iff_prefix.mp hstarts
    next =>
      obtain ⟨j, hj, rfl⟩ := Option.map_eq_some_iff.mp h
      exact ih hj

/-- The mark of a match that takes something runs over characters of its line. -/
theorem match_mark {p : Pattern} {m : Match} {mark : Mark} (hl : ls[k]? = some l) (hm : p.IsMatch l.toArray m)
    (ha : p.advances = true) (hline : mark.line = 1 + k) (hcolumn : mark.column = m.start + 1)
    (hspan : mark.span ≤ m.stop - m.start) : mark.PointsInto ls := by
  have hlt := hm.start_lt ha
  have hstop := hm.within.stop_le
  rw [List.size_toArray] at hstop
  exact Mark.pointsInto_of_line hl hline (by omega) (by omega)

/-- The mark of a function's name runs over the name. -/
theorem capitalFunction_mark {i : Nat} {name : String} {mark : Mark} (hl : ls[k]? = some l)
    (h : capitalFunction? l = some (i, name)) (hmark : mark = { line := 1 + k, column := i + 1, length := name.length }) :
    mark.PointsInto ls := by
  unfold capitalFunction? at h
  split at h
  next => cases h
  next m hm =>
    simp only at h
    split at h
    next hcapital =>
      have hne : m.groupText l.toArray 1 ≠ [] := by
        intro hnil
        rw [hnil] at hcapital
        exact absurd hcapital (by decide)
      obtain ⟨c, hc⟩ := Match.exists_capture_of_ne_nil hne
      have hwithin := (isMatch_of_search hm).within
      have hlength := hwithin.length_groupText hc
      have hstop := (hwithin.capture hc).2
      have hpos := List.length_pos_iff.mpr hne
      rw [List.size_toArray] at hstop
      simp only [hc, Option.map_some, Option.getD_some] at h
      cases h
      subst hmark
      refine Mark.pointsInto_of_line hl rfl (Nat.succ_pos _) ?_
      simp only [Mark.span, Option.getD_some, String.length_ofList]
      omega
    next => cases h

theorem styleWarnings_marks {w : StyleWarning} (h : w ∈ styleWarnings ls) : w.issue.mark.PointsInto ls := by
  obtain ⟨k, l, r, hl, hw⟩ := exists_line_of_mem _ (fun _ => rfl) (fun _ _ _ => rfl) h
  simp only [styleWarningsAt, List.mem_append, or_assoc] at hw
  rcases hw with hw | hw | hw | hw
  · obtain ⟨m, hm, rfl⟩ := List.mem_map.mp hw
    have hcall := Option.mem_toList.mp hm
    unfold spacedCall? at hcall
    split at hcall
    next => cases hcall
    next =>
      have hmatch := isMatch_of_mem_allMatches (List.mem_of_find?_eq_some hcall)
      have hlt := hmatch.start_lt (by decide)
      refine match_mark hl hmatch (by decide) rfl rfl ?_
      change 1 ≤ m.stop - m.start
      omega
  · obtain ⟨m, hm, rfl⟩ := List.mem_map.mp hw
    unfold tightOperators at hm
    split at hm
    next => cases hm
    next =>
      have hmatch := isMatch_of_mem_allMatches hm
      have hlt := hmatch.start_lt (by decide)
      refine match_mark hl hmatch (by decide) rfl rfl ?_
      change max 1 (m.stop - m.start) ≤ m.stop - m.start
      omega
  · obtain ⟨⟨i, name⟩, hf, rfl⟩ := List.mem_map.mp hw
    exact capitalFunction_mark hl (Option.mem_toList.mp hf) rfl
  · obtain ⟨i, hi, rfl⟩ := List.mem_map.mp hw
    have hmove := Option.mem_toList.mp hi
    unfold looseMove? at hmove
    split at hmove
    next => cases hmove
    next j hj =>
      split at hmove
      next => cases hmove
      next =>
        cases hmove
        have hlength := (prefix_of_indexOf? hj).length_le
        rw [List.length_drop] at hlength
        refine Mark.pointsInto_of_line hl rfl (Nat.succ_pos _) ?_
        change i + 1 + 2 ≤ l.length + 1
        change 2 ≤ l.length - i at hlength
        omega

end Style

end Checks

section Brackets

/-- Where a bracket stands. -/
def BracketToken.position : BracketToken → Text.Position
  | .opener _ p | .closer _ p => p

/-- A position on one of the lines of a text that starts at `p`, where its first line goes on. -/
def OnLines (p : Text.Position) (ls : List (List Char)) (q : Text.Position) : Prop :=
  ∃ j l, ls[j]? = some l ∧ q.line = p.line + j ∧ (if j = 0 then p.column else 1) ≤ q.column ∧
    q.column < (if j = 0 then p.column else 1) + l.length

section OnLines

variable {p q : Text.Position} {c : Char} {l : List Char} {ls : List (List Char)}

theorem onLines_self : OnLines p ((c :: l) :: ls) p := by
  refine ⟨0, c :: l, rfl, rfl, Nat.le_refl _, ?_⟩
  simp only [↓reduceIte, List.length_cons]
  omega

theorem OnLines.newline (h : OnLines ⟨p.line + 1, 1⟩ ls q) : OnLines p ([] :: ls) q := by
  obtain ⟨j, l, hl, hline, hle, hlt⟩ := h
  refine ⟨j + 1, l, hl, ?_, ?_, ?_⟩
  · rw [hline]
    simp only
    omega
  · simpa using hle
  · simpa using hlt

theorem OnLines.behind (h : OnLines ⟨p.line, p.column + 1⟩ (l :: ls) q) : OnLines p ((c :: l) :: ls) q := by
  obtain ⟨j, l', hl, hline, hle, hlt⟩ := h
  cases j with
  | zero =>
    cases hl
    simp only [↓reduceIte] at hle hlt
    refine ⟨0, c :: l, rfl, hline, ?_, ?_⟩
    · simp only [↓reduceIte]
      omega
    · simp only [↓reduceIte, List.length_cons]
      omega
  | succ j => exact ⟨j + 1, l', hl, hline, hle, hlt⟩

end OnLines

/-- The brackets of a text stand on its lines. -/
theorem position_of_mem_bracketTokens {p : Text.Position} {r : List Char} {b : BracketToken}
    (h : b ∈ bracketTokens p r) : OnLines p (lines r) b.position := by
  induction r generalizing p with
  | nil => cases h
  | cons c r ih =>
    by_cases hc : c = '\n'
    · subst hc
      exact (ih h).newline
    · obtain ⟨l, ls, hls⟩ := List.exists_cons_of_ne_nil (lines_ne_nil r)
      have hnext (h : b ∈ bracketTokens ⟨p.line, p.column + 1⟩ r) : OnLines p ((c :: l) :: ls) b.position := by
        have hrest := ih h
        rw [hls] at hrest
        exact hrest.behind
      rw [lines_cons hc hls]
      simp only [bracketTokens, if_neg hc] at h
      split at h
      next =>
        rcases List.mem_cons.mp h with rfl | h
        · exact onLines_self
        · exact hnext h
      next =>
        rcases List.mem_cons.mp h with rfl | h
        · exact onLines_self
        · exact hnext h
      next => exact hnext h

/-- A bracket error is about a bracket of the text, or one that was open before it. -/
theorem position_of_mem_matchBrackets {stack : List OpenBracket} {bs : List BracketToken} {e : BracketError}
    (h : e ∈ matchBrackets stack bs) :
    (∃ o ∈ stack, o.position = e.position) ∨ ∃ b ∈ bs, b.position = e.position := by
  fun_induction matchBrackets stack bs with
  | case1 stack =>
    obtain ⟨o, ho, rfl⟩ := List.mem_map.mp h
    exact .inl ⟨o, List.mem_reverse.mp ho, rfl⟩
  | case2 stack b p rest ih =>
    rcases ih h with ⟨o, ho, hpos⟩ | ⟨b', hb', hpos⟩
    · rcases List.mem_cons.mp ho with rfl | ho
      · exact .inr ⟨.opener b p, List.mem_cons_self, hpos⟩
      · exact .inl ⟨o, ho, hpos⟩
    · exact .inr ⟨b', List.mem_cons_of_mem _ hb', hpos⟩
  | case3 b p rest ih =>
    rcases List.mem_cons.mp h with rfl | h
    · exact .inr ⟨.closer b p, List.mem_cons_self, rfl⟩
    · rcases ih h with ⟨o, ho, _⟩ | ⟨b', hb', hpos⟩
      · cases ho
      · exact .inr ⟨b', List.mem_cons_of_mem _ hb', hpos⟩
  | case4 o stack p rest ih =>
    rcases ih h with ⟨o', ho', hpos⟩ | ⟨b', hb', hpos⟩
    · exact .inl ⟨o', List.mem_cons_of_mem _ ho', hpos⟩
    · exact .inr ⟨b', List.mem_cons_of_mem _ hb', hpos⟩
  | case5 o stack b p rest hne ih =>
    rcases List.mem_cons.mp h with rfl | h
    · exact .inr ⟨.closer b p, List.mem_cons_self, rfl⟩
    · rcases ih h with ⟨o', ho', hpos⟩ | ⟨b', hb', hpos⟩
      · exact .inl ⟨o', List.mem_cons_of_mem _ ho', hpos⟩
      · exact .inr ⟨b', List.mem_cons_of_mem _ hb', hpos⟩

theorem bracketErrors_marks {s : List Char} {e : BracketError} (h : e ∈ bracketErrors s) :
    e.issue.mark.PointsInto (lines s) := by
  rcases position_of_mem_matchBrackets h with ⟨o, ho, _⟩ | ⟨b, hb, hpos⟩
  · cases ho
  · obtain ⟨j, l, hl, hline, hle, hlt⟩ := position_of_mem_bracketTokens hb
    have hone : (if j = 0 then (⟨1, 1⟩ : Text.Position).column else 1) = 1 := by split <;> rfl
    rw [hone, hpos] at hle hlt
    rw [hpos] at hline
    refine Mark.pointsInto_of_line hl hline hle ?_
    change e.position.column + 1 ≤ l.length + 1
    omega

end Brackets

namespace Diagnostics

/-- All diagnostics of a text. -/
def issues (d : Diagnostics) : List Issue :=
  d.errors ++ d.warnings ++ d.structures.map (·.issue) ++ d.functions.map (·.issue) ++ d.events.map (·.issue)

/-- Diagnostics that point at real places of a text: each runs over characters of one of its lines, and what stands there
is the word that declares a function, a contract or resource, or an event; the diagnostics of parameters apart. -/
structure PointInto (d : Diagnostics) (s : List Char) : Prop where
  marks : ∀ i ∈ d.issues, i.mark.PointsInto (lines s)
  functions : ∀ e ∈ d.functions, "fun".toList <+: e.issue.mark.textAt (lines s)
  structures : ∀ e ∈ d.structures, e.fault.word.toList <+: e.issue.mark.textAt (lines s)
  events : ∀ e ∈ d.events, e.issue.kind ≠ "invalid-parameter-types" →
    "event".toList <+: e.issue.mark.textAt (lines s)

end Diagnostics

/-- Whatever a text holds, its diagnostics point at real places of it. -/
theorem diagnose_points_into (s : List Char) : (diagnose s).PointInto s := by
  have hlines := lines_codeOnly s
  constructor
  · intro i hi
    suffices hblanked : i.mark.PointsInto (lines (codeOnly s)) from hblanked.of_blanks hlines
    simp only [Diagnostics.issues, Diagnostics.errors, Diagnostics.warnings, List.mem_append, List.mem_map,
      or_assoc] at hi
    rcases hi with ⟨e, he, rfl⟩ | ⟨e, he, rfl⟩ | ⟨e, he, rfl⟩ | ⟨e, he, rfl⟩ | ⟨e, he, rfl⟩ | ⟨e, he, rfl⟩
    · exact bracketErrors_marks he
    · exact statementErrors_marks he
    · exact styleWarnings_marks he
    · exact (structureErrors_marks he).1
    · exact (functionErrors_marks he).1
    · exact (eventErrors_marks he).1
  · intro e he
    exact Mark.prefix_textAt_of_blanks (by decide) (functionErrors_marks he).2 hlines
  · intro e he
    have hspace : ' ' ∉ e.fault.word.toList := by
      rcases e.fault.word_cases with hword | hword <;> rw [hword] <;> decide
    exact Mark.prefix_textAt_of_blanks hspace (structureErrors_marks he).2 hlines
  · intro e he hkind
    exact Mark.prefix_textAt_of_blanks (by decide) ((eventErrors_marks he).2 hkind) hlines

example : ((diagnose "/* é */ event E(a)".toList).events.map fun e => (e.fault, e.column)) =
    [(.missingAccess, 9), (.untypedParameter "a", 17)] := by decide +kernel

end CadenceUplift
