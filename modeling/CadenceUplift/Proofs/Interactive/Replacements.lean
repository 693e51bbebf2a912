import CadenceUplift.Proofs.Interactive.Modernization
import CadenceUplift.Proofs.Literal.LineBreaks
import CadenceUplift.Proofs.Matching.Overlap
import CadenceUplift.Proofs.Scan.Location
import CadenceUplift.Proofs.Uplift.Redone
import CadenceUplift.Proofs.Validation.Rejection
import Mathlib.Data.List.TakeWhile

namespace CadenceUplift

open Text Pattern

section Lines

/-- A text up to its last line, and that line. -/
theorem exists_last_line (a : List Char) :
    ∃ b q, a = b ++ q ∧ '\n' ∉ q ∧ (b = [] ∨ ∃ p, b = p ++ ['\n']) := by
  induction a using List.reverseRecOn with
  | nil => exact ⟨[], [], rfl, by simp, .inl rfl⟩
  | append_singleton a c ih =>
    by_cases hc : c = '\n'
    · exact ⟨a ++ [c], [], by simp, by simp, .inr ⟨a, by rw [hc]⟩⟩
    · obtain ⟨b, q, rfl, hq, hb⟩ := ih
      exact ⟨b, q ++ [c], by simp, by simp [hq, Ne.symm hc], hb⟩

/-- The line on which a place lies, and where it starts. -/
theorem line_around {b q u : List Char} (hq : '\n' ∉ q) (hb : b = [] ∨ ∃ p, b = p ++ ['\n']) :
    ∃ k, (lines (b ++ q ++ u))[k]? = some (q ++ lineRest u) ∧ lineStart (lines (b ++ q ++ u)) k = b.length ∧
      (k = 0 ↔ b = []) := by
  obtain ⟨ls, hls⟩ := lines_eq_cons (q ++ u)
  rw [lineRest_append hq] at hls
  obtain rfl | ⟨p, rfl⟩ := hb
  · exact ⟨0, by simp [hls], rfl, by simp⟩
  · have hlines : lines (p ++ ['\n'] ++ q ++ u) = lines p ++ lines (q ++ u) := by
      rw [← lines_newline]
      simp
    refine ⟨(lines p).length, ?_, ?_, by simp [lines_ne_nil]⟩
    · rw [hlines, hls, List.getElem?_append_right (Nat.le_refl _), Nat.sub_self]
      rfl
    · rw [hlines, lineStart, List.take_left, List.length_append, List.length_singleton, ← lineStart_length, lineStart,
        List.take_length]

end Lines

section Blanks

/-- Trimming takes all of a text only if all of it is blank. -/
theorem blank_of_trim_eq_nil {s : List Char} (h : trim s = []) : ∀ c ∈ s, isBlank c = true := by
  have hright : ∀ c ∈ trimLeft s, isBlank c = true := by
    rw [trim, trimRight, List.reverse_eq_nil_iff, List.dropWhile_eq_nil_iff] at h
    simpa using h
  intro c hc
  rw [← List.takeWhile_append_dropWhile (p := isBlank) (l := s)] at hc
  rcases List.mem_append.mp hc with hc | hc
  · exact List.all_eq_true.mp List.all_takeWhile c hc
  · exact hright c hc

/-- A text with changes that each show something is blank only if there are none. -/
theorem Redone.eq_of_blank {R : Reader → List Char → List Char → Prop} {σ : Reader} {r r' : List Char}
    (hR : ∀ {τ u u'}, R τ u u' → ∃ c ∈ u', isBlank c = false) (h : Redone R σ r r')
    (hblank : ∀ c ∈ r', isBlank c = true) : r' = r := by
  induction h with
  | nil => rfl
  | keep c _ ih => rw [ih fun d hd => hblank d (List.mem_cons_of_mem _ hd)]
  | change hm _ _ _ =>
    obtain ⟨c, hc, hshown⟩ := hR hm
    rw [hblank c (List.mem_append_left _ hc)] at hshown
    cases hshown

theorem Step.swap_shows {st : Step} {σ : Reader} {u u' : List Char} (h : st.Swap σ u u') :
    ∃ c ∈ u', isBlank c = false := by
  cases st with
  | target t =>
    obtain ⟨_, ps, ps', c, hat, hout, _, rfl, _, _, _, hps'⟩ := h
    obtain ⟨w, m₀, rfl⟩ := (t.rewrites (ε := Unit)).out_opens hat hout
    obtain ⟨hne, hword⟩ := (hps' (.word w) (by simp)).2
    obtain ⟨d, v, rfl⟩ := List.exists_cons_of_ne_nil hne
    exact ⟨d, by simp [Piece.text], isBlank_of_isWord (hword d (by simp))⟩
  | getter =>
    obtain ⟨_, rfl⟩ := h
    exact ⟨'v', by decide, by decide⟩

/-- A text that some steps leave blank is left as it is. -/
theorem afterSteps_eq_of_blank {skipLiterals : Bool} {ss : List Step} {s : List Char}
    (h : ∀ c ∈ afterSteps skipLiterals ss s, isBlank c = true) : afterSteps skipLiterals ss s = s := by
  induction ss generalizing s with
  | nil => rfl
  | cons st ss ih =>
    have hrest : afterSteps skipLiterals (st :: ss) s = st.after skipLiterals s := ih h
    rw [hrest] at h ⊢
    exact (st.redone_after skipLiterals s).eq_of_blank Step.swap_shows h

end Blanks

/-- The replacement that is shown for a line. -/
def replacement (skipLiterals : Bool) (line : List Char) : String :=
  if afterSteps skipLiterals steps line = line then "" else String.ofList (trim (afterSteps skipLiterals steps line))

/-- The line of a finding. -/
def Finding.lineIn (f : Finding) (s : List Char) : List Char := (lines s).getD (f.site.line - 1).toNat []

/-- The suggestion that the starting rules make for a finding in a text. -/
def suggested (skipLiterals : Bool) (s : List Char) (f : Finding) : Suggestion :=
  ⟨f, replacement skipLiterals (f.lineIn s), f.construct.explanation,
    f.construct.sample?.getD ⟨f.matched, replacement skipLiterals (f.lineIn s), f.suggestedFix⟩,
    .ofSuggestion f.severity f.fixable, f.fixable⟩

theorem suggestionFor_eq [CharacterNames] (o : RunOptions) (s : List Char) (f : Finding) :
    suggestionFor ⟨o, Rule.defaults⟩ (lines s) f = .ok (suggested o.preserves s f) := by
  rw [suggestionFor, uplift_eq, suggested, replacement, Finding.lineIn]
  simp only [bind, Except.bind, pure, Except.pure]

theorem replacement_eq_empty {skipLiterals : Bool} {line : List Char} :
    replacement skipLiterals line = "" ↔ ∀ st ∈ steps, st.load skipLiterals line = 0 := by
  rw [replacement]
  constructor
  · intro h
    have hsame : afterSteps skipLiterals steps line = line := by
      by_contra hne
      rw [if_neg hne, String.ofList_eq_empty_iff] at h
      exact hne (afterSteps_eq_of_blank (blank_of_trim_eq_nil h))
    rw [← hsame]
    exact afterSteps_settled steps_pairwise skipLiterals line
  · intro h
    rw [if_pos (steps_unchanged h).1]

theorem suggested_modern_eq_empty {skipLiterals : Bool} {s : List Char} {f : Finding} :
    (suggested skipLiterals s f).modern = "" ↔ ∀ st ∈ steps, st.load skipLiterals (f.lineIn s) = 0 := by
  rw [← replacement_eq_empty, suggested]

/-- A check by the starting rules ends, with a suggestion for each finding. -/
theorem checkInput_eq [CharacterNames] (o : RunOptions) (s : List Char) :
    ∃ c, checkInput ⟨o, Rule.defaults⟩ s = .ok c ∧
      c.suggestions = (legacyFindings s).map (suggested o.preserves s) := by
  have hall : suggestionFor ⟨o, Rule.defaults⟩ (lines s) = fun f => pure (suggested o.preserves s f) :=
    funext fun f => suggestionFor_eq o s f
  rw [checkInput, hall, List.mapM_pure]
  exact ⟨_, rfl, rfl⟩

section Detectors

variable {p : Pattern} {At : List Piece → List Piece → Prop} {q u : List Char} {M : Match}

/-- A pattern reads a construct, and what it reads in code is to be changed. -/
structure ReadsFor (p : Pattern) (t : Target) (At : List Piece → List Piece → Prop) : Prop extends Reads p At where
  not_inCode : ∀ {σ : Reader} {ys m c r : List Piece}, At m c →
    t.hits Lexeme.piece (tagged σ (ys ++ (m ++ (c ++ r)))) = 0 → (σ.after (textOf ys)).inCode = false

theorem detectors_regular : ∀ d ∈ Legacy.detectors, d.pattern.isRegular = true ∧ d.pattern.advances = true := by
  decide +kernel

theorem member_readsFor (m : AccountMember) : ReadsFor (Target.member m).pattern (.member m) (Target.member m).At where
  toReads := ((Target.member m).rewrites (ε := Unit)).toReads
  not_inCode := not_inCode_of_hits (member_finds (Target.account_not_name m) m.isCall)

/-- What a detector finds is a construct that is to be changed, or a getter, or nothing that can be changed. -/
theorem detectors_look : ∀ d ∈ Legacy.detectors, (∃ t At, ReadsFor d.pattern t At) ∨ d.pattern = Legacy.getter ∨
    ∀ (s : List Char), ∀ M ∈ d.pattern.allMatches s.toArray,
      isFixable d.construct (String.ofList (M.text s.toArray)) = false := by
  have hlink : ∀ (s : List Char), ∀ M ∈ Legacy.link.allMatches s.toArray,
      isFixable .storageApi (String.ofList (M.text s.toArray)) = false := by
    intro s M hM
    simp [isFixable, Option.isNone_eq_false_iff.mpr (link_again hM)]
  simp only [Legacy.detectors, List.forall_mem_cons]
  exact ⟨.inl ⟨.keyword false, _, keyword_reads false, not_inCode_of_hits (keyword_finds false)⟩,
    .inl ⟨.keyword true, _, keyword_reads true, not_inCode_of_hits (keyword_finds true)⟩,
    .inl ⟨_, _, member_readsFor .save⟩, .inr (.inr hlink), .inl ⟨_, _, member_readsFor .borrow⟩,
    .inl ⟨_, _, member_readsFor .getCapability⟩, .inl ⟨_, _, member_readsFor .load⟩,
    .inl ⟨_, _, member_readsFor .copy⟩,
    .inl ⟨.conformance, _, body_reads, not_inCode_of_hits body_finds⟩, .inr (.inl trivial),
    .inr (.inr fun _ _ _ => rfl), List.forall_mem_nil _⟩

/-- What matches behind a text that it is apart from stands there in pieces of its own. -/
theorem Reads.pieces_behind (hR : Reads p At) (h : p.matchAt (q ++ u).toArray q.length = some M) :
    ∃ m c r, At m c ∧ pieces u = m ++ (c ++ r) ∧ pieces (q ++ u) = pieces q ++ (m ++ (c ++ r)) := by
  obtain ⟨hends, m, c, r, hu, hat, _⟩ := hR.sound h
  obtain ⟨w, m₀, rfl⟩ := hR.opens hat
  refine ⟨_, c, r, hat, hu, ?_⟩
  rw [pieces_append hends (startsWord_iff.mpr ⟨w, _, hu⟩), hu]

/-- A construct that matches in code is among the places to be changed. -/
theorem ReadsFor.load_ne_zero {t : Target} (h : ReadsFor p t At) {skipLiterals : Bool}
    (hM : p.matchAt (q ++ u).toArray q.length = some M) (hcode : ((readerFor skipLiterals).after q).inCode = true) :
    (Step.target t).load skipLiterals (q ++ u) ≠ 0 := by
  obtain ⟨m, c, r, hat, _, hpieces⟩ := h.pieces_behind hM
  rw [Target.load_eq_hits, lexemes, hpieces]
  intro hzero
  have hout := h.not_inCode hat hzero
  rw [textOf_pieces, hcode] at hout
  cases hout

/-- A getter that is found in a text is among the places to be changed in each line of it that has it in code. -/
theorem getter_load_ne_zero {b v : List Char} (hb : endsWord b = false) {skipLiterals : Bool}
    (hM : M ∈ Legacy.getter.allMatches (b ++ (q ++ u ++ v)).toArray) (hstart : M.start = b.length + q.length)
    (hline : (Legacy.getter.matchAt (q ++ u).toArray q.length).isSome)
    (hcode : ((readerFor skipLiterals).after q).inCode = true) :
    Step.getter.load skipLiterals (q ++ u) ≠ 0 := by
  obtain ⟨N, hN, hplace⟩ := getter_found_within hb hM hstart (by simp) hline
  obtain ⟨K, hK⟩ := Option.isSome_iff_exists.mp hline
  obtain ⟨_, _, r, ⟨rfl, g, rfl⟩, hu, _⟩ := getter_reads.pieces_behind hK
  obtain ⟨htext, hdiv⟩ := pieces_eq_iff.mp hu
  have hfree : (skipIndex skipLiterals (q ++ u)).covers q.length = !true := by
    rw [← hcode]
    exact covers_skipIndex _ skipLiterals q Word.access _ (congrArg (q ++ ·) htext) hdiv
  have hmem : N ∈ matchesOutside Legacy.getter (q ++ u).toArray (skipIndex skipLiterals (q ++ u)) := by
    refine List.mem_filter.mpr ⟨hN, ?_⟩
    rw [hplace, hfree]
    rfl
  exact Nat.ne_of_gt (List.length_pos_of_mem hmem)

theorem inCode_readerFor (skipLiterals : Bool) (h : (Reader.code.after q).inCode = true) :
    ((readerFor skipLiterals).after q).inCode = true := by
  cases skipLiterals with
  | false =>
    have hoff : (readerFor false).after q = .off := Reader.after_off q
    rw [hoff]
    rfl
  | true => exact h

/-- Behind a newline that no literal has, a place in code is in code on its own line. -/
theorem inCode_of_line {b : List Char}
    (hb : b = [] ∨ ∃ a, b = a ++ ['\n'] ∧ ¬Covered a.length (literals (b ++ (q ++ u))))
    (hstart : ¬Covered (b.length + q.length) (literals (b ++ (q ++ u)))) (hu : startsWord u = true) :
    (Reader.code.after q).inCode = true := by
  obtain ⟨c, v, rfl⟩ : ∃ c v, u = c :: v := by
    cases u with
    | nil => cases hu
    | cons c v => exact ⟨c, v, rfl⟩
  have hfree : ¬Covered q.length (literals (q ++ c :: v)) := by
    obtain rfl | ⟨a, rfl, hline⟩ := hb
    · simpa using hstart
    · have htext : a ++ ['\n'] ++ (q ++ c :: v) = a ++ '\n' :: (q ++ c :: v) := by simp
      rw [htext] at hline hstart
      rw [literals_newline hline] at hstart
      rintro ⟨l, hl, hlow, hhigh⟩
      refine hstart ⟨l.behind (a.length + 1), List.mem_append_right _ (List.mem_map_of_mem hl), ?_, ?_⟩
      · simpa [Literal.behind] using hlow
      · simpa [Literal.behind] using hhigh
  rw [covered_literals rfl (quiet_of_isWord hu)] at hfree
  simpa using hfree

end Detectors

/-- The line of a finding, read on its own, does not have what is found: it is not on the line in full, or the line
begins within a literal. -/
def Finding.Hidden (f : Finding) (s : List Char) (p : Pattern) : Prop :=
  p.matchAt (f.lineIn s).toArray (f.site.column - 1).toNat = none ∨
    1 < f.site.line ∧ Covered (lineStart (lines s) (f.site.line - 1).toNat - 1) (literals s)

section Findings

variable {s : List Char} {f : Finding}

theorem not_covered_of_outside {i : Nat} (h : (literalIndex s).covers i = false) : ¬Covered i (literals s) := by
  rw [← covers_literalIndex_iff, h]
  exact Bool.false_ne_true

/-- What stands on the line of a finding in front of it, and what stands in front of the line. -/
theorem Finding.LocatedAt.line_split {p : Position} {i : Nat} (h : f.LocatedAt s p i) (hi : i ≤ s.length) :
    ∃ b q u, s = b ++ (q ++ u) ∧ i = b.length + q.length ∧ f.lineIn s = q ++ lineRest u ∧
      (f.site.column - 1).toNat = q.length ∧
      (b = [] ∧ f.site.line = 1 ∨ ∃ a, b = a ++ ['\n'] ∧ 1 < f.site.line ∧
        lineStart (lines s) (f.site.line - 1).toNat - 1 = a.length) := by
  obtain ⟨a, u, rfl, rfl⟩ : ∃ a u, s = a ++ u ∧ a.length = i :=
    ⟨s.take i, s.drop i, (List.take_append_drop i s).symm, List.length_take_of_le hi⟩
  obtain ⟨b, q, rfl, hq, hb⟩ := exists_last_line a
  obtain ⟨k, hk, hstart, hfirst⟩ := line_around (u := u) hq hb
  have hlength : (b ++ q).length = b.length + q.length := List.length_append
  have hline : p.line = k + 1 := by
    refine h.position.line_eq hk (by omega) ?_
    rw [hstart, hlength, List.length_append]
    omega
  have hnumber : (f.site.line - 1).toNat = k := by
    rw [h.line, hline]
    omega
  have hcolumn : (f.site.column - 1).toNat = q.length := by
    have hoffset := h.position.offset_eq
    have hpos := h.position.column_pos
    rw [hline, Nat.add_sub_cancel, hstart] at hoffset
    rw [h.column]
    omega
  refine ⟨b, q, u, List.append_assoc b q u, hlength, ?_, hcolumn, ?_⟩
  · rw [lineIn, hnumber, List.getD_eq_getElem?_getD, hk]
    rfl
  · obtain rfl | ⟨a, rfl⟩ := hb
    · exact .inl ⟨rfl, by rw [h.line, hline, hfirst.mpr rfl]; rfl⟩
    · refine .inr ⟨a, rfl, ?_, ?_⟩
      · have hlater : k ≠ 0 := fun hk => by simpa using hfirst.mp hk
        rw [h.line, hline]
        omega
      · rw [hnumber, hstart]
        simp

/-- A finding that can be changed mechanically is hidden if its line has nothing to change. -/
theorem Finding.hidden_of_settled {d : Legacy.Detector} (hd : d ∈ Legacy.detectors) {M : Match}
    (hM : M ∈ matchesOutside d.pattern s.toArray (literalIndex s)) {p : Position} (hlocated : f.LocatedAt s p M.start)
    (hfixable : isFixable d.construct (String.ofList (M.text s.toArray)) = true) {skipLiterals : Bool}
    (hsettled : ∀ st ∈ steps, st.load skipLiterals (f.lineIn s) = 0) : f.Hidden s d.pattern := by
  obtain ⟨hM, houtside⟩ := List.mem_filter.mp hM
  have hfree : ¬Covered M.start (literals s) := not_covered_of_outside (by simpa using houtside)
  have hwithin := (isMatch_of_mem_allMatches hM).within
  have hsize : M.start ≤ s.length := Nat.le_trans hwithin.start_le hwithin.stop_le
  obtain ⟨b, q, u, rfl, hstart, hline, hcolumn, hbegin⟩ := hlocated.line_split hsize
  by_contra hshown
  rw [Finding.Hidden, not_or, hline, hcolumn] at hshown
  obtain ⟨hmatch, hopen⟩ := hshown
  obtain ⟨N, hN⟩ := Option.ne_none_iff_exists'.mp hmatch
  have hb : b = [] ∨ ∃ a, b = a ++ ['\n'] ∧ ¬Covered a.length (literals (b ++ (q ++ u))) := by
    obtain ⟨rfl, _⟩ | ⟨a, rfl, hlater, hplace⟩ := hbegin
    · exact .inl rfl
    · rw [hplace] at hopen
      exact .inr ⟨a, rfl, fun hcovered => hopen ⟨hlater, hcovered⟩⟩
  have hends : endsWord b = false := by
    have hnewline : isWord '\n' = false := by decide
    obtain rfl | ⟨a, rfl, _⟩ := hb
    · rfl
    · simp [endsWord, hnewline]
  have hcode {At : List Piece → List Piece → Prop} (hR : Reads d.pattern At) :
      ((readerFor skipLiterals).after q).inCode = true := by
    obtain ⟨m, c, r, hat, hu, _⟩ := hR.pieces_behind hN
    obtain ⟨w, m₀, rfl⟩ := hR.opens hat
    have hword : startsWord (lineRest u) = true := startsWord_iff.mpr ⟨w, _, hu⟩
    refine inCode_readerFor skipLiterals (inCode_of_line hb (by rwa [← hstart]) ?_)
    by_contra hno
    rw [startsWord_lineRest (by simpa using hno)] at hword
    cases hword
  rw [hline] at hsettled
  rcases detectors_look d hd with ⟨t, At, hR⟩ | hgetter | hnever
  · have hmem : Step.target t ∈ steps := by
      cases t with
      | keyword b => cases b <;> decide
      | conformance => decide
      | member m => cases m <;> decide
    exact hR.load_ne_zero hN (hcode hR.toReads) (hsettled _ hmem)
  · rw [hgetter] at hM hN hcode
    have htext : b ++ (q ++ u) = b ++ (q ++ lineRest u ++ u.dropWhile (· != '\n')) := by
      rw [lineRest, List.append_assoc q, List.takeWhile_append_dropWhile]
    rw [htext] at hM
    exact getter_load_ne_zero hends hM hstart (by rw [hN]; rfl) (hcode getter_reads) (hsettled _ (by decide))
  · rw [hnever _ M hM] at hfixable
    cases hfixable

/-- Nothing is hidden in a text of one line. -/
theorem Finding.LocatedAt.not_hidden_of_single_line {place : Position} {p : Pattern} {M : Match}
    (hlocated : f.LocatedAt s place M.start)
    (hM : M.start ≤ s.length) (hmatch : p.matchAt s.toArray M.start = some M) (hone : '\n' ∉ s) : ¬f.Hidden s p := by
  obtain ⟨b, q, u, rfl, hstart, hline, hcolumn, hbegin⟩ := hlocated.line_split hM
  obtain ⟨rfl, hfirst⟩ | ⟨a, rfl, _⟩ := hbegin
  · have hrest : lineRest u = u := by
      have hall := lineRest_append (w := u) (fun hu => hone (by simp [hu])) []
      simpa [lineRest] using hall
    rw [List.length_nil, Nat.zero_add] at hstart
    rw [List.nil_append] at hline
    rw [List.nil_append, hstart] at hmatch
    simp [Hidden, hline, hcolumn, hrest, hmatch, hfirst]
  · simp at hone

end Findings

/-- A check by the starting rules ends, with a suggestion for each finding in turn. The replacement in a suggestion is
empty exactly if no step finds anything to change in the line of the finding on its own. For a finding that can be
changed mechanically, this is the case only if the line does not have what is found: the pattern that found it does not
match at its column of the line, or the line begins within a literal. So in a text of one line it never is. -/
theorem check_shows_replacements [CharacterNames] (o : RunOptions) (s : List Char) :
    ∃ c, checkInput ⟨o, Rule.defaults⟩ s = .ok c ∧ c.suggestions.map (·.finding) = legacyFindings s ∧
      ∀ x ∈ c.suggestions,
        (x.modern = "" ↔ ∀ st ∈ steps, st.load o.preserves (x.finding.lineIn s) = 0) ∧
        (x.fixable = true → x.modern = "" → ∃ d ∈ Legacy.detectors, ∃ M : Match,
          x.finding.Reports s inputName d M ∧ x.finding.Hidden s d.pattern) ∧
        ('\n' ∉ s → x.fixable = true → x.modern ≠ "") := by
  obtain ⟨c, hc, hsuggestions⟩ := checkInput_eq o s
  refine ⟨c, hc, ?_, ?_⟩
  · rw [hsuggestions, List.map_map]
    exact List.map_id'' (fun f => rfl) _
  · intro x hx
    rw [hsuggestions] at hx
    obtain ⟨f, hf, rfl⟩ := List.mem_map.mp hx
    have hhidden : f.fixable = true → (suggested o.preserves s f).modern = "" → ∃ d ∈ Legacy.detectors,
        ∃ M ∈ d.pattern.allMatches s.toArray, f.Reports s inputName d M ∧ f.Hidden s d.pattern := by
      intro hfixable hnone
      obtain ⟨d, hd, M, hM, rfl, _⟩ := exists_of_mem_legacyFindings hf
      obtain ⟨hfound, houtside⟩ := List.mem_filter.mp hM
      have hwithin := (isMatch_of_mem_allMatches hfound).within
      have hsetting : (Subject.ofText s inputName (some true)).setting M = none :=
        (setting_eq_none_iff (Option.getD_some ..)).mpr
          ⟨pathSetting_input, not_covered_of_outside (by simpa using houtside)⟩
      have hreports := reports_sighting (d := d) hwithin hsetting
      obtain ⟨p, hlocated⟩ := hreports.located
      rw [sighting_fixable] at hfixable
      have hsettled := suggested_modern_eq_empty.mp hnone
      exact ⟨d, hd, M, hfound, hreports, Finding.hidden_of_settled hd hM hlocated hfixable hsettled⟩
    refine ⟨suggested_modern_eq_empty, ?_, ?_⟩
    · intro hfixable hnone
      obtain ⟨d, hd, M, _, hreports, hhid⟩ := hhidden hfixable hnone
      exact ⟨d, hd, M, hreports, hhid⟩
    · intro hone hfixable hnone
      obtain ⟨d, hd, M, hfound, hreports, hhid⟩ := hhidden hfixable hnone
      obtain ⟨hregular, hadvances⟩ := detectors_regular d hd
      obtain ⟨hsize, hmatch⟩ := matchAt_of_mem_allMatches hregular hadvances hfound
      obtain ⟨p, hlocated⟩ := hreports.located
      exact hlocated.not_hidden_of_single_line (by simpa using hsize) hmatch hone hhid

/-- The keyword at the end of a line can be changed mechanically, and goes without a replacement: what it belongs to
stands on the next line. -/
theorem keyword_at_line_end_not_shown :
    ∃ c, checkInput {} "pub\nvar a: Int".toList = .ok c ∧ ∃ x ∈ c.suggestions, x.fixable = true ∧ x.modern = "" := by
  have hfindings : (scanText .discard "pub\nvar a: Int".toList inputName (some true)).findings =
      [⟨.pubKeyword, "pub\n", ⟨inputName, 1, 1, "pub\nvar a: Int"⟩, .critical, "Legacy pub keyword found",
        "Replace with access(all) or appropriate access modifier", .high⟩] := by decide +kernel
  have hlegacy := legacyFindings_eq_singleton hfindings
  obtain ⟨c, hc, hsuggestions⟩ := checkInput_eq {} "pub\nvar a: Int".toList
  rw [hlegacy, List.map_singleton] at hsuggestions
  refine ⟨c, hc, _, hsuggestions ▸ List.mem_singleton_self _, by decide +kernel, ?_⟩
  exact suggested_modern_eq_empty.mpr (by decide +kernel)

end CadenceUplift
