import CadenceUplift.Proofs.Matching.Member
import CadenceUplift.Proofs.Text.Lines
import CadenceUplift.Proofs.Uplift.Soundness
import CadenceUplift.Validation.Verdict

namespace CadenceUplift

open Text Pattern

/-- The text up to the end of its first line. -/
def lineRest (u : List Char) : List Char := u.takeWhile (· != '\n')

/-- The text starts with a construct whose line ends before the construct does: right behind the keyword, or among the
blanks in front of the bracket of a storage call. -/
inductive LineSplit : List Char → Prop
  | keyword (r : List Char) : LineSplit (Word.pub ++ '\n' :: r)
  | call {g : List Char} {d : Char} (r : List Char) : (∀ c ∈ g, isBlank c = true) → '\n' ∈ g → d = '<' ∨ d = '(' →
      LineSplit (accountDot ++ ("save".toList ++ (g ++ d :: r)))

theorem LineSplit.newline_mem {u : List Char} (h : LineSplit u) : '\n' ∈ u := by
  cases h with
  | keyword r => simp
  | call r _ hline _ => simp [hline]

section Lines

theorem lineRest_append {w : List Char} (hw : '\n' ∉ w) (r : List Char) : lineRest (w ++ r) = w ++ lineRest r := by
  refine List.takeWhile_append_of_pos ?_
  intro c hc
  simp only [bne_iff_ne, ne_eq]
  rintro rfl
  exact hw hc

theorem startsWord_lineRest {r : List Char} (h : startsWord r = false) : startsWord (lineRest r) = false := by
  cases r with
  | nil => rfl
  | cons c r =>
    by_cases hc : c = '\n'
    · rw [hc]
      rfl
    · have hhead : lineRest (c :: r) = c :: lineRest r := by simp [lineRest, hc]
      rw [hhead]
      exact h

theorem lines_eq_cons (u : List Char) : ∃ ls, lines u = lineRest u :: ls := by
  induction u with
  | nil => exact ⟨[], rfl⟩
  | cons c u ih =>
    obtain ⟨ls, hls⟩ := ih
    by_cases hc : c = '\n'
    · exact ⟨lines u, by simp [lines, lineRest, hc]⟩
    · exact ⟨ls, by simp [lines, hls, lineRest, hc]⟩

/-- A place of a text lies on one of its lines. -/
theorem exists_line (a u : List Char) : ∃ q, q <:+ a ∧ q ++ lineRest u ∈ lines (a ++ u) := by
  induction a using List.reverseRecOn generalizing u with
  | nil =>
    obtain ⟨ls, hls⟩ := lines_eq_cons u
    exact ⟨[], List.suffix_refl _, by simp [hls]⟩
  | append_singleton a c ih =>
    rw [List.append_assoc, List.singleton_append]
    by_cases hc : c = '\n'
    · obtain ⟨ls, hls⟩ := lines_eq_cons u
      refine ⟨[], List.nil_suffix, ?_⟩
      rw [hc, lines_newline, hls]
      simp
    · obtain ⟨q, hq, hmem⟩ := ih (c :: u)
      have hrest : lineRest (c :: u) = c :: lineRest u := by simp [lineRest, hc]
      refine ⟨q ++ [c], ?_, by simpa [hrest] using hmem⟩
      obtain ⟨p, rfl⟩ := hq
      exact ⟨p, by simp⟩

/-- Blanking makes no newlines. -/
theorem newline_of_codeOnly {s : List Char} (h : '\n' ∈ codeOnly s) : '\n' ∈ s := by
  obtain ⟨i, hi⟩ := List.mem_iff_getElem?.mp h
  by_cases hcovered : Covered i (literals s)
  · obtain ⟨l, hl, hstart, hstop⟩ := hcovered
    rw [getElem?_codeOnly_literal hl hstart hstop] at hi
    obtain ⟨c, hc, hblank⟩ := Option.map_eq_some_iff.mp hi
    have hline : c = '\n' := by
      unfold Literal.blankAt at hblank
      grind
    rw [← hline]
    exact List.mem_of_getElem? hc
  · rw [getElem?_codeOnly hcovered] at hi
    exact List.mem_of_getElem? hi

end Lines

section Standing

/-- A pattern matches wherever a text of some form starts that no word prolongs to the left. -/
structure Stands (p : Pattern) (At : List Char → Prop) : Prop where
  regular : p.isRegular = true
  advances : p.advances = true
  iff : ∀ {a u : List Char}, (p.matchAt (a ++ u).toArray a.length).isSome ↔ endsWord a = false ∧ At u

theorem Stands.of_reach {p : Pattern} {At : List Char → Prop} (hreg : p.isRegular = true) (hadv : p.advances = true)
    (h : ∀ {a u : List Char}, (∃ e, Reach (a ++ u).toArray p ⟨a.length, []⟩ e) ↔ endsWord a = false ∧ At u) :
    Stands p At where
  regular := hreg
  advances := hadv
  iff := by
    intro a u
    rw [← h]
    constructor
    · intro hsome
      obtain ⟨M, hM⟩ := Option.isSome_iff_exists.mp hsome
      exact ⟨_, (matchAt_eq_some hreg hM).1⟩
    · rintro ⟨e, he⟩
      exact matchAt_isSome hreg he

/-- A word at an edge and something spelled out behind it. -/
theorem stands_word {w : List Char} (hw : ∀ r, startsWord (w ++ r) = true) {ps : List Pattern}
    (hps : (all ps).isTextual = true) (hreg : (all (edge :: (w.map .char ++ ps))).isRegular = true)
    (hadv : (all (edge :: (w.map .char ++ ps))).advances = true) :
    Stands (all (edge :: (w.map .char ++ ps))) fun u => ∃ x r, u = w ++ (x ++ r) ∧ x ∈ (all ps).language := by
  refine .of_reach hreg hadv ?_
  intro a u
  simp only [reach_edge_cons, reach_chars_append, reach_textual hps]
  constructor
  · rintro ⟨e, hedge, _, rfl, x, r, rfl, hx, rfl⟩
    rw [hw] at hedge
    exact ⟨by simpa using hedge, x, r, rfl, hx⟩
  · rintro ⟨ha, x, r, rfl, hx⟩
    refine ⟨_, ?_, _, rfl, x, r, rfl, hx, rfl⟩
    rw [ha, hw]
    simp

theorem stands_member {name : List Pattern} {names : List (List Char)} {call : Bool}
    (hname : (all name).isTextual = true) (hlang : ∀ u, u ∈ (all name).language ↔ u ∈ names)
    (hvalid : ∀ w ∈ names, (Piece.word w).Valid) (hreg : (memberPattern name call).isRegular = true)
    (hadv : (memberPattern name call).advances = true) :
    Stands (memberPattern name call) fun u => ∃ w r, u = accountDot ++ (w ++ r) ∧ w ∈ names ∧ startsWord r = false ∧
      (call = true → ∃ g d r', r = g ++ d :: r' ∧ (∀ c ∈ g, isBlank c = true) ∧ (d = '<' ∨ d = '(')) := by
  refine .of_reach hreg hadv ?_
  intro a u
  simp only [reach_member hname hlang hvalid, opensCall_iff]
  constructor
  · rintro ⟨e, hedge, w, r, rfl, hw, hr, hcall, rfl⟩
    have hstart : startsWord (accountDot ++ (w ++ r)) = true := rfl
    rw [hstart] at hedge
    exact ⟨by simpa using hedge, w, r, rfl, hw, hr, hcall⟩
  · rintro ⟨ha, w, r, rfl, hw, hr, hcall⟩
    refine ⟨_, ?_, w, r, rfl, hw, hr, hcall, rfl⟩
    have hstart : startsWord (accountDot ++ (w ++ r)) = true := rfl
    rw [ha, hstart]
    simp

end Standing

section Complaints

/-- What makes a text invalid when it occurs on a line. -/
def Legacy.blocking : List Pattern := (Legacy.complaints.filter (·.blocking)).map (·.pattern)

/-- Where the pattern matches, a blocking complaint matches the rest of the line, unless the construct is split. -/
def Complained (p : Pattern) : Prop :=
  ∃ q ∈ Legacy.blocking, ∃ At At', Stands p At ∧ Stands q At' ∧ ∀ u, At u → LineSplit u ∨ At' (lineRest u)

theorem mem_language_name {s : String} (u : List Char) : u ∈ (all (Legacy.chars s)).language ↔ u ∈ [s.toList] := by
  rw [Legacy.chars, mem_language_chars, List.mem_singleton]

theorem pubWord_stands : Stands Legacy.pubWord fun u => ∃ x r, u = Word.pub ++ (x ++ r) ∧ x ∈ (all [many1 blank]).language :=
  stands_word (fun _ => rfl) rfl (by decide) (by decide)

theorem pubWord_complained : Complained Legacy.pubWord := by
  refine ⟨_, by decide, _, _, pubWord_stands, pubWord_stands, ?_⟩
  rintro _ ⟨x, r, rfl, hx⟩
  obtain ⟨hne, hblank⟩ := mem_language_many1_blank.mp hx
  obtain ⟨c, g, rfl⟩ := List.exists_cons_of_ne_nil hne
  by_cases hc : c = '\n'
  · rw [hc]
    exact .inl (.keyword (g ++ r))
  · refine .inr ⟨[c], lineRest (g ++ r), ?_, ?_⟩
    · have hline : '\n' ∉ Word.pub ++ [c] := by
        simp [Word.pub, Ne.symm hc]
      have hsplit := lineRest_append hline (g ++ r)
      simpa using hsplit
    · exact mem_language_many1_blank.mpr ⟨by simp, by simpa using hblank c List.mem_cons_self⟩

theorem pubSet_complained : Complained Legacy.pubSetWord := by
  have hword : Stands Legacy.pubSetWord fun u => ∃ x r, u = keywordText true ++ (x ++ r) ∧ x ∈ (all []).language :=
    stands_word (keyword_starts true) rfl (by decide) (by decide)
  have hblanks : Stands Legacy.pubSetBlanks fun u =>
      ∃ x r, u = keywordText true ++ (x ++ r) ∧ x ∈ (all [many blank]).language :=
    stands_word (keyword_starts true) rfl (by decide) (by decide)
  refine ⟨_, by decide, _, _, hword, hblanks, ?_⟩
  rintro _ ⟨x, r, rfl, _⟩
  refine .inr ⟨[], lineRest (x ++ r), lineRest_append (by decide) _, mem_language_many_blank.mpr (by simp)⟩

theorem newline_not_mem_member {w : List Char} (hw : (Piece.word w).Valid) : '\n' ∉ accountDot ++ w := by
  intro hmem
  rcases List.mem_append.mp hmem with hmem | hmem
  · exact absurd hmem (by decide)
  · exact absurd (hw.2 _ hmem) (by decide)

theorem member_complained {name : String} (hvalid : (Piece.word name.toList).Valid)
    (hreg : (Legacy.accountMember name).isRegular = true) (hadv : (Legacy.accountMember name).advances = true)
    (hlisted : Legacy.accountMember name ∈ Legacy.blocking) : Complained (Legacy.accountMember name) := by
  have hstands : Stands (memberPattern (Legacy.chars name) false) _ :=
    stands_member (isTextual_all (isTextual_chars _)) mem_language_name (by simpa using hvalid) hreg hadv
  refine ⟨_, hlisted, _, _, hstands, hstands, ?_⟩
  rintro _ ⟨w, r, rfl, hw, hr, _⟩
  have hline : '\n' ∉ accountDot ++ w := by
    rw [List.mem_singleton.mp hw]
    exact newline_not_mem_member hvalid
  have hsplit := lineRest_append hline r
  refine .inr ⟨w, lineRest r, by simpa using hsplit, hw, startsWord_lineRest hr, by simp⟩

theorem save_complained : Complained (Legacy.storageAccess "save") := by
  have hsave : Stands (memberPattern (Legacy.chars "save") true) _ :=
    stands_member (by decide) mem_language_name (by decide) (by decide) (by decide)
  have hlanguage : ∀ u, u ∈ (all [Legacy.wordsOf ["save", "load"]]).language ↔ u ∈ ["save", "load"].map String.toList := by
    intro u
    rw [mem_language_all_singleton, mem_language_wordsOf (by simp), List.mem_map]
    simp only [eq_comm]
  have hamong : Stands (memberPattern [Legacy.wordsOf ["save", "load"]] true) _ :=
    stands_member (by decide) hlanguage (by decide) (by decide) (by decide)
  refine ⟨_, by decide, _, _, hsave, hamong, ?_⟩
  rintro _ ⟨w, r, rfl, hw, hr, hcall⟩
  obtain ⟨g, d, r', rfl, hg, hd⟩ := hcall rfl
  obtain rfl : w = "save".toList := List.mem_singleton.mp hw
  by_cases hline : '\n' ∈ g
  · exact .inl (.call r' hg hline hd)
  · have hopen : '\n' ∉ g ++ [d] := by
      rcases hd with rfl | rfl <;> simp [hline]
    have hrest : lineRest (g ++ d :: r') = g ++ d :: lineRest r' := by
      have hsplit := lineRest_append hopen r'
      simpa using hsplit
    have hsplit := lineRest_append (newline_not_mem_member (w := "save".toList) (by decide)) (g ++ d :: r')
    refine .inr ⟨"save".toList, lineRest (g ++ d :: r'), by simpa using hsplit, by simp, startsWord_lineRest hr, ?_⟩
    intro _
    exact ⟨g, d, lineRest r', hrest, hg, hd⟩

/-- Each critical construct has its complaint. -/
theorem rejections_complained : ∀ r ∈ Legacy.rejections, Complained r.1 := by
  intro r hr
  simp only [Legacy.rejections, List.mem_cons, List.not_mem_nil, or_false] at hr
  rcases hr with rfl | rfl | rfl | rfl | rfl
  · exact pubWord_complained
  · exact pubSet_complained
  · exact save_complained
  · exact member_complained (by decide) (by decide) (by decide) (by decide)
  · exact member_complained (by decide) (by decide) (by decide) (by decide)

end Complaints

section Reports

variable {p : Pattern} {ls : List (List Char)}

theorem lineMarks_ne_nil {line : List Char} (hline : line ∈ ls) (h : p.occursIn line = true) (index : Nat) :
    lineMarks p index ls ≠ [] := by
  induction ls generalizing index with
  | nil => cases hline
  | cons l ls ih =>
    rw [lineMarks]
    rcases List.mem_cons.mp hline with rfl | hline
    · obtain ⟨M, hM⟩ := exists_mem_allMatches h
      exact List.append_ne_nil_of_left_ne_nil (List.ne_nil_of_mem (List.mem_map_of_mem hM)) _
    · exact List.append_ne_nil_of_right_ne_nil _ (ih hline (index + 1))

theorem errors_complaints (cs : List Legacy.Complaint) (acc : LegacyReports) :
    (cs.foldl (fun acc c => acc.append (c.reports ls)) acc).errors =
      acc.errors ++ cs.flatMap fun c => (c.reports ls).errors := by
  induction cs generalizing acc with
  | nil => simp
  | cons c cs ih =>
    rw [List.foldl_cons, ih, List.flatMap_cons, LegacyReports.append, List.append_assoc]

theorem legacyReports_catalog [CharacterNames] (s : List Char) :
    ∃ reports, legacyReports [] s = .ok reports ∧
      ∀ c ∈ Legacy.complaints, ∀ e ∈ (c.reports (lines (codeOnly s))).errors, e ∈ reports.errors := by
  refine ⟨_, rfl, ?_⟩
  intro c hc e he
  have hcatalog : e ∈ (Legacy.complaints.foldl (fun acc c => acc.append (c.reports (lines (codeOnly s))))
      LegacyReports.empty).errors := by
    rw [errors_complaints]
    exact List.mem_append_right _ (List.mem_flatMap.mpr ⟨c, hc, he⟩)
  exact List.mem_append_left _ (List.mem_append_left _ hcatalog)

/-- Without added complaints a validation ends, and the errors of the catalog's complaints are among its errors. -/
theorem validate_ends [CharacterNames] (s : List Char) :
    ∃ v, ({} : Standard).validate s = .ok v ∧ v.valid = v.errors.isEmpty ∧
      ∀ c ∈ Legacy.complaints, ∀ e ∈ (c.reports (lines (codeOnly s))).errors, e ∈ v.errors := by
  obtain ⟨reports, hreports, herrors⟩ := legacyReports_catalog s
  have hvalidate : ({} : Standard).validate s =
      .ok ⟨(reports.errors ++ (diagnose s).blockingReports).isEmpty && true,
        reports.errors ++ (diagnose s).blockingReports, reports.warnings ++ (diagnose s).warningReports⟩ := by
    rw [Standard.validate]
    change (legacyReports [] s >>= _) = _
    rw [hreports]
    rfl
  refine ⟨_, hvalidate, Bool.and_true _, ?_⟩
  intro c hc e he
  exact List.mem_append_left _ (herrors c hc e he)

/-- A line on which a blocking complaint occurs makes for an error. -/
theorem exists_error_of_blocking (hp : p ∈ Legacy.blocking) {line : List Char} (hline : line ∈ ls)
    (h : p.occursIn line = true) : ∃ c ∈ Legacy.complaints, ∃ e, e ∈ (c.reports ls).errors := by
  obtain ⟨c, hc, rfl⟩ := List.mem_map.mp hp
  obtain ⟨hc, hblocking⟩ := List.mem_filter.mp hc
  obtain ⟨mark, hmark⟩ := List.exists_mem_of_ne_nil _ (lineMarks_ne_nil hline h 1)
  refine ⟨c, hc, mark.report c.message (some c.suggestion), ?_⟩
  rw [Legacy.Complaint.reports, hblocking]
  exact List.mem_map_of_mem hmark

/-- Every critical construct that is not split has a blocking complaint on its line. -/
theorem Complained.occursIn_line (hp : Complained p) {code : List Char} {M : Match}
    (hM : M ∈ p.allMatches code.toArray) (hsplit : ¬LineSplit (code.drop M.start)) :
    ∃ q ∈ Legacy.blocking, ∃ line ∈ lines code, q.occursIn line = true := by
  obtain ⟨q, hq, At, At', hstands, hstands', hline⟩ := hp
  obtain ⟨a, u, rfl, hlength, hmatch⟩ := exists_split_of_mem_allMatches hstands.regular hstands.advances hM
  rw [← hlength, List.drop_left] at hsplit
  obtain ⟨hends, hat⟩ := hstands.iff.mp (Option.isSome_of_eq_some hmatch)
  have hat' := (hline u hat).resolve_left hsplit
  obtain ⟨b, hsuffix, hmem⟩ := exists_line a u
  refine ⟨q, hq, b ++ lineRest u, hmem, occursIn_iff.mpr ⟨b.length, by simp, ?_⟩⟩
  exact hstands'.iff.mpr ⟨endsWord_suffix hsuffix hends, hat'⟩

theorem exists_match_of_rejected {s : List Char} (h : (rejection s).rejected = true) :
    ∃ r ∈ Legacy.rejections, ∃ M, M ∈ r.1.allMatches (codeOnly s).toArray := by
  unfold rejection at h
  dsimp only at h
  split at h
  next r reason hfind =>
    have hoccurs : r.occursIn (codeOnly s) = true := by simpa using List.find?_some hfind
    exact ⟨(r, reason), List.mem_of_find?_eq_some hfind, exists_mem_allMatches hoccurs⟩
  next => cases h

end Reports

/-- A text that the quick check rejects is not valid either, unless a line ends within every critical construct of it.
A rejected text of one line is never valid. -/
theorem rejected_invalid_or_split [CharacterNames] (s : List Char) (h : (rejection s).rejected = true) :
    ∃ v, ({} : Standard).validate s = .ok v ∧
      (v.valid = true → ∀ r ∈ Legacy.rejections, ∀ M ∈ r.1.allMatches (codeOnly s).toArray,
        LineSplit ((codeOnly s).drop M.start)) ∧
      ('\n' ∉ s → v.valid = false) := by
  obtain ⟨v, hv, hvalid, herrors⟩ := validate_ends s
  have hsplit : v.valid = true → ∀ r ∈ Legacy.rejections, ∀ M ∈ r.1.allMatches (codeOnly s).toArray,
      LineSplit ((codeOnly s).drop M.start) := by
    intro htrue r hr M hM
    by_contra hnot
    obtain ⟨q, hq, line, hline, hoccurs⟩ := (rejections_complained r hr).occursIn_line hM hnot
    obtain ⟨c, hc, e, he⟩ := exists_error_of_blocking hq hline hoccurs
    have herror := herrors c hc e he
    rw [hvalid, List.isEmpty_iff] at htrue
    rw [htrue] at herror
    cases herror
  refine ⟨v, hv, hsplit, ?_⟩
  intro hline
  obtain ⟨r, hr, M, hM⟩ := exists_match_of_rejected h
  by_contra htrue
  have hmem := (hsplit (by simpa using htrue) r hr M hM).newline_mem
  exact hline (newline_of_codeOnly (List.mem_of_mem_drop hmem))

theorem rejected_invalid_or_split_comment :
    (rejection "account.save // (\n(x)".toList).rejected = true ∧
      ∃ v, ({} : Standard).validate "account.save // (\n(x)".toList = .ok v ∧
        (v.valid = true → ∀ r ∈ Legacy.rejections, ∀ M ∈ r.1.allMatches
          (codeOnly "account.save // (\n(x)".toList).toArray,
            LineSplit ((codeOnly "account.save // (\n(x)".toList).drop M.start)) ∧
        ('\n' ∉ "account.save // (\n(x)".toList → v.valid = false) := by
  have hrejected : (rejection "account.save // (\n(x)".toList).rejected = true := by decide +kernel
  exact ⟨hrejected, rejected_invalid_or_split _ hrejected⟩

/-- The quick check rejects a keyword at the end of a line, and the full one lets it pass. -/
theorem rejected_keyword_passes :
    (rejection "pub\nvar a: Int;".toList).rejected = true ∧
      ∃ v, ({} : Standard).validate "pub\nvar a: Int;".toList = .ok v ∧ v.valid = true := by
  have hpasses : (({} : Standard).validate "pub\nvar a: Int;".toList).toOption.map (·.valid) = some true := by
    decide +kernel
  obtain ⟨v, hv, _⟩ := validate_ends "pub\nvar a: Int;".toList
  rw [hv] at hpasses
  exact ⟨by decide +kernel, v, hv, Option.some.inj hpasses⟩

end CadenceUplift
