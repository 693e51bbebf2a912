import CadenceUplift.Scan.Content
import CadenceUplift.Proofs.Literal.Reader
import CadenceUplift.Proofs.Pattern.Extent
import CadenceUplift.Proofs.Text.Position

namespace CadenceUplift

open Text

/-- The lines from one number to another, both included; lines are numbered from 1. -/
def linesFromTo (ls : List (List Char)) (first last : Nat) : List (List Char) := (ls.take last).drop (first - 1)

/-- A finding at an offset of a text: it gives the position of the offset, the matched text stands there, and the context
is the line of the position with its two neighbours, as far as they exist. -/
structure Finding.LocatedAt (f : Finding) (s : List Char) (p : Position) (offset : Nat) : Prop where
  line : f.site.line = p.line
  column : f.site.column = p.column
  position : p.Of s offset
  matched : (s.drop offset).take f.matched.length = f.matched.toList
  context : f.site.context.toList =
    ['\n'].intercalate (linesFromTo (lines s) (max 1 (p.line - 1)) (min (lines s).length (p.line + 1)))

/-- A finding that reports a match of a detector as the catalog has it. -/
structure Finding.Reports (f : Finding) (s : List Char) (path : String) (d : Legacy.Detector) (m : Match) : Prop where
  construct : f.construct = d.construct
  severity : f.severity = d.severity
  impact : f.impact = d.impact
  description : f.description = d.description
  suggestedFix : f.suggestedFix = d.suggestedFix
  file : f.site.file = path
  matched : f.matched.toList = (s.take m.stop).drop m.start
  located : ∃ p, f.LocatedAt s p m.start

/-- The matches of the catalog that start in no comment or string, in the order of the catalog and then of the text. -/
def codeMatches (s : List Char) : List (Legacy.Detector × Match) :=
  Legacy.detectors.flatMap fun d =>
    ((d.pattern.allMatches s.toArray).filter fun m => ¬Covered m.start (literals s)).map fun m => (d, m)

theorem unlines_eq_intercalate (ls : List (List Char)) : unlines ls = ['\n'].intercalate ls := by
  rw [unlines]
  fun_induction join ['\n'] ls with
  | case1 => rfl
  | case2 l => simp
  | case3 l rest hne ih =>
    obtain ⟨l', rest, rfl⟩ := List.exists_cons_of_ne_nil hne
    rw [ih]
    simp

/-- The context of a line that exists. -/
theorem surroundings_eq (ls : List (List Char)) {line : Nat} (hline : 1 ≤ line) :
    surroundings ls (line - 1) contextRadius =
      ['\n'].intercalate (linesFromTo ls (max 1 (line - 1)) (min ls.length (line + 1))) := by
  have hlast : line - 1 + contextRadius + 1 = line + 1 := by
    rw [contextRadius]
    omega
  have hfirst : line - 1 - contextRadius = max 1 (line - 1) - 1 := by
    rw [contextRadius]
    omega
  have hmin : ls.take (min ls.length (line + 1)) = ls.take (line + 1) := by
    rw [Nat.min_comm]
    exact List.take_eq_take_min.symm
  rw [surroundings, unlines_eq_intercalate, linesFromTo, hlast, hfirst, hmin]

section Matches

variable {s : List Char} {path : String} {isCadence : Option Bool} {d : Legacy.Detector} {m : Match}

theorem text_toArray : m.text s.toArray = (s.take m.stop).drop m.start := by
  simp [Match.text, List.drop_take]

theorem take_length_text : (s.drop m.start).take (m.text s.toArray).length = m.text s.toArray := by
  simp [Match.text]

/-- Whatever a match is taken for, its finding says where it is. -/
theorem locatedAt_sighting (hm : m.Within s.toArray) :
    ∃ p, ((Subject.ofText s path isCadence).sighting d m).finding.LocatedAt s p m.start := by
  have hstart : m.start ≤ s.length := Nat.le_trans hm.start_le hm.stop_le
  have hposition := positionAt_of hstart
  have hcontext := surroundings_eq (lines s) hposition.line_pos
  refine ⟨_, ?_, ?_, hposition, ?_, ?_⟩
  · rw [Subject.sighting, d.site_finding]
    rfl
  · rw [Subject.sighting, d.site_finding]
    rfl
  · rw [Subject.sighting, d.matched_finding, String.length_ofList, String.toList_ofList]
    exact take_length_text
  · rw [Subject.sighting, d.site_finding, String.toList_ofList]
    exact hcontext

/-- In a file of the language whose path tells nothing, a match is in production code unless a literal has its start. -/
theorem setting_eq_none_iff (hcadence : isCadence.getD (endsIn path ".cdc") = true) :
    (Subject.ofText s path isCadence).setting m = none ↔ pathSetting path = none ∧ ¬Covered m.start (literals s) := by
  rw [Subject.setting_ofText hcadence, Option.or_eq_none_iff, ← covers_literalIndex_iff]
  cases (literalIndex s).covers m.start <;> simp

theorem reports_sighting (hm : m.Within s.toArray) (hsetting : (Subject.ofText s path isCadence).setting m = none) :
    ((Subject.ofText s path isCadence).sighting d m).finding.Reports s path d m := by
  obtain ⟨p, hlocated⟩ : ∃ p, ((Subject.ofText s path isCadence).sighting d m).finding.LocatedAt s p m.start :=
    locatedAt_sighting hm
  have hmatched : (String.ofList (m.text s.toArray)).toList = (s.take m.stop).drop m.start := by
    rw [String.toList_ofList, text_toArray]
  simp only [Subject.sighting, hsetting] at hlocated ⊢
  exact ⟨rfl, rfl, rfl, rfl, rfl, rfl, hmatched, p, hlocated⟩

/-- What is kept of a text when everything outside production code is dropped. -/
theorem findings_discard (hcadence : isCadence.getD (endsIn path ".cdc") = true) (hpath : pathSetting path = none) :
    (scanText .discard s path isCadence).findings =
      (codeMatches s).map fun x => ((Subject.ofText s path isCadence).sighting x.1 x.2).finding := by
  have houtside : ∀ d ∈ Legacy.detectors,
      (((d.pattern.allMatches s.toArray).map ((Subject.ofText s path isCadence).sighting d)).filter
          (·.setting.isNone)).map (·.finding) =
        (((d.pattern.allMatches s.toArray).filter fun m => ¬Covered m.start (literals s)).map fun m => (d, m)).map
          fun x => ((Subject.ofText s path isCadence).sighting x.1 x.2).finding := by
    intro d _
    rw [List.filter_map, List.map_map, List.map_map]
    refine congrArg₂ List.map rfl (List.filter_congr ?_)
    intro m _
    have hsetting := setting_eq_none_iff (s := s) (m := m) hcadence
    rw [Bool.eq_iff_iff, decide_eq_true_iff]
    exact Option.isNone_iff_eq_none.trans (hsetting.trans (and_iff_right hpath))
  rw [scanText, Policy.select, Subject.sightings, List.filter_flatMap, List.map_flatMap, codeMatches,
    List.map_flatMap]
  exact List.flatMap_congr houtside

theorem within_of_mem_codeMatches {x : Legacy.Detector × Match} (h : x ∈ codeMatches s) :
    x.2.Within s.toArray ∧ ¬Covered x.2.start (literals s) := by
  obtain ⟨d, _, hx⟩ := List.mem_flatMap.mp h
  obtain ⟨m, hm, rfl⟩ := List.mem_map.mp hx
  obtain ⟨hm, houtside⟩ := List.mem_filter.mp hm
  exact ⟨(Pattern.isMatch_of_mem_allMatches hm).within, of_decide_eq_true houtside⟩

end Matches

/-- Every finding of a text is located in it: the matched text stands at its line and column, and its context is that
line with its neighbours. In a file of the language whose path tells nothing, a scan that drops what is not production
code reports the matches of the catalog that start in no comment or string, all of them and in order. -/
theorem findings_located (policy : Policy) (s : List Char) (path : String) (isCadence : Option Bool) :
    (∀ f ∈ (scanText policy s path isCadence).findings, ∃ p offset, f.LocatedAt s p offset) ∧
      (policy = .discard → isCadence.getD (endsIn path ".cdc") = true → pathSetting path = none →
        List.Forall₂ (fun f x => f.Reports s path x.1 x.2) (scanText policy s path isCadence).findings
          (codeMatches s)) := by
  constructor
  · intro f hf
    obtain ⟨d, _, m, hm, rfl, _⟩ := exists_of_mem_scanText hf
    obtain ⟨p, hp⟩ := locatedAt_sighting (Pattern.isMatch_of_mem_allMatches hm).within
    exact ⟨p, m.start, hp⟩
  · rintro rfl hcadence hpath
    rw [findings_discard hcadence hpath, List.forall₂_map_left_iff, List.forall₂_same]
    intro x hx
    obtain ⟨hwithin, houtside⟩ := within_of_mem_codeMatches hx
    exact reports_sighting hwithin ((setting_eq_none_iff hcadence).mpr ⟨hpath, houtside⟩)

/-- A construct in a comment, and the same behind it. -/
theorem findings_located_behind_comment :
    let s := "// pub var\npub var".toList
    (none : Option Bool).getD (endsIn "a.cdc" ".cdc") = true ∧ pathSetting "a.cdc" = none ∧
      (codeMatches s).map (fun x => (x.2.start, x.2.stop)) = [(11, 15)] ∧
      List.Forall₂ (fun f x => f.Reports s "a.cdc" x.1 x.2) (scanText .discard s "a.cdc" none).findings
        (codeMatches s) := by
  intro s
  have hcadence : (none : Option Bool).getD (endsIn "a.cdc" ".cdc") = true := by decide +kernel
  have hpath : pathSetting "a.cdc" = none := by decide +kernel
  exact ⟨hcadence, hpath, by decide +kernel, (findings_located .discard s "a.cdc" none).2 rfl hcadence hpath⟩

end CadenceUplift
