import CadenceUplift.CommandLine.Run
import CadenceUplift.Proofs.File.Access
import CadenceUplift.Proofs.Text.Newlines
import CadenceUplift.Proofs.Uplift.Characters
import CadenceUplift.Proofs.Uplift.Frame

namespace CadenceUplift

open Text

/-- A line of a file with the text around it, as they are read: a newline for what ends the line. -/
def Excerpt.ofLine (front line ending back : List Char) : Excerpt :=
  ⟨unifyNewlines front, line ++ (if ending = [] then [] else ['\n']), unifyNewlines back⟩

theorem Excerpt.text_ofLine {raw front line ending back : List Char} (h : LineOf raw front line ending back) :
    (Excerpt.ofLine front line ending back).text = unifyNewlines raw := by
  rw [h.unifyNewlines_eq, h.unifyNewlines_ending]
  rfl

theorem encodeUtf8_append (a b : List Char) :
    encodeUtf8 (String.ofList (a ++ b)) = encodeUtf8 (String.ofList a) ++ encodeUtf8 (String.ofList b) := by
  rw [encodeUtf8_ofList, encodeUtf8_ofList, encodeUtf8_ofList, List.flatMap_append]

section Command

variable [CharacterNames] {t : FileTree} {file : String} {real : List String} {raw : List Char} {u : Uplifted}

theorem ruleSet_default : ({} : Settings).ruleSet = .ok {} := by
  rw [Settings.ruleSet]
  exact defaults_usable

/-- A file that the starting rules leave as it was read is not written. -/
theorem upliftCommand_same (hfile : t.locate file = .found real (.file (encodeUtf8 (String.ofList raw))))
    (hu : ({} : RuleSet).uplift (unifyNewlines raw) = .ok u) (hsame : u.text = unifyNewlines raw) :
    ∃ result, upliftCommand file true {} t = .ok result ∧ result.exitCode = 0 ∧ result.tree = t := by
  unfold upliftCommand
  rw [FileTree.readText_of_file hfile, ruleSet_default]
  simp only [Except.mapError, bind, Except.bind, hu, hsame, ↓reduceIte, pure, Except.pure]
  exact ⟨_, rfl, rfl, rfl⟩

/-- Any other is written with the uplifted text. -/
theorem upliftCommand_changed (hfile : t.locate file = .found real (.file (encodeUtf8 (String.ofList raw))))
    (hu : ({} : RuleSet).uplift (unifyNewlines raw) = .ok u) (hne : u.text ≠ unifyNewlines raw)
    (hraw : ∀ c ∈ raw, isHalf c = false) :
    ∃ result, upliftCommand file true {} t = .ok result ∧ result.exitCode = 0 ∧
      result.tree = t.setNode real (.file (encodeUtf8 (String.ofList u.text))) := by
  have hread : ∀ c ∈ unifyNewlines raw, isHalf c = false := by
    intro c hc
    rcases mem_of_unifyNewlines hc with hc | rfl
    · exact hraw c hc
    · decide
  have hwrite := FileTree.writeText_of_file hfile (isHalf_uplift hu hread)
  unfold upliftCommand
  rw [FileTree.readText_of_file hfile, ruleSet_default]
  simp only [Except.mapError, bind, Except.bind, hu, hne, ↓reduceIte, hwrite]
  exact ⟨_, rfl, rfl, rfl⟩

/-- Without a settings file, a command is run under the default settings. -/
theorem Invocation.run_default {i : Invocation} (reader : SettingsReader) {now : String} {result : CommandResult}
    (hconfig : i.config = none) (h : i.command.run {} t now = .ok result) : i.run reader none t now = .ok result := by
  have hsettings : Settings.resolve reader t i.config none = .ok {} := by
    rw [hconfig]
    rfl
  simp only [run, hsettings, Except.mapError, bind, Except.bind, h]

end Command

/-- The starting rules replace nothing in a text exactly if they leave it as it is. -/
theorem total_zero_iff [CharacterNames] {s : List Char} {u : Uplifted} (h : ({} : RuleSet).uplift s = .ok u) :
    u.total = 0 ↔ u.text = s := by
  constructor
  · exact text_of_total_zero h
  · intro hsame
    rw [Uplifted.total, counts_zero_of_same h hsame]
    rfl

/-- In place and under the default settings, a file in which nothing is replaced stays as it is, and one in which
something is replaced is written. A line that no match of a rule enters in the rule's turn keeps its characters,
between what the rules make of the text before it and behind it, and is ended by a newline, unless the text ends there;
so its octets stay as they were if it was ended so. -/
theorem transform_keeps_lines [CharacterNames] {t : FileTree} {file : String} {real : List String}
    {raw : List Char} {i : Invocation}
    (hfile : t.locate file = .found real (.file (encodeUtf8 (String.ofList raw))))
    (hcommand : i.command = .transform file true) (hconfig : i.config = none) (reader : SettingsReader) (now : String) :
    ∃ u, ({} : RuleSet).uplift (unifyNewlines raw) = .ok u ∧
      (u.total = 0 → ∃ result, i.run reader none t now = .ok result ∧ result.exitCode = 0 ∧ result.tree = t) ∧
      (0 < u.total → u.text ≠ unifyNewlines raw ∧ '\r' ∉ u.text ∧ ((∀ c ∈ raw, isHalf c = false) →
        ∃ result, i.run reader none t now = .ok result ∧ result.exitCode = 0 ∧
          result.tree = t.setNode real (.file (encodeUtf8 (String.ofList u.text))))) ∧
      ∀ front line ending back, LineOf raw front line ending back →
        ¬Touched true (({} : RuleSet).inOrder Category.ordered) (.ofLine front line ending back) →
        ∃ e, Spared true (({} : RuleSet).inOrder Category.ordered) (.ofLine front line ending back) e ∧
          e.line = line ++ (if ending = [] then [] else ['\n']) ∧ u.text = e.text ∧
          encodeUtf8 (String.ofList u.text) = encodeUtf8 (String.ofList e.front) ++
            (encodeUtf8 (String.ofList e.line) ++ encodeUtf8 (String.ofList e.back)) := by
  have hu := uplift_eq {} (unifyNewlines raw)
  have hrun {result : CommandResult} (h : upliftCommand file true {} t = .ok result) :
      i.run reader none t now = .ok result := by
    refine Invocation.run_default reader hconfig ?_
    rw [hcommand]
    exact h
  refine ⟨_, hu, ?_, ?_, ?_⟩
  · intro hzero
    obtain ⟨result, hresult, hexit, htree⟩ := upliftCommand_same hfile hu ((total_zero_iff hu).mp hzero)
    exact ⟨result, hrun hresult, hexit, htree⟩
  · intro hpos
    have hne := mt (total_zero_iff hu).mpr (Nat.ne_of_gt hpos)
    refine ⟨hne, ?_, fun hraw => ?_⟩
    · intro hreturn
      rcases mem_uplift hu hreturn with hmem | hprintable
      · exact return_not_mem_unifyNewlines raw hmem
      · exact absurd hprintable (by decide)
    obtain ⟨result, hresult, hexit, htree⟩ := upliftCommand_changed hfile hu hne hraw
    exact ⟨result, hrun hresult, hexit, htree⟩
  · intro front line ending back hline huntouched
    rw [← Excerpt.text_ofLine hline] at hu ⊢
    obtain ⟨e, hspared, htext⟩ := uplift_spared_of_untouched hu huntouched
    refine ⟨e, hspared, hspared.line, htext, ?_⟩
    rw [htext, Excerpt.text, encodeUtf8_append, encodeUtf8_append]

/-- A tree of one file. -/
def oneFile (content : List Char) : FileTree :=
  { entries := [("a.cdc", .file (encodeUtf8 (String.ofList content)))], ordered := ⟨trivial, by simp, trivial⟩ }

/-- The call that uplifts the file in place. -/
def inPlaceCall : Invocation := { command := .transform "a.cdc" true }

theorem locate_oneFile (content : List Char) :
    (oneFile content).locate "a.cdc" = .found ["a.cdc"] (.file (encodeUtf8 (String.ofList content))) := by
  have hsteps : FileTree.steps "a.cdc" = ["a.cdc"] := by decide +kernel
  have horigin : FileTree.origin "a.cdc" [] = [] := by decide +kernel
  rw [FileTree.locate, if_neg (by decide), if_neg (by decide), if_neg (by decide), hsteps, oneFile, horigin]
  rfl

theorem setNode_oneFile (content new : List Char) :
    (oneFile content).setNode ["a.cdc"] (.file (encodeUtf8 (String.ofList new))) = oneFile new := by
  simp [oneFile, FileTree.setNode, Node.setAt, Node.setEntry]

theorem clean_line : ∀ c ∈ "let x = 1".toList, c ≠ '\n' ∧ c ≠ '\r' := by simp

/-- The starting rules spare the first of two lines and rewrite the second. -/
theorem spared_pub [CharacterNames] :
    Spared true (({} : RuleSet).inOrder Category.ordered) ⟨[], "let x = 1\n".toList, "pub var a: Int".toList⟩
      ⟨[], "let x = 1\n".toList, "access(all) var a: Int".toList⟩ := by
  have hrules := inOrder_realize (r := {}) defaults_realize Category.ordered
  rw [stepsOfAll_ordered] at hrules
  exact spared_of_spareAll? hrules (by decide +kernel)

theorem text_of_uplift_pub [CharacterNames] {u : Uplifted}
    (h : ({} : RuleSet).uplift "let x = 1\npub var a: Int".toList = .ok u) :
    u.text = "let x = 1\naccess(all) var a: Int".toList :=
  uplift_text_of_spared (r := {}) (e := ⟨[], "let x = 1\n".toList, "pub var a: Int".toList⟩) h spared_pub

theorem transform_keeps_lines_pub :
    ∃ u, ({} : RuleSet).uplift "let x = 1\npub var a: Int".toList = .ok u ∧ 0 < u.total ∧
      (∃ result, inPlaceCall.run .yaml none (oneFile "let x = 1\npub var a: Int".toList) "" = .ok result ∧
        result.tree = oneFile u.text) ∧
      ∃ e : Excerpt, e.line = "let x = 1\n".toList ∧ u.text = e.text := by
  obtain ⟨u, hu, _, hwritten, hlines⟩ :=
    transform_keeps_lines (locate_oneFile "let x = 1\npub var a: Int".toList) (i := inPlaceCall) rfl rfl .yaml ""
  have hread : unifyNewlines "let x = 1\npub var a: Int".toList = "let x = 1\npub var a: Int".toList := by decide
  rw [hread] at hu
  have hchanged : u.text ≠ "let x = 1\npub var a: Int".toList := by
    rw [text_of_uplift_pub hu]
    decide
  have htotal : 0 < u.total := Nat.pos_of_ne_zero (mt (total_zero_iff hu).mp hchanged)
  obtain ⟨_, _, hresult⟩ := hwritten htotal
  obtain ⟨result, hrun, _, htree⟩ := hresult (by simp [isHalf, half?])
  have hline : LineOf "let x = 1\npub var a: Int".toList [] "let x = 1".toList ['\n'] "pub var a: Int".toList :=
    ⟨by decide, .inl rfl, clean_line, .inl rfl⟩
  obtain ⟨e, _, heline, htext, _⟩ := hlines _ _ _ _ hline spared_pub.not_touched
  exact ⟨u, hu, htotal, ⟨result, hrun, htree.trans (setNode_oneFile _ _)⟩, e, heline, htext⟩

/-- A line that no match enters is not kept where a return and a newline end it. -/
theorem line_end_not_kept :
    LineOf "let x = 1\r\npub var a: Int".toList [] "let x = 1".toList ['\r', '\n'] "pub var a: Int".toList ∧
      ¬Touched true (({} : RuleSet).inOrder Category.ordered)
        (.ofLine [] "let x = 1".toList ['\r', '\n'] "pub var a: Int".toList) ∧
      (∃ result, inPlaceCall.run .yaml none (oneFile "let x = 1\r\npub var a: Int".toList) "" = .ok result ∧
        result.tree = oneFile "let x = 1\naccess(all) var a: Int".toList) ∧
      ¬encodeUtf8 "let x = 1\r\n" <:+: encodeUtf8 "let x = 1\naccess(all) var a: Int" := by
  refine ⟨⟨by decide, .inl rfl, clean_line, .inr (.inl rfl)⟩, spared_pub.not_touched, ?_,
    by decide +kernel⟩
  have hread : unifyNewlines "let x = 1\r\npub var a: Int".toList = "let x = 1\npub var a: Int".toList := by decide
  obtain ⟨u, hu⟩ : ∃ u, ({} : RuleSet).uplift "let x = 1\npub var a: Int".toList = .ok u := ⟨_, uplift_eq {} _⟩
  have htext := text_of_uplift_pub hu
  rw [← hread] at hu
  obtain ⟨result, hresult, _, htree⟩ := upliftCommand_changed (locate_oneFile _) hu (by rw [htext, hread]; decide)
    (by simp [isHalf, half?])
  refine ⟨result, Invocation.run_default (i := inPlaceCall) .yaml rfl hresult, ?_⟩
  rw [htree, setNode_oneFile, htext]

end CadenceUplift
