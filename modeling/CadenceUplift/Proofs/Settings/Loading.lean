import CadenceUplift.Proofs.Text.Octets
import CadenceUplift.Settings.Load

namespace CadenceUplift

open Text (encodeUtf8 decodeUtf8)

/-- A text is read as a document or has not the form of one; octets of no text are refused, because they are none or
because what stands before has not the form of a document. -/
structure SettingsReader.Documented (reader : SettingsReader) : Prop where
  text (s : String) : (∃ v, reader.document (encodeUtf8 s) = .ok v) ∨
    reader.document (encodeUtf8 s) = .error (.document .malformed)
  octets {content : List UInt8} : (∀ s : String, encodeUtf8 s ≠ content) →
    (∃ e, reader.document content = .error (.decoding e)) ∨ reader.document content = .error (.document .malformed)

namespace Settings

/-- The failures to load settings that do not name the file. -/
inductive Escapes (reader : SettingsReader) (t : FileTree) (path : String) : SettingsError → Prop
  | notText {real : List String} {content : List UInt8} {e : Text.Utf8Error} :
      t.locate path = .found real (.file content) → (∀ s : String, encodeUtf8 s ≠ content) →
      reader.document content = .error (.decoding e) → Escapes reader t path (.decoding e)
  | keyNotText {real : List String} {entries : List (Value × Value)} {entry : Value × Value} (s : String) :
      t.locate path = .found real (.file (encodeUtf8 s)) → reader.document (encodeUtf8 s) = .ok (.object entries) →
      entry ∈ entries → entry.1.isText = false → Escapes reader t path .keyNotText

/-- The names of a mapping are given unless a key is no text. -/
theorem named?_eq_none_iff {entries : List (Value × Value)} :
    named? entries = none ↔ ∃ entry ∈ entries, entry.1.isText = false := by
  fun_induction named? entries with
  | case1 => simp
  | case2 name v rest ih => simpa [Value.isText] using ih
  | case3 entry rest hkey =>
    have hnot : entry.1.isText = false := by
      obtain ⟨key, v⟩ := entry
      cases key
      case text name => exact (hkey name v rfl).elim
      all_goals rfl
    simpa using .inl hnot

section Files

variable {reader : SettingsReader} {t : FileTree} {path : String} {real : List String} {content : List UInt8}

/-- A path that leads to no file is named. -/
theorem load_elsewhere (h : ∀ real content, t.locate path ≠ .found real (.file content)) :
    ∃ cause, load reader t path = .error (.configuration path cause) := by
  unfold load
  split
  next real content hlocate => exact absurd hlocate (h real content)
  next => exact ⟨_, rfl⟩
  next => exact ⟨_, rfl⟩

theorem load_undecodable {e : Text.Utf8Error} (hfile : t.locate path = .found real (.file content))
    (h : reader.document content = .error (.decoding e)) : load reader t path = .error (.decoding e) := by
  simp only [load, FileTree.readFile, hfile, h]

theorem load_malformed (hfile : t.locate path = .found real (.file content))
    (h : reader.document content = .error (.document .malformed)) :
    load reader t path = .error (.configuration path .malformed) := by
  simp only [load, FileTree.readFile, hfile, h]

theorem load_document {v : Value} (hfile : t.locate path = .found real (.file content))
    (h : reader.document content = .ok v) : load reader t path = ofDocument reader path v := by
  simp only [load, FileTree.readFile, hfile, h]

theorem ofDocument_keyNotText {entries : List (Value × Value)} {entry : Value × Value} (hentry : entry ∈ entries)
    (hkey : entry.1.isText = false) : ofDocument reader path (.object entries) = .error .keyNotText := by
  rw [ofDocument, named?_eq_none_iff.mpr ⟨entry, hentry, hkey⟩]

/-- A document gives settings or names the fault of the file, unless a key is no text. -/
theorem ofDocument_cases (reader : SettingsReader) (path : String) (v : Value) :
    (∃ s, ofDocument reader path v = .ok s) ∨ (∃ cause, ofDocument reader path v = .error (.configuration path cause)) ∨
      ofDocument reader path v = .error .keyNotText ∧
        ∃ entries, v = .object entries ∧ ∃ e ∈ entries, e.1.isText = false := by
  unfold ofDocument
  split
  next => exact .inr (.inl ⟨_, rfl⟩)
  next entries =>
    split
    next hkeys => exact .inr (.inr ⟨rfl, entries, rfl, named?_eq_none_iff.mp hkeys⟩)
    next named _ =>
      cases reader.construct named with
      | ok s => exact .inl ⟨s, rfl⟩
      | error issues => exact .inr (.inl ⟨.invalid issues, rfl⟩)
  next => exact .inr (.inl ⟨_, rfl⟩)

/-- A text in a file gives settings or names the fault of the file, unless a key is no text. -/
theorem load_text_cases (hreader : reader.Documented) {s : String}
    (hfile : t.locate path = .found real (.file (encodeUtf8 s))) :
    (∃ settings, load reader t path = .ok settings) ∨
      (∃ cause, load reader t path = .error (.configuration path cause)) ∨
      ∃ e, load reader t path = .error e ∧ Escapes reader t path e := by
  rcases hreader.text s with ⟨v, hv⟩ | hmalformed
  · rw [load_document hfile hv]
    rcases ofDocument_cases reader path v with hok | hcause | ⟨hkey, entries, rfl, entry, hentry, hnot⟩
    · exact .inl hok
    · exact .inr (.inl hcause)
    · exact .inr (.inr ⟨_, hkey, .keyNotText s hfile hv hentry hnot⟩)
  · exact .inr (.inl ⟨.malformed, load_malformed hfile hmalformed⟩)

theorem load_cases (hreader : reader.Documented) (t : FileTree) (path : String) :
    (∃ settings, load reader t path = .ok settings) ∨
      (∃ cause, load reader t path = .error (.configuration path cause)) ∨
      ∃ e, load reader t path = .error e ∧ Escapes reader t path e := by
  by_cases hfile : ∃ real content, t.locate path = .found real (.file content)
  · obtain ⟨real, content, hlocate⟩ := hfile
    by_cases htext : ∃ s : String, encodeUtf8 s = content
    · obtain ⟨s, rfl⟩ := htext
      exact load_text_cases hreader hlocate
    · have hnot := not_exists.mp htext
      rcases hreader.octets hnot with ⟨e, he⟩ | hmalformed
      · exact .inr (.inr ⟨_, load_undecodable hlocate he, .notText hlocate hnot he⟩)
      · exact .inr (.inl ⟨.malformed, load_malformed hlocate hmalformed⟩)
  · exact .inr (.inl (load_elsewhere fun real content hlocate => hfile ⟨real, content, hlocate⟩))

/-- A failure that escapes does not name the file, and it is what loading comes to. -/
theorem Escapes.load_eq {e : SettingsError} (h : Escapes reader t path e) :
    load reader t path = .error e ∧ ¬∃ p cause, e = .configuration p cause := by
  cases h with
  | notText hlocate _ hdocument => exact ⟨load_undecodable hlocate hdocument, by rintro ⟨_, _, ⟨⟩⟩⟩
  | keyNotText s hlocate hdocument hentry hnot =>
    refine ⟨?_, by rintro ⟨_, _, ⟨⟩⟩⟩
    rw [load_document hlocate hdocument]
    exact ofDocument_keyNotText hentry hnot

end Files

/-- At every path and with every content of the file there, loading gives settings or names the fault of the file,
unless a failure escapes: the octets are no text and are refused for that, or a key of the mapping is no text. Loading
ends with something else than settings and a fault of the file exactly then. -/
theorem load_outcomes {reader : SettingsReader} (hreader : reader.Documented) (t : FileTree) (path : String) :
    ((∃ settings, load reader t path = .ok settings) ∨
      (∃ cause, load reader t path = .error (.configuration path cause)) ∨ ∃ e, Escapes reader t path e) ∧
      ∀ e, Escapes reader t path e ↔ load reader t path = .error e ∧ ¬∃ p cause, e = .configuration p cause := by
  have hcases := load_cases hreader t path
  constructor
  · rcases hcases with hok | hcause | ⟨e, _, he⟩
    · exact .inl hok
    · exact .inr (.inl hcause)
    · exact .inr (.inr ⟨e, he⟩)
  · intro e
    refine ⟨Escapes.load_eq, ?_⟩
    rintro ⟨hload, hnot⟩
    rw [hload] at hcases
    rcases hcases with ⟨_, ⟨⟩⟩ | ⟨cause, hcause⟩ | ⟨e', he', hescapes⟩
    · exact absurd ⟨path, cause, Except.error.inj hcause⟩ hnot
    · cases he'
      exact hescapes

/-- The reader of YAML files, but a scalar that is not what its tag says makes a document malformed. -/
def strictReader : SettingsReader where
  document content :=
    match SettingsReader.yaml.document content with
    | .error (.document _) => .error (.document .malformed)
    | r => r
  construct := SettingsReader.yaml.construct

theorem strictReader_documented : strictReader.Documented where
  text s := by
    have hdecode : decodeUtf8 (encodeUtf8 s) = .ok s.toList := Text.decodeUtf8_encodeUtf8 s
    simp only [strictReader, SettingsReader.yaml, hdecode]
    cases Yaml.parse (Text.unifyNewlines s.toList) with
    | ok v => exact .inl ⟨v, rfl⟩
    | error e => exact .inr rfl
  octets {content} hnot := by
    cases hdecode : decodeUtf8 content with
    | error e => exact .inl ⟨e.inParts, by simp only [strictReader, SettingsReader.yaml, hdecode]⟩
    | ok s => exact absurd (Text.decodeUtf8_eq_ok_iff.mp hdecode) (hnot _)

/-- A tree with one file. -/
def treeOf (content : List UInt8) : FileTree :=
  { entries := [("c.yaml", .file content)], ordered := ⟨trivial, by simp, trivial⟩ }

theorem locate_treeOf (content : List UInt8) :
    (treeOf content).locate "c.yaml" = .found ["c.yaml"] (.file content) := by
  have hsteps : FileTree.steps "c.yaml" = ["c.yaml"] := by decide +kernel
  have horigin : FileTree.origin "c.yaml" [] = [] := by decide +kernel
  rw [FileTree.locate, if_neg (by decide), if_neg (by decide), if_neg (by decide), hsteps, treeOf, horigin]
  rfl

theorem load_invalid_start :
    load strictReader (treeOf [0xff]) "c.yaml" = .error (.decoding ⟨.invalidStart, 0, 1, 0xff⟩) := by
  have hdecode : decodeUtf8 [0xff] = .error ⟨.invalidStart, 0, 1, 0xff⟩ := by decide
  refine load_undecodable (locate_treeOf _) ?_
  simp only [strictReader, SettingsReader.yaml, hdecode]
  rfl

theorem load_outcomes_invalid_start :
    strictReader.Documented ∧
      Escapes strictReader (treeOf [0xff]) "c.yaml" (.decoding ⟨.invalidStart, 0, 1, 0xff⟩) := by
  refine ⟨strictReader_documented, ?_⟩
  exact ((load_outcomes strictReader_documented (treeOf [0xff]) "c.yaml").2 _).mpr
    ⟨load_invalid_start, by rintro ⟨_, _, ⟨⟩⟩⟩

/-- An octet that begins no character is neither loaded nor named as a fault of the file. -/
theorem load_escapes_invalid_start :
    strictReader.Documented ∧
      load strictReader (treeOf [0xff]) "c.yaml" = .error (.decoding ⟨.invalidStart, 0, 1, 0xff⟩) ∧
      ¬((∃ s, load strictReader (treeOf [0xff]) "c.yaml" = .ok s) ∨
        ∃ path cause, load strictReader (treeOf [0xff]) "c.yaml" = .error (.configuration path cause)) := by
  refine ⟨strictReader_documented, load_invalid_start, ?_⟩
  rw [load_invalid_start]
  rintro (⟨s, hs⟩ | ⟨path, cause, hcause⟩)
  · cases hs
  · cases hcause

end Settings

end CadenceUplift
