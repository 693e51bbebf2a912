import CadenceUplift.Legacy.Catalog
import CadenceUplift.Literal.Span
import CadenceUplift.Literal.Guess
import CadenceUplift.Pattern.Match
import CadenceUplift.Scan.Error

namespace CadenceUplift

/-- What happens to a match outside production code. -/
inductive Policy where
  /-- It is kept as a suggestion of low impact. -/
  | downgrade
  /-- It is dropped and counted. -/
  | discard
deriving DecidableEq, Repr, Inhabited

namespace Policy

def ofName : String → Except ScanError Policy
  | "downgrade" => .ok .downgrade
  | "discard" => .ok .discard
  | name => .error (.unknownPolicy name)

end Policy

/-- Where text that is not production code stands. -/
inductive Setting where
  | test
  | spec
  | documentation
  | example_
deriving DecidableEq, Repr, Inhabited

namespace Setting

def name : Setting → String
  | .test => "test"
  | .spec => "spec"
  | .documentation => "documentation"
  | .example_ => "example"

end Setting

/-- Fragments of paths that hold tests. -/
def testMarkers : List String := ["__tests__", ".test.", ".spec.", "/tests/", "/test/"]

/-- Fragments of paths that hold specifications. -/
def specMarkers : List String := [".kiro/specs", "/specs/"]

/-- Fragments of paths that hold documentation. -/
def documentationMarkers : List String := ["/docs/"]

/-- One of the fragments occurs in a text. -/
def hasFragment (s : String) (fragments : List String) : Bool :=
  fragments.any fun f => Text.hasText s.toList f.toList

theorem hasFragment_iff {s : String} {fragments : List String} :
    hasFragment s fragments = true ↔ ∃ f ∈ fragments, f.toList <:+: s.toList := by
  simp only [hasFragment, List.any_eq_true, Text.hasText_iff]

theorem hasFragment_eq_false_iff {s : String} {fragments : List String} :
    hasFragment s fragments = false ↔ ∀ f ∈ fragments, ¬f.toList <:+: s.toList := by
  simp [← Bool.not_eq_true, hasFragment_iff]

def endsIn (s ending : String) : Bool := Text.endsWith s.toList ending.toList

/-- The setting that a path tells of. -/
def pathSetting (path : String) : Option Setting :=
  let anchored := "/" ++ path
  if hasFragment anchored testMarkers then some .test
  else if hasFragment anchored specMarkers then some .spec
  else if endsIn path ".md" || hasFragment anchored documentationMarkers then some .documentation
  else none

/-- A guess at the setting of a place on a line, for files in other languages. -/
def lineSetting (line : List Char) (index : Nat) : Option Setting :=
  if Guess.inComment line index || Guess.inString line index Guess.quoteChars then some .example_
  else if Legacy.documentationLines.any (·.occursIn line) then some .documentation
  else none

def exampleFix : String := "Consider if this example is still needed or should be updated"

/-- The finding of a detector at a place; outside production code it is a suggestion of low impact. -/
def Legacy.Detector.finding (d : Legacy.Detector) (matched : String) (site : Site) :
    Option Setting → Finding
  | none => ⟨d.construct, matched, site, d.severity, d.description, d.suggestedFix, d.impact⟩
  | some setting =>
    ⟨d.construct, matched, site, .suggestion, d.description ++ " (in " ++ setting.name ++ " context)",
      exampleFix, .low⟩

namespace Legacy.Detector

variable (d : Legacy.Detector) (matched : String) (site : Site) (setting : Option Setting)

@[simp] theorem construct_finding : (d.finding matched site setting).construct = d.construct := by
  cases setting <;> rfl

@[simp] theorem matched_finding : (d.finding matched site setting).matched = matched := by
  cases setting <;> rfl

@[simp] theorem site_finding : (d.finding matched site setting).site = site := by
  cases setting <;> rfl

end Legacy.Detector

def contextRadius : Nat := 1

/-- A match with the setting it was found in. -/
structure Sighting where
  finding : Finding
  setting : Option Setting
deriving DecidableEq, Repr, Inhabited

/-- What is known about a text while it is scanned. -/
structure Subject where
  path : String
  chars : Array Char
  lines : List (List Char)
  starts : Array Nat
  literals : LiteralIndex
  isCadence : Bool
deriving Repr, Inhabited

/-- Prepares a text for scanning; without a word on its language the path decides. -/
def Subject.ofText (s : List Char) (path : String) (isCadence : Option Bool) : Subject :=
  let cadence := isCadence.getD (endsIn path ".cdc")
  { path := path
    chars := s.toArray
    lines := Text.lines s
    starts := (Text.lineOffsets s).toArray
    literals := if cadence then literalIndex s else .ofList []
    isCadence := cadence }

/-- The setting of a match, by its path first and by its place in the text second. -/
def Subject.setting (x : Subject) (m : Match) : Option Setting :=
  match pathSetting x.path with
  | some s => some s
  | none =>
    if x.isCadence then if x.literals.covers m.start then some .example_ else none
    else
      let p := Text.positionAt x.starts m.start
      lineSetting (x.lines.getD (p.line - 1) []) (p.column - 1)

/-- In a file of the language a match is judged by its path first and by the literals second. -/
theorem Subject.setting_ofText {s : List Char} {path : String} {isCadence : Option Bool}
    (h : isCadence.getD (endsIn path ".cdc") = true) (m : Match) :
    (Subject.ofText s path isCadence).setting m =
      (pathSetting path).or (if (literalIndex s).covers m.start then some .example_ else none) := by
  simp only [setting, ofText, h, if_true]
  cases pathSetting path <;> rfl

def Subject.sighting (x : Subject) (d : Legacy.Detector) (m : Match) : Sighting :=
  let p := Text.positionAt x.starts m.start
  let context := Text.surroundings x.lines (p.line - 1) contextRadius
  let site : Site := ⟨x.path, p.line, p.column, String.ofList context⟩
  let setting := x.setting m
  ⟨d.finding (String.ofList (m.text x.chars)) site setting, setting⟩

/-- All sightings of the catalog in a text, in the order of the catalog and then of the text. -/
def Subject.sightings (x : Subject) : List Sighting :=
  Legacy.detectors.flatMap fun d => (d.pattern.allMatches x.chars).map (x.sighting d)

/-- The findings of one text, and how many matches were dropped. -/
structure TextScan where
  findings : List Finding
  suppressed : Nat
deriving DecidableEq, Repr, Inhabited

/-- Keeps or drops sightings as a policy says. -/
def Policy.select (p : Policy) (ss : List Sighting) : TextScan :=
  match p with
  | .downgrade => ⟨ss.map (·.finding), 0⟩
  | .discard =>
    ⟨(ss.filter (·.setting.isNone)).map (·.finding), (ss.filter (·.setting.isSome)).length⟩

/-- Scans one text. -/
def scanText (policy : Policy) (s : List Char) (path : String) (isCadence : Option Bool) : TextScan :=
  policy.select (Subject.ofText s path isCadence).sightings

/-- A finding of a text is that of some detector at one of its matches, in production code if the policy says so. -/
theorem exists_of_mem_scanText {policy : Policy} {s : List Char} {path : String} {isCadence : Option Bool} {f : Finding}
    (h : f ∈ (scanText policy s path isCadence).findings) :
    ∃ d ∈ Legacy.detectors, ∃ m ∈ d.pattern.allMatches s.toArray,
      f = ((Subject.ofText s path isCadence).sighting d m).finding ∧
      (policy = .discard → (Subject.ofText s path isCadence).setting m = none) := by
  have hsighting : ∀ y ∈ (Subject.ofText s path isCadence).sightings, ∃ d ∈ Legacy.detectors,
      ∃ m ∈ d.pattern.allMatches s.toArray, y = (Subject.ofText s path isCadence).sighting d m := by
    intro y hy
    obtain ⟨d, hd, hmatch⟩ := List.mem_flatMap.mp hy
    obtain ⟨m, hm, rfl⟩ := List.mem_map.mp hmatch
    exact ⟨d, hd, m, hm, rfl⟩
  cases policy with
  | downgrade =>
    obtain ⟨y, hy, rfl⟩ := List.mem_map.mp h
    obtain ⟨d, hd, m, hm, rfl⟩ := hsighting y hy
    exact ⟨d, hd, m, hm, rfl, fun hpolicy => nomatch hpolicy⟩
  | discard =>
    obtain ⟨y, hy, rfl⟩ := List.mem_map.mp h
    obtain ⟨hy, hsetting⟩ := List.mem_filter.mp hy
    obtain ⟨d, hd, m, hm, rfl⟩ := hsighting y hy
    exact ⟨d, hd, m, hm, rfl, fun _ => Option.isNone_iff_eq_none.mp hsetting⟩

end CadenceUplift
