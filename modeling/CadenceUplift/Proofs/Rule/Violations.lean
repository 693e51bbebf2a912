import CadenceUplift.Proofs.Text.Lines
import CadenceUplift.Proofs.Uplift.Failures
import Mathlib.Data.List.Basic

namespace CadenceUplift

/-- The value is a text or is not given. -/
def Value.Written (v : Value) : Prop := v = .null ∨ ∃ s, v = .text s

namespace Rule

/-- The parts of the rule that a check reads are texts or are not given. -/
structure Written (r : Rule) : Prop where
  pattern : r.pattern.Written
  description : r.description.Written
  category : r.category.Written

/-- The rule has all that it needs by itself. -/
structure Fit [CharacterNames] (r : Rule) : Prop where
  pattern : isMissing r.pattern = false
  compiles : ∃ p, r.compile = .ok p
  replacement : r.replacement.isMissing = false
  description : isMissing r.description = false
  category : isCategory r.category = true

/-- Reading the pattern ends with a fault that does not lie in its form, and the check with it. -/
def Stops [CharacterNames] (r : Rule) (e : PatternError) : Prop := r.compile = .error
    (.pattern e) ∧ e.fault.isFormal = false

/-- The parts that a rule has to have, and whether they are missing. -/
def parts (r : Rule) : List (String × Bool) :=
  [("pattern", CadenceUplift.isMissing r.pattern), ("replacement", r.replacement.isMissing),
    ("description", CadenceUplift.isMissing r.description), ("category", CadenceUplift.isMissing r.category)]

/-- The entry for a part that is missing. -/
def missingEntry (index : Nat) (part : String) : String := violationLead index ++ part ++ " is required"

/-- The entry for a category of another name. -/
def categoryEntry (index : Nat) : String := violationLead index ++ "category must be one of " ++ Category.names

/-- The entry for a pattern that is wrong in form. -/
def patternEntry (index : Nat) (e : PatternError) : String :=
  violationLead index ++ "pattern is not a valid regular expression (" ++ e.message ++ ")"

/-- The entry for the pattern of a rule, if it has a fault. -/
def patternEntries [CharacterNames] (index : Nat) (r : Rule) : List String :=
  match r.compile with
  | .error (.pattern e) => [patternEntry index e]
  | _ => []

/-- What the text before the number of the first rule with a description says. -/
def duplicateLead (index : Nat) : String := violationLead index ++ "description duplicates rule "

/-- The entry for a description that an earlier rule has. -/
def duplicateEntry (index first : Nat) (d : String) : String :=
  duplicateLead index ++ toString first ++ " ('" ++ d ++ "')"

/-- The entry says of the rule of the given number that an earlier one has its description. -/
def tellsDuplicate (index : Nat) (entry : String) : Bool := (duplicateLead index).toList.isPrefixOf entry.toList

/-- The entries of a rule by itself. -/
def entries [CharacterNames] (index : Nat) (r : Rule) : List String :=
  r.missingParts.map (missingEntry index) ++
    (if r.category.truthy && !isCategory r.category then [categoryEntry index] else []) ++ r.patternEntries index

end Rule

section OneRule

variable {r : Rule} {v : Value} {index : Nat}

theorem Value.Written.of_isText (h : v.isText = true) : v.Written := by
  cases v with
  | text s => exact .inr ⟨s, rfl⟩
  | _ => cases h

theorem Value.Written.missing_of_not_truthy (h : v.Written) (hnot : v.truthy = false) : isMissing v = true := by
  obtain rfl | ⟨s, rfl⟩ := h
  · rfl
  · obtain rfl : s = "" := by simpa [Value.truthy] using hnot
    rfl

theorem Value.Written.same_text (h : v.Written) (s : String) : v.same (.text s) = true ↔ v = .text s := by
  obtain rfl | ⟨u, rfl⟩ := h
  · simp [Value.same, Value.sameNumber, Value.quotient?]
  · simp [Value.same]

theorem Rule.missingParts_eq (r : Rule) : r.missingParts = (r.parts.filter (·.2)).map (·.1) := by
  simp only [missingParts, parts, List.filter_cons, List.filter_nil]
  cases CadenceUplift.isMissing r.pattern <;> cases r.replacement.isMissing <;>
    cases CadenceUplift.isMissing r.description <;> cases CadenceUplift.isMissing r.category <;> rfl

theorem Rule.mem_missingParts_iff (r : Rule) (part : String) : part ∈ r.missingParts ↔ (part, true) ∈ r.parts := by
  rw [missingParts_eq, List.mem_map]
  constructor
  · rintro ⟨⟨name, missing⟩, hmem, rfl⟩
    obtain ⟨hmem, rfl : missing = true⟩ := List.mem_filter.mp hmem
    exact hmem
  · intro hmem
    exact ⟨(part, true), List.mem_filter.mpr ⟨hmem, rfl⟩, rfl⟩

theorem Rule.mem_names_of_missing {part : String} (h : part ∈ r.missingParts) :
    part ∈ ["pattern", "replacement", "description", "category"] :=
  List.mem_map_of_mem (f := (·.1)) ((r.mem_missingParts_iff part).mp h)

theorem parse_empty [CharacterNames] : Pattern.parse "" = .ok ⟨.empty, 0, []⟩ :=
  Pattern.parse_eq_ok rfl (by decide +kernel)

theorem Rule.patternViolations_of_reads [CharacterNames] (hpattern : r.pattern.Written) (hreads : ∀ e, ¬r.Stops e) :
    r.patternViolations index = .ok (r.patternEntries index) := by
  obtain hnull | ⟨source, htext⟩ := hpattern
  · simp [patternViolations, patternEntries, compile, hnull, Value.truthy]
  · have hcompile : r.compile = (Pattern.parse source).mapError .pattern := by rw [compile, htext]
    by_cases hempty : source = ""
    · rw [hempty, parse_empty] at hcompile
      simp [patternViolations, patternEntries, hcompile, Except.mapError]
    · have hgiven : r.pattern.truthy = true := by simp [htext, Value.truthy, hempty]
      cases hp : Pattern.parse source with
      | ok p =>
        rw [hp] at hcompile
        simp [patternViolations, patternEntries, hcompile, Except.mapError]
      | error e =>
        rw [hp] at hcompile
        have hcompile : r.compile = .error (.pattern e) := hcompile
        have hformal : e.fault.isFormal = true := by
          by_contra hnot
          exact hreads e ⟨hcompile, by simpa using hnot⟩
        simp [patternViolations, patternEntries, hgiven, hcompile, hformal, patternEntry]

theorem Rule.violations_of_reads [CharacterNames] (hwritten : r.Written) (hreads : ∀ e, ¬r.Stops e) :
    r.violations index = .ok (r.entries index) := by
  rw [violations, patternViolations_of_reads hwritten.pattern hreads]
  rfl

theorem Rule.violations_of_stops [CharacterNames] {e : PatternError} (hpattern : r.pattern.Written)
    (hstops : r.Stops e) :
    r.violations index = .error (.pattern e) := by
  obtain ⟨hcompile, hfault⟩ := hstops
  have hgiven : r.pattern.truthy = true := by
    obtain hnull | ⟨source, htext⟩ := hpattern
    · simp [compile, hnull] at hcompile
    · by_contra hnot
      obtain rfl : source = "" := by simpa [htext, Value.truthy] using hnot
      simp [compile, htext, parse_empty, Except.mapError] at hcompile
  have hpattern : r.patternViolations index = .error (.pattern e) := by
    simp [patternViolations, hgiven, hcompile, hfault]
  rw [violations, hpattern]
  rfl

/-- The name of a category is no blank text. -/
theorem not_missing_of_isCategory (h : Rule.isCategory v = true) : isMissing v = false := by
  cases v with
  | text name =>
    obtain ⟨c, _, hname⟩ := List.any_eq_true.mp (show Category.ordered.any (·.name == name) = true from h)
    rw [← eq_of_beq hname]
    cases c <;> decide
  | _ => cases h

/-- A rule has no entry exactly if it is fit. -/
theorem Rule.entries_eq_nil_iff [CharacterNames] (hwritten : r.Written) : r.entries index = [] ↔ r.Fit := by
  have hparts : r.missingParts = [] ↔ CadenceUplift.isMissing r.pattern = false ∧ r.replacement.isMissing = false ∧
      CadenceUplift.isMissing r.description = false ∧ CadenceUplift.isMissing r.category = false := by
    simp [missingParts_eq, parts]
  have hcompile : r.patternEntries index = [] ↔ ∀ e, r.compile ≠ .error (.pattern e) := by
    unfold patternEntries
    split
    next e he => simp [he]
    next hnot => simpa using hnot
  rw [entries, List.append_eq_nil_iff, List.append_eq_nil_iff, List.map_eq_nil_iff, hparts, hcompile]
  constructor
  · rintro ⟨⟨⟨hpattern, hreplacement, hdescription, hmissing⟩, hcategory⟩, hreads⟩
    have hgiven : r.category.truthy = true := by
      by_contra hnot
      rw [hwritten.category.missing_of_not_truthy (by simpa using hnot)] at hmissing
      cases hmissing
    refine ⟨hpattern, ?_, hreplacement, hdescription, by simpa [hgiven] using hcategory⟩
    obtain hnull | ⟨source, htext⟩ := hwritten.pattern
    · rw [hnull] at hpattern
      cases hpattern
    · cases hp : Pattern.parse source with
      | ok p => exact ⟨p, by rw [compile, htext]; simp [hp, Except.mapError]⟩
      | error e => exact absurd (by rw [compile, htext]; simp [hp, Except.mapError]) (hreads e)
  · intro hfit
    obtain ⟨p, hp⟩ := hfit.compiles
    have hcategory := not_missing_of_isCategory hfit.category
    exact ⟨⟨⟨hfit.pattern, hfit.replacement, hfit.description, hcategory⟩, by simp [hfit.category]⟩, by simp [hp]⟩

end OneRule

/-- Where the first rule with the description stands; behind the last where there is none. -/
def firstDescribed (rules : List Rule) (d : Value) : Nat := rules.findIdx fun x => x.description.same d

/-- The entry for a rule whose description an earlier rule has. -/
def duplicateEntries (rules : List Rule) (i : Nat) (r : Rule) : List String :=
  if r.description.truthy && decide (firstDescribed rules r.description < i) then
    [Rule.duplicateEntry (i + 1) (firstDescribed rules r.description + 1) r.description.display]
  else []

section ManyRules

variable {before rest : List Rule} {r : Rule} {seen : List (Value × Nat)}

/-- The number of the first rule that has the description. -/
def numberDescribed (rules : List Rule) (d : Value) : Option Nat :=
  if firstDescribed rules d < rules.length then some (firstDescribed rules d + 1) else none

/-- What is kept of the rules before: each description with the number of the first rule that has it. -/
def Keeps (before : List Rule) (seen : List (Value × Nat)) : Prop :=
  ∀ s : String, s ≠ "" → RuleSet.firstWith (.text s) seen = numberDescribed before (.text s)

theorem firstDescribed_append (before rest : List Rule) (d : Value) :
    firstDescribed (before ++ rest) d =
      if firstDescribed before d < before.length then firstDescribed before d
      else firstDescribed rest d + before.length :=
  List.findIdx_append

theorem numberDescribed_snoc (before : List Rule) (r : Rule) (d : Value) :
    numberDescribed (before ++ [r]) d =
      (numberDescribed before d).or (if r.description.same d then some (before.length + 1) else none) := by
  have hlast : firstDescribed [r] d = if r.description.same d then 0 else 1 := by
    rw [firstDescribed, List.findIdx_cons]
    cases r.description.same d <;> rfl
  unfold numberDescribed
  rw [firstDescribed_append, hlast, List.length_append, List.length_singleton]
  by_cases hfound : firstDescribed before d < before.length
  · rw [if_pos hfound, if_pos hfound, if_pos (by omega)]
    rfl
  · rw [if_neg hfound, if_neg hfound]
    cases r.description.same d <;> simp [Nat.add_comm 1]

theorem firstWith_snoc (d d' : Value) (seen : List (Value × Nat)) (n : Nat) :
    RuleSet.firstWith d (seen ++ [(d', n)]) =
      (RuleSet.firstWith d seen).or (if d'.same d then some n else none) := by
  unfold RuleSet.firstWith
  rw [List.find?_append]
  cases seen.find? fun s => s.1.same d with
  | some x => rfl
  | none => cases h : d'.same d <;> simp [h]

/-- A rule without a description, or with one that is kept already, changes nothing about what is to be kept. -/
theorem Keeps.skip (h : Keeps before seen) (hskip : ∀ s, s ≠ "" → r.description.same (.text s) = true →
    (numberDescribed before (.text s)).isSome = true) : Keeps (before ++ [r]) seen := by
  intro s hs
  rw [h s hs, numberDescribed_snoc]
  cases hsame : r.description.same (.text s) with
  | false => simp
  | true =>
    obtain ⟨n, hn⟩ := Option.isSome_iff_exists.mp (hskip s hs hsame)
    rw [hn]
    rfl

theorem Keeps.new (h : Keeps before seen) : Keeps (before ++ [r]) (seen ++ [(r.description, before.length + 1)]) := by
  intro s hs
  rw [firstWith_snoc, h s hs, numberDescribed_snoc]

/-- The first rule with the description of a rule is that rule or one before it. -/
theorem duplicateEntries_append (hdescription : ∃ s, r.description = .text s) (rest : List Rule) :
    duplicateEntries (before ++ r :: rest) before.length r =
      if r.description.truthy then
        match numberDescribed before r.description with
        | some first => [Rule.duplicateEntry (before.length + 1) first r.description.display]
        | none => []
      else [] := by
  obtain ⟨s, hs⟩ := hdescription
  have hself : firstDescribed (r :: rest) r.description = 0 := by
    rw [firstDescribed, List.findIdx_cons, hs]
    simp [Value.same]
  unfold duplicateEntries numberDescribed
  rw [firstDescribed_append, hself]
  by_cases hfound : firstDescribed before r.description < before.length
  · cases r.description.truthy <;> simp [hfound]
  · cases r.description.truthy <;> simp [hfound]

/-- One rule of the check: its own entries, then the one for its description, then those of the rules behind it. -/
theorem ruleViolations_step [CharacterNames] (h : Keeps before seen) (hdescription : r.description.Written)
    (rest : List Rule) :
    ∃ seen', Keeps (before ++ [r]) seen' ∧
      RuleSet.ruleViolations (before.length + 1) seen (r :: rest) = (do
        let own ← r.violations (before.length + 1)
        let others ← RuleSet.ruleViolations (before.length + 2) seen' rest
        return own ++ duplicateEntries (before ++ r :: rest) before.length r ++ others) := by
  obtain hnull | ⟨s, htext⟩ := hdescription
  · refine ⟨seen, h.skip ?_, ?_⟩
    · intro s _ hsame
      simp [hnull, Value.same, Value.sameNumber, Value.quotient?] at hsame
    · simp [RuleSet.ruleViolations, duplicateEntries, hnull, Value.truthy]
  · have hdup : duplicateEntries (before ++ r :: rest) before.length r = _ := duplicateEntries_append ⟨s, htext⟩ rest
    by_cases hempty : s = ""
    · refine ⟨seen, h.skip ?_, ?_⟩
      · intro u hu hsame
        simp [htext, Value.same, hempty, Ne.symm hu] at hsame
      · simp [RuleSet.ruleViolations, hdup, htext, Value.truthy, hempty]
    · have hgiven : r.description.truthy = true := by simp [htext, Value.truthy, hempty]
      have hkey : r.description.isKey = true := by simp [htext, Value.isKey]
      have hkept : RuleSet.firstWith r.description seen = numberDescribed before r.description := by
        rw [htext]
        exact h s hempty
      cases hnumber : numberDescribed before r.description with
      | some first =>
        refine ⟨seen, h.skip ?_, ?_⟩
        · intro u _ hsame
          obtain rfl : s = u := by simpa [htext, Value.same] using hsame
          rw [← htext, hnumber]
          rfl
        · rw [hnumber] at hkept hdup
          simp only [RuleSet.ruleViolations, hgiven, hkey, hkept, hdup, Bool.not_true, Bool.false_eq_true, ↓reduceIte,
            List.append_assoc, List.singleton_append]
          rfl
      | none =>
        refine ⟨_, h.new, ?_⟩
        rw [hnumber] at hkept hdup
        simp only [RuleSet.ruleViolations, hgiven, hkey, hkept, hdup, Bool.not_true, Bool.false_eq_true, ↓reduceIte,
          List.append_nil]

/-- The check of rules that can all be read: what it says of each, rule after rule. -/
theorem ruleViolations_of_reads [CharacterNames] (h : Keeps before seen) (hwritten : ∀ r ∈ rest, r.Written)
    (hreads : ∀ r ∈ rest, ∀ e, ¬r.Stops e) :
    RuleSet.ruleViolations (before.length + 1) seen rest = .ok ((rest.zipIdx before.length).flatMap fun x =>
      x.1.entries (x.2 + 1) ++ duplicateEntries (before ++ rest) x.2 x.1) := by
  induction rest generalizing before seen with
  | nil => rfl
  | cons r rest ih =>
    obtain ⟨seen', hkeeps, hstep⟩ := ruleViolations_step h (hwritten r (by simp)).description rest
    have hown : r.violations (before.length + 1) = .ok (r.entries (before.length + 1)) :=
      Rule.violations_of_reads (hwritten r (by simp)) (hreads r (by simp))
    have hrest := ih hkeeps (fun x hx => hwritten x (by simp [hx])) fun x hx => hreads x (by simp [hx])
    rw [List.length_append, List.length_singleton, List.append_assoc, List.singleton_append] at hrest
    rw [hstep, hown, hrest]
    rfl

/-- The check ends with the fault of the first pattern that it cannot get over. -/
theorem ruleViolations_of_stops [CharacterNames] {mid after : List Rule} {x : Rule} {e : PatternError}
    (h : Keeps before seen)
    (hwritten : ∀ r ∈ mid ++ x :: after, r.Written) (hreads : ∀ r ∈ mid, ∀ e, ¬r.Stops e) (hstops : x.Stops e) :
    RuleSet.ruleViolations (before.length + 1) seen (mid ++ x :: after) = .error (.pattern e) := by
  induction mid generalizing before seen with
  | nil =>
    have hx := hwritten x (by simp)
    obtain ⟨seen', _, hstep⟩ := ruleViolations_step h hx.description after
    rw [List.nil_append, hstep, Rule.violations_of_stops hx.pattern hstops]
    rfl
  | cons r mid ih =>
    have hr := hwritten r (by simp)
    obtain ⟨seen', hkeeps, hstep⟩ := ruleViolations_step h hr.description (mid ++ x :: after)
    have hrest := ih hkeeps (fun y hy => hwritten y (by simp at hy; simp [hy])) fun y hy => hreads y (by simp [hy])
    rw [List.length_append, List.length_singleton] at hrest
    rw [List.cons_append, hstep, Rule.violations_of_reads hr (hreads r (by simp)), hrest]
    rfl

end ManyRules

section Texts

variable {i j : Nat} {u v : String}

theorem toList_toString (n : Nat) : (toString n).toList = Nat.toDigits 10 n := by
  simp [Nat.toString_eq_repr, Nat.repr]

theorem not_colon_mem_digits (n : Nat) : ':' ∉ Nat.toDigits 10 n := by
  intro h
  have hdigit := Nat.isDigit_of_mem_toDigits (by decide) (by decide) h
  revert hdigit
  decide

theorem violationLead_toList (index : Nat) (u : String) : (Rule.violationLead index ++ u).toList =
    "Transformation rule ".toList ++ (Nat.toDigits 10 index ++ (": ".toList ++ u.toList)) := by
  unfold Rule.violationLead
  rw [String.toList_append, String.toList_append, String.toList_append, List.append_assoc, List.append_assoc,
    toList_toString]

/-- Two entries begin alike only if they are about the same rule. -/
theorem violationLead_prefix (h : (Rule.violationLead i ++ u).toList <+: (Rule.violationLead j ++ v).toList) :
    i = j ∧ u.toList <+: v.toList := by
  rw [violationLead_toList, violationLead_toList, List.prefix_append_right_inj] at h
  obtain ⟨t, ht⟩ := h
  have hcolon : ": ".toList = [':', ' '] := rfl
  rw [hcolon, List.append_assoc, List.cons_append, List.cons_append] at ht
  obtain ⟨hnumber, htail⟩ := Text.append_cons_inj_of_not_mem (not_colon_mem_digits i) (not_colon_mem_digits j) ht
  have hindex : i = j := by
    rw [← Nat.ofDigitChars_toDigits (b := 10) (n := i) (by decide) (by decide), hnumber,
      Nat.ofDigitChars_toDigits (by decide) (by decide)]
  exact ⟨hindex, t, (List.cons.inj htail).2⟩

theorem Rule.tellsDuplicate_lead (i j : Nat) (u : String) : Rule.tellsDuplicate i (Rule.violationLead j ++ u) = true ↔
    i = j ∧ "description duplicates rule ".toList <+: u.toList := by
  rw [tellsDuplicate, List.isPrefixOf_iff_prefix, duplicateLead]
  constructor
  · exact violationLead_prefix
  · rintro ⟨rfl, t, ht⟩
    refine ⟨t, ?_⟩
    rw [String.toList_append, String.toList_append, List.append_assoc, ht]

theorem Rule.tellsDuplicate_duplicateEntry (i j first : Nat) (d : String) :
    Rule.tellsDuplicate i (duplicateEntry j first d) = decide (i = j) := by
  have hentry : duplicateEntry j first d =
      violationLead j ++ ("description duplicates rule " ++ (toString first ++ " ('" ++ d ++ "')")) := by
    simp only [duplicateEntry, duplicateLead, String.append_assoc]
  rw [Bool.eq_iff_iff, hentry, tellsDuplicate_lead, decide_eq_true_iff, String.toList_append]
  exact ⟨And.left, fun h => ⟨h, List.prefix_append _ _⟩⟩

/-- No entry of a rule by itself is about its description being used before. -/
theorem Rule.tellsDuplicate_entries [CharacterNames] (i index : Nat) (r : Rule) :
    ∀ e ∈ r.entries index, Rule.tellsDuplicate i e = false := by
  intro e he
  rw [entries, List.mem_append, List.mem_append] at he
  by_contra htells
  have htells : tellsDuplicate i e = true := by simpa using htells
  obtain (hpart | hcategory) | hpattern := he
  · obtain ⟨part, hmissing, rfl⟩ := List.mem_map.mp hpart
    rw [missingEntry, String.append_assoc, tellsDuplicate_lead] at htells
    have hnone : ∀ part ∈ ["pattern", "replacement", "description", "category"],
        ¬"description duplicates rule ".toList <+: (part ++ " is required").toList := by decide
    exact hnone part (mem_names_of_missing hmissing) htells.2
  · split at hcategory
    · rw [List.mem_singleton.mp hcategory, categoryEntry, String.append_assoc, tellsDuplicate_lead] at htells
      have hnone : ¬"description duplicates rule ".toList <+:
          ("category must be one of " ++ Category.names).toList := by decide
      exact hnone htells.2
    · cases hcategory
  · unfold patternEntries at hpattern
    split at hpattern
    next fault _ =>
      rw [List.mem_singleton.mp hpattern, patternEntry, String.append_assoc, String.append_assoc,
        tellsDuplicate_lead, String.toList_append] at htells
      obtain ⟨_, t, ht⟩ := htells
      have hfirst : some 'd' = some 'p' := congrArg List.head? ht
      simp at hfirst
    next => cases hpattern

end Texts

/-- Rule `i` has the description `d`, and rule `j` in front of it is the first that has it. -/
structure Repeats (rules : List Rule) (i j : Nat) (d : String) : Prop where
  given : d ≠ ""
  earlier : j < i
  here : (rules.map (·.description))[i]? = some (.text d)
  there : (rules.map (·.description))[j]? = some (.text d)
  first : ∀ k < j, (rules.map (·.description))[k]? ≠ some (.text d)

namespace RuleSet

variable [CharacterNames]

/-- The set is fit for a run: it names a version and has rules, all fit, no two of them described alike. -/
structure Fit (r : RuleSet) : Prop where
  version : r.options.targetVersion.truthy = true ∧ isBlankValue r.options.targetVersion = false
  rules : r.rules ≠ []
  each : ∀ x ∈ r.rules, x.Fit
  distinct : r.rules.Pairwise fun a b => a.description ≠ b.description

/-- The entries say all that is wrong with the set. -/
structure Reported (r : RuleSet) (errs : List String) : Prop where
  /-- No entry, exactly if nothing is wrong. -/
  nil_iff : errs = [] ↔ r.Fit
  version : r.options.targetVersion.truthy = false ∨ isBlankValue r.options.targetVersion = true →
    "Target Cadence version is required" ∈ errs
  rules : r.rules = [] → "At least one transformation rule is required" ∈ errs
  part : ∀ (i : Nat) (x : Rule) (name : String), r.rules[i]? = some x → (name, true) ∈ x.parts →
    Rule.missingEntry (i + 1) name ∈ errs
  category : ∀ (i : Nat) (x : Rule), r.rules[i]? = some x → x.category.truthy = true →
    Rule.isCategory x.category = false → Rule.categoryEntry (i + 1) ∈ errs
  pattern : ∀ (i : Nat) (x : Rule) (fault : PatternError), r.rules[i]? = some x →
    x.compile = .error (.pattern fault) → Rule.patternEntry (i + 1) fault ∈ errs
  /-- One entry for a description used before, and none for any other. -/
  duplicate : ∀ i j d, Repeats r.rules i j d →
    errs.filter (Rule.tellsDuplicate (i + 1)) = [Rule.duplicateEntry (i + 1) (j + 1) d]
  single : ∀ i, (∀ j d, ¬Repeats r.rules i j d) → errs.filter (Rule.tellsDuplicate (i + 1)) = []

/-- The entries of a set whose rules can all be read. -/
def entries (r : RuleSet) : List String :=
  (if !r.options.targetVersion.truthy || isBlankValue r.options.targetVersion then
      ["Target Cadence version is required"] else []) ++
    (if r.rules.isEmpty then ["At least one transformation rule is required"] else []) ++
    r.rules.zipIdx.flatMap fun x => x.1.entries (x.2 + 1) ++ duplicateEntries r.rules x.2 x.1

end RuleSet

section Whole

variable {r : RuleSet} {rules : List Rule} {i j : Nat} {d : String} {x : Rule}

theorem keeps_nil : Keeps [] [] := fun _ _ => rfl

theorem RuleSet.violations_of_reads [CharacterNames] (hwritten : ∀ x ∈ r.rules, x.Written)
    (hreads : ∀ x ∈ r.rules, ∀ e, ¬x.Stops e) :
    r.violations = .ok r.entries := by
  have hrules := ruleViolations_of_reads keeps_nil hwritten hreads
  rw [List.length_nil, List.nil_append] at hrules
  rw [violations, hrules]
  rfl

theorem RuleSet.violations_of_stops [CharacterNames] {before after : List Rule} {e : PatternError}
    (hwritten : ∀ x ∈ r.rules, x.Written)
    (hrules : r.rules = before ++ x :: after) (hreads : ∀ y ∈ before, ∀ e, ¬y.Stops e) (hstops : x.Stops e) :
    r.violations = .error (.pattern e) := by
  have hfault := ruleViolations_of_stops keeps_nil (hrules ▸ hwritten) hreads hstops
  rw [← hrules, List.length_nil] at hfault
  rw [violations, hfault]
  rfl

theorem mem_entries [CharacterNames] {e : String} (hx : r.rules[i]? = some x)
    (he : e ∈ x.entries (i + 1) ++ duplicateEntries r.rules i x) : e ∈ r.entries := by
  have hmem : (x, i) ∈ r.rules.zipIdx := List.mem_zipIdx_iff_getElem?.mpr hx
  exact List.mem_append_right _ (List.mem_flatMap.mpr ⟨(x, i), hmem, he⟩)

/-- The first rule that is described so. -/
theorem firstDescribed_eq_iff (hwritten : ∀ x ∈ rules, x.Written) (hj : j < rules.length) :
    firstDescribed rules (.text d) = j ↔ (rules.map (·.description))[j]? = some (.text d) ∧
      ∀ k < j, (rules.map (·.description))[k]? ≠ some (.text d) := by
  have hget (k : Nat) (hk : k < rules.length) : rules[k].description.same (.text d) = true ↔
      (rules.map (·.description))[k]? = some (.text d) := by
    rw [(hwritten _ (List.getElem_mem hk)).description.same_text, List.getElem?_map, List.getElem?_eq_getElem hk]
    simp
  rw [firstDescribed, List.findIdx_eq hj, hget j hj]
  refine and_congr_right fun _ => ?_
  constructor
  · intro h k hk hsame
    have hfalse := h k hk
    rw [(hget k (by omega)).mpr hsame] at hfalse
    cases hfalse
  · intro h k hk
    have hne := mt (hget k (by omega)).mp (h k hk)
    simpa using hne

theorem duplicateEntries_of_repeats (hwritten : ∀ x ∈ rules, x.Written) (hx : rules[i]? = some x)
    (h : Repeats rules i j d) : duplicateEntries rules i x = [Rule.duplicateEntry (i + 1) (j + 1) d] := by
  have hi := (List.getElem?_eq_some_iff.mp hx).1
  have hdescription : x.description = .text d := by simpa [hx] using h.here
  have hfirst : firstDescribed rules (.text d) = j :=
    (firstDescribed_eq_iff hwritten (Nat.lt_trans h.earlier hi)).mpr ⟨h.there, h.first⟩
  simp [duplicateEntries, hdescription, hfirst, h.earlier, Value.truthy, h.given, Value.display]

theorem duplicateEntries_of_single (hwritten : ∀ x ∈ rules, x.Written) (hx : rules[i]? = some x)
    (h : ∀ j d, ¬Repeats rules i j d) : duplicateEntries rules i x = [] := by
  obtain ⟨hi, hget⟩ := List.getElem?_eq_some_iff.mp hx
  unfold duplicateEntries
  rw [if_neg]
  intro hboth
  rw [Bool.and_eq_true, decide_eq_true_iff] at hboth
  obtain ⟨hgiven, hearlier⟩ := hboth
  obtain hnull | ⟨d, htext⟩ := (hwritten x (List.mem_of_getElem? hx)).description
  · simp [hnull, Value.truthy] at hgiven
  · rw [htext] at hearlier hgiven
    obtain ⟨hthere, hfirst⟩ := (firstDescribed_eq_iff hwritten (Nat.lt_trans hearlier hi)).mp rfl
    refine h _ d ⟨?_, hearlier, by simp [hx, htext], hthere, hfirst⟩
    rintro rfl
    simp [Value.truthy] at hgiven

theorem filter_duplicateEntries (rules : List Rule) (i k : Nat) (x : Rule) :
    (duplicateEntries rules k x).filter (Rule.tellsDuplicate (i + 1)) =
      if i = k then duplicateEntries rules k x else [] := by
  unfold duplicateEntries
  split
  · by_cases hik : i = k <;> simp [Rule.tellsDuplicate_duplicateEntry, hik]
  · simp

/-- Of the entries of all rules, those about the description of rule `i` are its own. -/
theorem filter_entries_of_rules [CharacterNames] (rules rest : List Rule) (i k : Nat) :
    ((rest.zipIdx k).flatMap fun x => x.1.entries (x.2 + 1) ++ duplicateEntries rules x.2 x.1).filter
        (Rule.tellsDuplicate (i + 1)) =
      (if k ≤ i then rest[i - k]? else none).elim [] (duplicateEntries rules i) := by
  induction rest generalizing k with
  | nil => simp
  | cons x rest ih =>
    have hown : (x.entries (k + 1)).filter (Rule.tellsDuplicate (i + 1)) = [] :=
      List.filter_eq_nil_iff.mpr fun e he => by simp [Rule.tellsDuplicate_entries (i + 1) (k + 1) x e he]
    rw [List.zipIdx_cons, List.flatMap_cons, List.filter_append, List.filter_append, hown, List.nil_append,
      filter_duplicateEntries, ih (k + 1)]
    rcases Nat.lt_trichotomy k i with hlt | rfl | hgt
    · have hsub : i - k = i - (k + 1) + 1 := by omega
      rw [if_neg (by omega), if_pos (Nat.succ_le_of_lt hlt), if_pos (Nat.le_of_lt hlt), hsub, List.getElem?_cons_succ]
      rfl
    · rw [if_pos rfl, if_neg (by omega), if_pos (Nat.le_refl k), Nat.sub_self]
      simp
    · rw [if_neg (by omega), if_neg (by omega), if_neg (by omega)]
      rfl

theorem Rule.not_tellsDuplicate {e : String} (h : ¬"Transformation rule ".toList <+: e.toList) (index : Nat) :
    Rule.tellsDuplicate index e = false := by
  by_contra htells
  rw [Bool.not_eq_false] at htells
  have hprefix : (duplicateLead index).toList <+: e.toList := List.isPrefixOf_iff_prefix.mp htells
  rw [duplicateLead, violationLead_toList] at hprefix
  exact h ((List.prefix_append _ _).trans hprefix)

theorem RuleSet.filter_entries [CharacterNames] (r : RuleSet) (i : Nat) :
    r.entries.filter (Rule.tellsDuplicate (i + 1)) = (r.rules[i]?).elim [] (duplicateEntries r.rules i) := by
  have hversion : Rule.tellsDuplicate (i + 1) "Target Cadence version is required" = false :=
    Rule.not_tellsDuplicate (by decide) _
  have hnone : Rule.tellsDuplicate (i + 1) "At least one transformation rule is required" = false :=
    Rule.not_tellsDuplicate (by decide) _
  rw [entries, List.filter_append, List.filter_append, filter_entries_of_rules, if_pos (Nat.zero_le i), Nat.sub_zero]
  have hsome (given : Bool) (e : String) (he : Rule.tellsDuplicate (i + 1) e = false) :
      (if given then [e] else []).filter (Rule.tellsDuplicate (i + 1)) = [] := by
    cases given <;> simp [he]
  rw [hsome _ _ hversion, hsome _ _ hnone]
  rfl

/-- Of fit rules, none repeats another exactly if the descriptions are distinct. -/
theorem pairwise_iff_duplicateEntries [CharacterNames] (hwritten : ∀ x ∈ rules, x.Written)
    (hfit : ∀ x ∈ rules, x.Fit) :
    rules.Pairwise (fun a b => a.description ≠ b.description) ↔
      ∀ i x, rules[i]? = some x → duplicateEntries rules i x = [] := by
  rw [List.pairwise_iff_getElem]
  constructor
  · intro hdistinct i x hx
    refine duplicateEntries_of_single hwritten hx fun j d h => ?_
    obtain ⟨hi, rfl⟩ := List.getElem?_eq_some_iff.mp hx
    have hj := Nat.lt_trans h.earlier hi
    have hhere := h.here
    have hthere := h.there
    rw [List.getElem?_map, List.getElem?_eq_getElem hi, Option.map_some, Option.some.injEq] at hhere
    rw [List.getElem?_map, List.getElem?_eq_getElem hj, Option.map_some, Option.some.injEq] at hthere
    exact hdistinct j i hj hi h.earlier (hthere.trans hhere.symm)
  · intro hnone i j hi hj hij heq
    have hx := List.getElem?_eq_getElem hj
    have hmem := List.getElem_mem hj
    obtain ⟨d, htext⟩ : ∃ d, rules[j].description = .text d := by
      refine (hwritten _ hmem).description.resolve_left fun hnull => ?_
      have hgiven := (hfit _ hmem).description
      rw [hnull] at hgiven
      cases hgiven
    have hd : d ≠ "" := by
      rintro rfl
      have hgiven := (hfit _ hmem).description
      rw [htext] at hgiven
      cases hgiven
    have hfound : firstDescribed rules (.text d) ≤ i := by
      by_contra hlater
      have hfalse := List.not_of_lt_findIdx (Nat.lt_of_not_le hlater)
      rw [heq, htext] at hfalse
      simp [Value.same] at hfalse
    have hentry := hnone j _ hx
    simp [duplicateEntries, htext, Value.truthy, hd, Nat.lt_of_le_of_lt hfound hij] at hentry

theorem RuleSet.entries_eq_nil_iff [CharacterNames] (hwritten : ∀ x ∈ r.rules, x.Written) : r.entries =
    [] ↔ r.Fit := by
  have hversion : (if !r.options.targetVersion.truthy || isBlankValue r.options.targetVersion then
      ["Target Cadence version is required"] else []) = [] ↔
      r.options.targetVersion.truthy = true ∧ isBlankValue r.options.targetVersion = false := by
    cases r.options.targetVersion.truthy <;> cases isBlankValue r.options.targetVersion <;> simp
  have hrules : (if r.rules.isEmpty then ["At least one transformation rule is required"] else []) = [] ↔
      r.rules ≠ [] := by
    cases r.rules <;> simp
  have heach : r.rules.zipIdx.flatMap (fun x => x.1.entries (x.2 + 1) ++ duplicateEntries r.rules x.2 x.1) = [] ↔
      (∀ x ∈ r.rules, x.Fit) ∧ ∀ i x, r.rules[i]? = some x → duplicateEntries r.rules i x = [] := by
    rw [List.flatMap_eq_nil_iff]
    constructor
    · intro h
      have hboth (i : Nat) (x : Rule) (hx : r.rules[i]? = some x) : x.Fit ∧ duplicateEntries r.rules i x = [] := by
        have hnil := List.append_eq_nil_iff.mp (h (x, i) (List.mem_zipIdx_iff_getElem?.mpr hx))
        exact ⟨(Rule.entries_eq_nil_iff (hwritten x (List.mem_of_getElem? hx))).mp hnil.1, hnil.2⟩
      refine ⟨fun x hx => ?_, fun i x hx => (hboth i x hx).2⟩
      obtain ⟨i, hi⟩ := List.mem_iff_getElem?.mp hx
      exact (hboth i x hi).1
    · rintro ⟨hfit, hnone⟩ ⟨x, i⟩ hmem
      have hx := List.mem_zipIdx_iff_getElem?.mp hmem
      have hmem := List.mem_of_getElem? hx
      exact List.append_eq_nil_iff.mpr ⟨(Rule.entries_eq_nil_iff (hwritten x hmem)).mpr (hfit x hmem), hnone i x hx⟩
  rw [entries, List.append_eq_nil_iff, List.append_eq_nil_iff, hversion, hrules, heach]
  constructor
  · rintro ⟨⟨hversion, hrules⟩, hfit, hnone⟩
    exact ⟨hversion, hrules, hfit, (pairwise_iff_duplicateEntries hwritten hfit).mpr hnone⟩
  · intro h
    exact ⟨⟨h.version, h.rules⟩, h.each, (pairwise_iff_duplicateEntries hwritten h.each).mp h.distinct⟩

theorem RuleSet.reported_entries [CharacterNames] (hwritten : ∀ x ∈ r.rules, x.Written) : r.Reported r.entries := by
  refine ⟨entries_eq_nil_iff hwritten, ?_, ?_, ?_, ?_, ?_, ?_, ?_⟩
  · intro h
    have hmissing : (!r.options.targetVersion.truthy || isBlankValue r.options.targetVersion) = true := by
      rcases h with h | h <;> simp [h]
    simp [entries, hmissing]
  · intro h
    simp [entries, h]
  · intro i x name hx hmissing
    refine mem_entries hx (List.mem_append_left _ ?_)
    rw [Rule.entries, List.append_assoc]
    exact List.mem_append_left _ (List.mem_map_of_mem ((x.mem_missingParts_iff name).mpr hmissing))
  · intro i x hx hgiven hother
    refine mem_entries hx (List.mem_append_left _ ?_)
    simp [Rule.entries, hgiven, hother]
  · intro i x fault hx hfault
    refine mem_entries hx (List.mem_append_left _ ?_)
    rw [Rule.entries, Rule.patternEntries, hfault]
    exact List.mem_append_right _ (List.mem_singleton_self _)
  · intro i j d h
    have hhere := h.here
    rw [List.getElem?_map] at hhere
    obtain ⟨x, hx, _⟩ := Option.map_eq_some_iff.mp hhere
    rw [filter_entries, hx]
    exact duplicateEntries_of_repeats hwritten hx h
  · intro i h
    rw [filter_entries]
    cases hx : r.rules[i]? with
    | none => rfl
    | some x => exact duplicateEntries_of_single hwritten hx h

theorem exists_first_stopping [CharacterNames] (h : ∃ x ∈ rules, ∃ e, x.Stops e) :
    ∃ before x after fault, rules = before ++ x :: after ∧ (∀ y ∈ before, ∀ e, ¬y.Stops e) ∧ x.Stops fault := by
  induction rules with
  | nil => simp at h
  | cons y rules ih =>
    by_cases hy : ∃ e, y.Stops e
    · obtain ⟨e, he⟩ := hy
      exact ⟨[], y, rules, e, rfl, by simp, he⟩
    · obtain ⟨before, x, after, fault, rfl, hbefore, hx⟩ := ih (by simpa [hy] using h)
      exact ⟨y :: before, x, after, fault, rfl, List.forall_mem_cons.mpr ⟨by simpa using hy, hbefore⟩, hx⟩

end Whole

/-- Either some pattern is read with a fault that does not lie in its form, and the check fails with the first of these,
or it says all that is wrong with the set. -/
theorem violations_reported [CharacterNames] {r : RuleSet} (hwritten : ∀ x ∈ r.rules, x.Written) :
    (∀ e, r.violations = .error e ↔ ∃ before x after fault, r.rules = before ++ x :: after ∧
      (∀ y ∈ before, ∀ e, ¬y.Stops e) ∧ x.Stops fault ∧ e = .pattern fault) ∧
    ((∀ x ∈ r.rules, ∀ e, ¬x.Stops e) → ∃ errs, r.violations = .ok errs ∧ r.Reported errs) := by
  refine ⟨fun e => ⟨?_, ?_⟩, fun hreads => ?_⟩
  · intro herror
    have hsome : ∃ x ∈ r.rules, ∃ e, x.Stops e := by
      by_contra hnone
      push Not at hnone
      rw [RuleSet.violations_of_reads hwritten hnone] at herror
      cases herror
    obtain ⟨before, x, after, fault, hrules, hbefore, hstops⟩ := exists_first_stopping hsome
    rw [RuleSet.violations_of_stops hwritten hrules hbefore hstops] at herror
    exact ⟨before, x, after, fault, hrules, hbefore, hstops, (Except.error.inj herror).symm⟩
  · rintro ⟨before, x, after, fault, hrules, hbefore, hstops, rfl⟩
    exact RuleSet.violations_of_stops hwritten hrules hbefore hstops
  · exact ⟨_, RuleSet.violations_of_reads hwritten hreads, RuleSet.reported_entries hwritten⟩

/-- A set of two rules with the same description, the first of them with nothing else in order. -/
def RuleSet.unfit : RuleSet :=
  { options := { targetVersion := .text " " }
    rules := [⟨.text "(", .template .null, .text "Twice", .text "other"⟩,
      ⟨.text " ", .template (.text ""), .text "Twice", .null⟩] }

theorem unfit_reported :
    (∀ x ∈ RuleSet.unfit.rules, x.Written) ∧
      (∃ errs, RuleSet.unfit.violations = .ok errs ∧ RuleSet.unfit.Reported errs) ∧
      RuleSet.unfit.violations.toOption = some ["Target Cadence version is required",
        "Transformation rule 1: replacement is required",
        "Transformation rule 1: category must be one of access-modifier, interface, storage, function, import",
        "Transformation rule 1: pattern is not a valid regular expression " ++
          "(missing ), unterminated subpattern at position 0)",
        "Transformation rule 2: pattern is required", "Transformation rule 2: category is required",
        "Transformation rule 2: description duplicates rule 1 ('Twice')"] := by
  have hwritten : ∀ x ∈ RuleSet.unfit.rules, x.Written := by
    intro x hx
    simp only [RuleSet.unfit, List.mem_cons, List.not_mem_nil, or_false] at hx
    rcases hx with rfl | rfl
    · exact ⟨.inr ⟨_, rfl⟩, .inr ⟨_, rfl⟩, .inr ⟨_, rfl⟩⟩
    · exact ⟨.inr ⟨_, rfl⟩, .inr ⟨_, rfl⟩, .inl rfl⟩
  have hformal : ∀ x ∈ RuleSet.unfit.rules, (match x.compile with
      | .error (.pattern e) => e.fault.isFormal
      | _ => true) = true := by decide +kernel
  refine ⟨hwritten, (violations_reported hwritten).2 fun x hx fault hstops => ?_, by decide +kernel⟩
  have hfault := hformal x hx
  rw [hstops.1] at hfault
  exact Bool.false_ne_true (hstops.2.symm.trans hfault)

/-- A rule whose pattern asks for more copies than can be counted. -/
def Rule.overfull : Rule := ⟨.text "a{4294967295}", .template (.text "x"), .text "big", .text "import"⟩

/-- The starting set with that rule is checked without an answer: nothing is said of it. -/
theorem overfull_not_reported :
    (({} : RuleSet).add Rule.overfull).violations.mapError (·.message) =
      .error "the repetition number is too large" := by
  have hparse : (match Pattern.parse "a{4294967295}" with
      | .error e => some e
      | .ok _ => none) = some ⟨.tooManyCopies, "a{4294967295}".toList, none⟩ := by decide +kernel
  have hstops : Rule.overfull.Stops ⟨.tooManyCopies, "a{4294967295}".toList, none⟩ := by
    split at hparse
    next e he =>
      have hcompile : Rule.overfull.compile = (Pattern.parse "a{4294967295}").mapError .pattern := rfl
      rw [he, Option.some.inj hparse] at hcompile
      exact ⟨hcompile, rfl⟩
    next => cases hparse
  have hdefaults : ∀ x ∈ Rule.defaults, ∀ e, ¬x.Stops e := by
    intro x hx e hstops
    obtain ⟨p, hp⟩ := (defaults_sound x hx).compiles
    rw [hstops.1] at hp
    cases hp
  have hwritten : ∀ x ∈ Rule.defaults ++ [Rule.overfull], x.Written := by
    have htexts : ∀ x ∈ Rule.defaults ++ [Rule.overfull],
        x.pattern.isText = true ∧ x.description.isText = true ∧ x.category.isText = true := by decide
    intro x hx
    obtain ⟨hpattern, hdescription, hcategory⟩ := htexts x hx
    exact ⟨.of_isText hpattern, .of_isText hdescription, .of_isText hcategory⟩
  rw [RuleSet.violations_of_stops hwritten rfl hdefaults hstops]
  rfl

end CadenceUplift
