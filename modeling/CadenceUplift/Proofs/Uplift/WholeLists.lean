import CadenceUplift.Proofs.Uplift.Defaults
import CadenceUplift.Proofs.Uplift.LineEnds

namespace CadenceUplift

open Text Pattern

/-- A text of blanks, perhaps empty. -/
def AllBlank (g : List Char) : Prop := ∀ c ∈ g, isBlank c = true

/-- A name of a conformance list: dots may stand behind its first character. -/
def IsConformanceName (w : List Char) : Prop :=
  ∃ c v, w = c :: v ∧ isNameStart c = true ∧ ∀ d ∈ v, isWord d = true ∨ d = '.'

/-- A name of a conformance list with the separator in front of it and the blanks around that. -/
structure Conformance where
  before : List Char
  mark : Char
  after : List Char
  name : List Char
  before_blank : AllBlank before
  mark_separates : mark = ',' ∨ mark = '&'
  after_blank : AllBlank after
  name_ok : IsConformanceName name

/-- A type declaration with a conformance list, up to the brace of its body. -/
structure ConformingType where
  /-- The word that opens the declaration. -/
  kind : List Char
  /-- The blanks in front of the word `interface`, if it is there. -/
  interfaceGap : Option (List Char)
  gap : List Char
  name : List Char
  beforeColon : List Char
  afterColon : List Char
  first : List Char
  others : List Conformance
  beforeBody : List Char
  kind_ok : kind ∈ Word.types
  interfaceGap_ok : ∀ g ∈ interfaceGap, g ≠ [] ∧ AllBlank g
  gap_ok : gap ≠ [] ∧ AllBlank gap
  name_ok : ∃ c v, name = c :: v ∧ isNameStart c = true ∧ ∀ d ∈ v, isWord d = true
  beforeColon_blank : AllBlank beforeColon
  afterColon_blank : AllBlank afterColon
  first_ok : IsConformanceName first
  beforeBody_blank : AllBlank beforeBody

/-- The separator and the name as they stand. -/
def Conformance.text (c : Conformance) : List Char := c.before ++ c.mark :: (c.after ++ c.name)

namespace ConformingType

variable (d : ConformingType)

/-- The word `interface` with the blanks in front of it, if it is there. -/
def interfaceWord : List Char :=
  match d.interfaceGap with
  | some g => g ++ Word.interface
  | none => []

/-- What stands in front of the conformance list. -/
def head : List Char := d.kind ++ (d.interfaceWord ++ (d.gap ++ (d.name ++ (d.beforeColon ++ ':' :: d.afterColon))))

/-- The conformance list as it stands. -/
def list : List Char := d.first ++ d.others.flatMap Conformance.text

/-- The names of the conformance list, in order. -/
def names : List (List Char) := d.first :: d.others.map Conformance.name

/-- The declaration as it stands. -/
def text : List Char := d.head ++ (d.list ++ (d.beforeBody ++ ['\x7b']))

/-- The declaration with its names joined by ampersands between single spaces. -/
def joined : List Char := d.head ++ (Text.join [' ', '&', ' '] d.names ++ (d.beforeBody ++ ['\x7b']))

/-- Some separator of the list is a comma. -/
def hasComma : Bool := d.others.any fun c => c.mark == ','

end ConformingType

section Entries

theorem gapOf_valid {g : List Char} (hg : AllBlank g) : ∀ x ∈ gapOf g, x.Valid := by
  unfold gapOf
  split
  · simp
  next hne =>
    intro x hx
    rw [List.mem_singleton.mp hx]
    exact ⟨hne, hg⟩

def Conformance.entry (c : Conformance) : Entry where
  before := gapOf c.before
  mark := c.mark
  after := gapOf c.after
  item := pieces c.name
  before_gap := isGap_gapOf c.before
  mark_separates := c.mark_separates
  after_gap := isGap_gapOf c.after
  item_ok := isItem_pieces (mem_language_dottedName.mpr c.name_ok)

theorem Conformance.textOf_entry (c : Conformance) : textOf c.entry.pieces = c.text := by
  simp [entry, Entry.pieces, Conformance.text, textOf_gapOf, textOf_pieces, Piece.text]

theorem Conformance.entry_valid (c : Conformance) : ∀ x ∈ c.entry.pieces, x.Valid := by
  intro x hx
  simp only [entry, Entry.pieces, List.mem_append, List.mem_cons] at hx
  rcases hx with (hx | rfl | hx) | hx
  · exact gapOf_valid c.before_blank x hx
  · exact mark_valid c.mark_separates
  · exact gapOf_valid c.after_blank x hx
  · exact (divided_pieces c.name).valid x hx

variable (d : ConformingType)

theorem ConformingType.first_item : IsItem (pieces d.first) := isItem_pieces (mem_language_dottedName.mpr d.first_ok)

theorem ConformingType.textOf_list :
    textOf (pieces d.first ++ (d.others.map Conformance.entry).flatMap Entry.pieces) = d.list := by
  have hentries (cs : List Conformance) :
      textOf ((cs.map Conformance.entry).flatMap Entry.pieces) = cs.flatMap Conformance.text := by
    induction cs with
    | nil => rfl
    | cons c cs ih =>
      rw [List.map_cons, List.flatMap_cons, textOf_append, ih, c.textOf_entry]
      rfl
  rw [textOf_append, textOf_pieces, hentries]
  rfl

theorem ConformingType.list_valid :
    ∀ x ∈ pieces d.first ++ (d.others.map Conformance.entry).flatMap Entry.pieces, x.Valid := by
  intro x hx
  rcases List.mem_append.mp hx with hx | hx
  · exact (divided_pieces d.first).valid x hx
  · obtain ⟨e, he, hx⟩ := List.mem_flatMap.mp hx
    obtain ⟨c, _, rfl⟩ := List.mem_map.mp he
    exact c.entry_valid x hx

theorem ConformingType.conformanceNames_list : conformanceNames d.list = d.names := by
  rw [← d.textOf_list, conformanceNames_eq d.first_item d.list_valid, textOf_pieces, List.map_map]
  refine congrArg (d.first :: ·) (List.map_congr_left ?_)
  intro c _
  exact textOf_pieces c.name

end Entries

section Reading

variable (d : ConformingType)

theorem ConformingType.head_mem_language : d.head ∈ (all headRest).language := by
  obtain ⟨c, v, hname, hc, hv⟩ := d.name_ok
  refine mem_language_head.mpr ⟨d.kind, d.interfaceWord, d.gap, d.name, d.beforeColon, d.afterColon, rfl, d.kind_ok,
    ?_, d.gap_ok, ?_, d.beforeColon_blank, d.afterColon_blank⟩
  · unfold interfaceWord
    split
    next g hg => exact .inr ⟨g, d.interfaceGap_ok g hg, rfl⟩
    next => exact .inl rfl
  · exact mem_language_plainName.mp (by
      rw [hname]
      exact mem_language_all_cons.mpr ⟨[c], v, rfl, mem_language_nameStart.mpr ⟨c, hc, rfl⟩,
        mem_language_many_word.mpr hv⟩)

theorem ConformingType.declarationText (h : d.hasComma = true) :
    DeclarationText d.text d.head d.list d.beforeBody [] := by
  obtain ⟨c, hc, hmark⟩ := List.any_eq_true.mp h
  refine ⟨rfl, d.head_mem_language, ?_, d.beforeBody_blank⟩
  rw [← d.textOf_list]
  exact mem_language_commaList d.first_item ⟨c.entry, List.mem_map_of_mem hc, beq_iff_eq.mp hmark⟩ d.list_valid

/-- A text starts with one declaration at most, and its head and its list can be told from it. -/
theorem DeclarationText.unique {u x₁ x₂ g r y₁ y₂ g' r' : List Char} (h : DeclarationText u x₁ x₂ g r)
    (h' : DeclarationText u y₁ y₂ g' r') : x₁ = y₁ ∧ x₂ = y₂ := by
  obtain ⟨l, b, p, rfl, rfl, hb, _, hl⟩ := h.pieces
  obtain ⟨l', b', p', rfl, rfl, hb', _, hl'⟩ := h'.pieces
  have hvalid : ∀ x ∈ l.pieces, x.Valid := fun x hx => (divided_pieces u).valid x (by rw [hl]; simp [hx])
  have hvalid' : ∀ x ∈ l'.pieces, x.Valid := fun x hx => (divided_pieces u).valid x (by rw [hl']; simp [hx])
  have hat : ConformanceAt l.pieces b := ⟨l, rfl, hb⟩
  have hat' : ConformanceAt l'.pieces b' := ⟨l', rfl, hb'⟩
  have hstretch := conformance_delimits.stretch hat p
  rw [← hl, hl', conformance_delimits.stretch hat' p'] at hstretch
  have hsame : l'.pieces = l.pieces := by
    have hfront := congrArg beforeBody (Option.some.inj hstretch)
    rwa [conformance_delimits.front_eq hat, conformance_delimits.front_eq hat'] at hfront
  have hlist : textOf l.list = textOf l'.list := by
    rw [← l.conformancesOf_eq hvalid, ← l'.conformancesOf_eq hvalid', hsame]
  refine ⟨?_, hlist⟩
  have hall := congrArg textOf hsame
  rw [l.pieces_eq, l'.pieces_eq, textOf_append, textOf_append, hlist] at hall
  exact (List.append_cancel_right hall).symm

end Reading

section Matching

theorem Pattern.Found.eq_nil {p : Pattern} {t : Array Char} {i : Nat} {ms : List Match} (h : Found p t i ms)
    (hnone : ∀ k, i ≤ k → k ≤ t.size → p.matchAt t k = none) : ms = [] := by
  induction h with
  | stop => rfl
  | miss _ _ _ ih => exact ih fun k hk => hnone k (by omega)
  | hit hi hm _ _ =>
    rw [hnone _ (Nat.le_refl _) hi] at hm
    cases hm

theorem exists_declarationText {s : List Char} {k : Nat} {M : Match} (hk : k ≤ s.length)
    (h : Legacy.conformance.matchAt s.toArray k = some M) :
    ∃ x₁ x₂ g r, DeclarationText (s.drop k) x₁ x₂ g r ∧ M.start = k ∧ M.stop = k + (x₁ ++ x₂).length ∧
      M.captures = [⟨2, k + x₁.length, k + (x₁ ++ x₂).length⟩, ⟨1, k, k + x₁.length⟩] := by
  obtain ⟨hreach, hstart⟩ := matchAt_eq_some conformance_reads.regular h
  have hlength : (s.take k).length = k := List.length_take_of_le hk
  have hbehind : Reach (s.take k ++ s.drop k).toArray Legacy.conformance ⟨(s.take k).length, []⟩
      ⟨M.stop, M.captures⟩ := by
    rwa [List.take_append_drop, hlength]
  obtain ⟨_, x₁, x₂, g, r, hd, he⟩ := reach_conformance.mp hbehind
  obtain ⟨hstop, hcaptures⟩ := Place.mk.inj he
  refine ⟨x₁, x₂, g, r, hd, hstart, ?_, ?_⟩
  · rw [hstop, List.length_append, hlength]
  · rw [hcaptures, List.length_append, List.length_append, hlength]

end Matching

section Joining

variable (d : ConformingType)

/-- The match over a declaration: its head and its list are taken. -/
def ConformingType.found : Match where
  start := 0
  stop := (d.head ++ d.list).length
  captures := [⟨2, d.head.length, (d.head ++ d.list).length⟩, ⟨1, 0, d.head.length⟩]

theorem ConformingType.matchAt_zero (h : d.hasComma = true) :
    Legacy.conformance.matchAt d.text.toArray 0 = some d.found := by
  have hreach : Reach ([] ++ d.text).toArray Legacy.conformance ⟨([] : List Char).length, []⟩ _ :=
    reach_conformance.mpr ⟨rfl, _, _, _, _, d.declarationText h, rfl⟩
  obtain ⟨M, hM⟩ := Option.isSome_iff_exists.mp (matchAt_isSome conformance_reads.regular hreach)
  obtain ⟨x₁, x₂, g, r, hd, hstart, hstop, hcaptures⟩ := exists_declarationText (Nat.zero_le _) hM
  obtain ⟨rfl, rfl⟩ := hd.unique (d.declarationText h)
  rw [Nat.zero_add] at hstop
  rw [Nat.zero_add, Nat.zero_add] at hcaptures
  have hfound : M = d.found := by
    obtain ⟨start, stop, captures⟩ := M
    rw [ConformingType.found, Match.mk.injEq]
    exact ⟨hstart, hstop, hcaptures⟩
  rw [← hfound]
  exact hM

/-- Behind the list only blanks and a brace are left, and no declaration starts there. -/
theorem ConformingType.matchAt_behind {k : Nat} (hk : (d.head ++ d.list).length ≤ k) (hle : k ≤ d.text.length) :
    Legacy.conformance.matchAt d.text.toArray k = none := by
  by_contra hne
  obtain ⟨M, hM⟩ := Option.ne_none_iff_exists'.mp hne
  obtain ⟨x₁, x₂, g, r, hd, _⟩ := exists_declarationText hle hM
  have hdrop : d.text.drop k = (d.beforeBody ++ ['\x7b']).drop (k - (d.head ++ d.list).length) := by
    rw [ConformingType.text, ← List.append_assoc, List.drop_append, List.drop_eq_nil_of_le hk, List.nil_append]
  have hplain : ∀ c ∈ d.text.drop k, isWord c = false := by
    intro c hc
    rw [hdrop] at hc
    rcases List.mem_append.mp (List.mem_of_mem_drop hc) with hc | hc
    · exact isWord_of_isBlank (d.beforeBody_blank c hc)
    · rw [List.mem_singleton.mp hc]
      decide
  have hstart := hd.startsWord
  cases hrest : d.text.drop k with
  | nil => simp [hrest, Text.startsWord] at hstart
  | cons c v =>
    rw [hrest] at hstart
    have hword : isWord c = true := hstart
    rw [hplain c (by simp [hrest])] at hword
    cases hword

theorem ConformingType.allMatches_text (h : d.hasComma = true) :
    Legacy.conformance.allMatches d.text.toArray = [d.found] := by
  have hfound := found_allMatches (t := d.text.toArray) conformance_reads.regular conformance_reads.advances
  generalize Legacy.conformance.allMatches d.text.toArray = ms at hfound
  cases hfound with
  | stop hsize => omega
  | miss _ hnone _ =>
    rw [d.matchAt_zero h] at hnone
    cases hnone
  | hit _ hM hrest =>
    rw [d.matchAt_zero h] at hM
    cases hM
    rw [hrest.eq_nil fun k hk hle => d.matchAt_behind hk (by simpa using hle)]

theorem ConformingType.matchesOutside_text (h : d.hasComma = true) (skipLiterals : Bool) :
    matchesOutside Legacy.conformance d.text.toArray (skipIndex skipLiterals d.text) = [d.found] := by
  obtain ⟨w, r, hw⟩ := startsWord_iff.mp (d.declarationText h).startsWord
  obtain ⟨htext, hdiv⟩ := pieces_eq_iff.mp hw
  have hcovers : (skipIndex skipLiterals d.text).covers 0 = false := by
    have hreader := covers_skipIndex d.text skipLiterals [] w r htext hdiv
    cases skipLiterals <;> exact hreader
  rw [matchesOutside, d.allMatches_text h, List.filter_cons_of_pos]
  · rfl
  · rw [show d.found.start = 0 from rfl, hcovers]
    rfl

theorem ConformingType.joinConformances_found (h : d.hasComma = true) :
    joinConformances d.found d.text.toArray = d.head ++ Text.join [' ', '&', ' '] d.names := by
  have hjoin := joinConformances_eq (a := []) (d.declarationText h) 0 (d.head ++ d.list).length
  rw [d.conformanceNames_list] at hjoin
  exact hjoin

theorem ConformingType.splice_found :
    splice d.text.toArray 0 [(d.found, d.head ++ Text.join [' ', '&', ' '] d.names)] = d.joined := by
  have hrest : (d.text.toArray.extract (d.head ++ d.list).length d.text.toArray.size).toList =
      d.beforeBody ++ ['\x7b'] := by
    have hbehind := extract_behind (d.head ++ d.list) (d.beforeBody ++ ['\x7b']) []
    rw [List.append_nil, List.append_assoc] at hbehind
    simpa [ConformingType.text] using hbehind
  rw [splice, splice, show d.found.stop = (d.head ++ d.list).length from rfl, hrest]
  simp [ConformingType.joined, ConformingType.found]

/-- A list with a comma is joined, in one change. -/
theorem ConformingType.run_step (h : d.hasComma = true) (skipLiterals : Bool) :
    (Step.target .conformance).run skipLiterals d.text = .ok ⟨d.joined, 1⟩ := by
  have houtside := d.matchesOutside_text h skipLiterals
  have hrewrite : rewriteAll (ε := UpliftError) (fun M t => .ok (joinConformances M t)) d.text.toArray [d.found] =
      .ok [(d.found, d.head ++ Text.join [' ', '&', ' '] d.names)] :=
    rewriteAll_cons (congrArg Except.ok (d.joinConformances_found h)) rfl
  have hload : (Step.target .conformance).load skipLiterals d.text = 1 := congrArg List.length houtside
  have hrun : (Step.target .conformance).run skipLiterals d.text =
      .ok ⟨d.joined, (Step.target .conformance).load skipLiterals d.text⟩ := by
    rw [Step.run, replaceInCode]
    change (rewriteAll (fun M t => .ok (joinConformances M t)) d.text.toArray
      (matchesOutside Legacy.conformance d.text.toArray (skipIndex skipLiterals d.text)) >>= _) = _
    rw [houtside, hrewrite, ← d.splice_found]
    rfl
  rw [hrun, hload]

end Joining

section Leaving

variable (d : ConformingType)

theorem DeclarationText.comma_mem {u x₁ x₂ g r : List Char} (h : DeclarationText u x₁ x₂ g r) : ',' ∈ u := by
  obtain ⟨l, b, p, _, hlist, _, _, _⟩ := h.pieces
  obtain ⟨e, he, hmark⟩ := l.has_comma
  have hpiece : Piece.symbol ',' ∈ l.item ++ l.entries.flatMap Entry.pieces := by
    refine List.mem_append_right _ (List.mem_flatMap.mpr ⟨e, he, ?_⟩)
    simp [Entry.pieces, hmark]
  have hcomma : ',' ∈ x₂ := by
    rw [← hlist]
    exact List.mem_flatMap.mpr ⟨_, hpiece, by simp [Piece.text]⟩
  rw [h.eq]
  simp [hcomma]

theorem AllBlank.comma_not_mem {g : List Char} (hg : AllBlank g) : ',' ∉ g := by
  intro h
  exact absurd (hg _ h) (by decide)

theorem IsConformanceName.comma_not_mem {w : List Char} (h : IsConformanceName w) : ',' ∉ w := by
  obtain ⟨c, v, rfl, hc, hv⟩ := h
  rw [List.mem_cons, not_or]
  refine ⟨?_, ?_⟩
  · rintro rfl
    exact absurd hc (by decide)
  · intro hcomma
    rcases hv _ hcomma with hword | hdot
    · exact absurd hword (by decide)
    · exact absurd hdot (by decide)

theorem Conformance.comma_not_mem {c : Conformance} (h : c.mark ≠ ',') : ',' ∉ c.text := by
  simp [Conformance.text, c.before_blank.comma_not_mem, c.after_blank.comma_not_mem, c.name_ok.comma_not_mem, h.symm]

theorem ConformingType.comma_not_mem_head : ',' ∉ d.head := by
  have hkind : ',' ∉ d.kind := (by decide : ∀ w ∈ Word.types, ',' ∉ w) d.kind d.kind_ok
  have hinterface : ',' ∉ d.interfaceWord := by
    unfold interfaceWord
    split
    next g hg =>
      rw [List.mem_append, not_or]
      exact ⟨(d.interfaceGap_ok g hg).2.comma_not_mem, by decide⟩
    next => simp
  have hname : ',' ∉ d.name := by
    obtain ⟨c, v, hname, hc, hv⟩ := d.name_ok
    exact IsConformanceName.comma_not_mem ⟨c, v, hname, hc, fun x hx => .inl (hv x hx)⟩
  simp [head, hkind, hinterface, hname, d.gap_ok.2.comma_not_mem, d.beforeColon_blank.comma_not_mem,
    d.afterColon_blank.comma_not_mem]

theorem ConformingType.comma_not_mem (h : d.hasComma = false) : ',' ∉ d.text := by
  have hlist : ',' ∉ d.list := by
    rw [ConformingType.list, List.mem_append, not_or]
    refine ⟨d.first_ok.comma_not_mem, ?_⟩
    intro hcomma
    obtain ⟨c, hc, hmem⟩ := List.mem_flatMap.mp hcomma
    have hmark := List.any_eq_false.mp h c hc
    exact Conformance.comma_not_mem (by simpa using hmark) hmem
  simp [ConformingType.text, d.comma_not_mem_head, hlist, d.beforeBody_blank.comma_not_mem]

theorem ConformingType.load_zero (h : d.hasComma = false) (skipLiterals : Bool) :
    (Step.target .conformance).load skipLiterals d.text = 0 := by
  refine List.length_eq_zero_iff.mpr (List.eq_nil_iff_forall_not_mem.mpr ?_)
  intro M hM
  obtain ⟨hsize, hmatch⟩ := matchAt_of_mem_allMatches conformance_reads.regular conformance_reads.advances
    (List.mem_of_mem_filter hM)
  obtain ⟨x₁, x₂, g, r, hd, _⟩ := exists_declarationText (by simpa using hsize) hmatch
  exact d.comma_not_mem h (List.mem_of_mem_drop hd.comma_mem)

end Leaving

theorem stepsOf_interface : stepsOf (.text Category.interface.name) = [.target .conformance] := by decide +kernel

/-- With the starting rules and any options, the pass for interfaces ends on every declaration with a conformance list.
If some separator of the list is a comma, the names are joined by ampersands, all of them and in order, with everything
around the list as it was, and this counts as one change; a list without a comma stays as it is. -/
theorem upliftPass_joins_whole_list [CharacterNames] (o : RunOptions) (d : ConformingType) :
    (RuleSet.mk o Rule.defaults).upliftPass (.text Category.interface.name) d.text =
      .ok (if d.hasComma then ⟨d.joined, 1⟩ else ⟨d.text, 0⟩) := by
  rw [upliftPass_eq, stepsOf_interface]
  cases h : d.hasComma with
  | true =>
    have hrun := d.run_step h o.preserves
    rw [Step.run_eq] at hrun
    exact hrun
  | false =>
    have hload := d.load_zero h o.preserves
    have hafter := Step.after_unchanged hload
    simp [afterSteps, loadOfSteps, hload, hafter]

example : (Step.target .conformance).after true "struct interface S: A,\n  B.C & D \x7b".toList =
    "struct interface S: A & B.C & D \x7b".toList := by
  decide +kernel

end CadenceUplift
