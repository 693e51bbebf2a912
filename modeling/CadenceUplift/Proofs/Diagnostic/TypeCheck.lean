import CadenceUplift.Proofs.Construct.Rewriting
import CadenceUplift.Proofs.Diagnostic.TypeText

namespace CadenceUplift

open Text Pattern

section Whole

variable {p : Pattern} {u : List Char}

theorem fullMatch_eq_some (hp : p.isRegular = true) {M : Match} (h : p.fullMatch u.toArray = some M) :
    Reach u.toArray p ⟨0, []⟩ ⟨u.length, M.captures⟩ := by
  obtain ⟨s, hs, rfl⟩ := Option.map_eq_some_iff.mp h
  obtain ⟨e, he, hk⟩ := run_sound hp hs
  split at hk
  next hsize =>
    obtain rfl := Option.some.inj hk
    have hpos : e.pos = u.length := by simpa using hsize
    rwa [← hpos]
  next => cases hk

theorem fullMatch_isSome (hp : p.isRegular = true) {cs : List Capture}
    (h : Reach u.toArray p ⟨0, []⟩ ⟨u.length, cs⟩) : (p.fullMatch u.toArray).isSome := by
  have hrun := run_complete hp (k := fun s => if s.pos == u.toArray.size then some s else none) h (by simp)
  rw [fullMatch, matchAtWith, Option.isSome_map]
  exact hrun

/-- A textual pattern matches a whole text just if it spells it. -/
theorem fullMatch_textual (hp : p.isRegular = true) (ht : p.isTextual = true) :
    (p.fullMatch u.toArray).isSome = true ↔ u ∈ p.language := by
  have hreach {cs : List Capture} : Reach ([] ++ u).toArray p ⟨([] : List Char).length, []⟩ ⟨u.length, cs⟩ ↔
      u ∈ p.language ∧ cs = [] := by
    rw [reach_textual ht]
    constructor
    · rintro ⟨x, r, rfl, hx, he⟩
      obtain ⟨hlength, hcs⟩ := Place.mk.inj he
      obtain rfl : r = [] := List.eq_nil_of_length_eq_zero (by simpa using hlength)
      exact ⟨by simpa using hx, hcs⟩
    · rintro ⟨hu, rfl⟩
      exact ⟨u, [], by simp, hu, rfl⟩
  constructor
  · intro h
    obtain ⟨M, hM⟩ := Option.isSome_iff_exists.mp h
    exact (hreach.mp (fullMatch_eq_some hp hM)).1
  · intro hu
    exact fullMatch_isSome hp (hreach.mpr ⟨hu, rfl⟩)

end Whole

section Shapes

theorem mem_language_capital {u : List Char} : u ∈ capital.language ↔ ∃ c, ('A' ≤ c ∧ c ≤ 'Z') ∧ u = [c] := by
  rw [capital, mem_language_member]
  simp [CharSet.holds, CharItem.holds]

theorem mem_language_dotName {u : List Char} :
    u ∈ dotName.language ↔ ∃ w, u = '.' :: w ∧ w ∈ (all Legacy.plainName).language := by
  rw [dotName, mem_language_all_cons]
  simp only [mem_language_char]
  constructor
  · rintro ⟨_, w, rfl, rfl, hw⟩
    exact ⟨w, rfl, hw⟩
  · rintro ⟨w, rfl, hw⟩
    exact ⟨['.'], w, rfl, rfl, hw⟩

theorem NominalName.mem_language (n : NominalName) : n.text ∈ nominalType.language := by
  refine mem_language_all_cons.mpr ⟨[n.initial], _, rfl, mem_language_capital.mpr ⟨_, n.initial_capital, rfl⟩, ?_⟩
  refine mem_language_all_cons.mpr ⟨n.rest, _, rfl, ?_, ?_⟩
  · exact mem_language_many_word.mpr fun c hc => isWord_of_isAsciiWord (n.rest_ok c hc)
  · refine mem_language_all_singleton.mpr (mem_language_many.mpr ⟨n.parts.map fun p => '.' :: p.1 :: p.2, ?_, ?_⟩)
    · rw [List.flatMap_def]
    · intro v hv
      obtain ⟨p, hp, rfl⟩ := List.mem_map.mp hv
      obtain ⟨hstart, hrest⟩ := n.parts_ok p hp
      refine mem_language_dotName.mpr ⟨_, rfl, mem_language_plainName.mpr ⟨⟨by simp, ?_⟩, hstart⟩⟩
      exact List.forall_mem_cons.mpr ⟨isWord_of_isNameStart hstart, fun c hc => isWord_of_isAsciiWord (hrest c hc)⟩

theorem chars_of_mem_nominalType {u : List Char} (h : u ∈ nominalType.language) :
    (∃ c v, u = c :: v ∧ 'A' ≤ c ∧ c ≤ 'Z') ∧ ∀ c ∈ u, isWord c = true ∨ c = '.' := by
  obtain ⟨_, _, rfl, hx, hy⟩ := mem_language_all_cons.mp h
  obtain ⟨c, hc, rfl⟩ := mem_language_capital.mp hx
  obtain ⟨w, y, rfl, hw, hy⟩ := mem_language_all_cons.mp hy
  obtain ⟨us, rfl, hus⟩ := mem_language_many.mp (mem_language_all_singleton.mp hy)
  refine ⟨⟨c, _, rfl, hc⟩, ?_⟩
  intro d hd
  simp only [List.mem_append, List.mem_singleton, List.mem_flatten] at hd
  rcases hd with rfl | hd | ⟨v, hv, hd⟩
  · exact .inl (isWord_of_upper hc)
  · exact .inl (mem_language_many_word.mp hw d hd)
  · obtain ⟨x, rfl, hx⟩ := mem_language_dotName.mp (hus v hv)
    rcases List.mem_cons.mp hd with rfl | hd
    · exact .inr rfl
    · exact .inl ((mem_language_plainName.mp hx).1.2 d hd)

/-- Generic types with the set of characters but newlines in the place of any character. -/
def genericShape : Pattern :=
  all [.group 1 nominalType, .char '<', .group 2 (many1 (except "\n")), .char '>']

theorem holds_except_newline (c : Char) :
    CharSet.holds { negated := true, items := "\n".toList.map .single } c = (c != '\n') := by
  have hcomm : ('\n' == c) = (c == '\n') := Bool.beq_comm
  simp [CharSet.holds, CharItem.holds, hcomm, bne]

theorem fullMatch_genericType (t : Array Char) : genericType.fullMatch t = genericShape.fullMatch t := by
  have hset := funext holds_except_newline
  simp only [fullMatch, matchAtWith, genericType, genericShape, all, many1, except, run, hset]

/-- Where the pattern of generic types gets to: behind an angle bracket, with name and arguments taken. -/
theorem reach_genericShape {u : List Char} {e : Place} :
    Reach u.toArray genericShape ⟨0, []⟩ e ↔
      ∃ x y r, u = x ++ '<' :: (y ++ '>' :: r) ∧ x ∈ nominalType.language ∧ (y ≠ [] ∧ '\n' ∉ y) ∧
        e = ⟨(x ++ '<' :: (y ++ ['>'])).length,
          [⟨2, (x ++ ['<']).length, (x ++ '<' :: y).length⟩, ⟨1, 0, x.length⟩]⟩ := by
  have hname : nominalType.isTextual = true := by decide
  have harguments : (many1 (except "\n")).isTextual = true := by decide
  have hmark (c : Char) : (Pattern.char c).isTextual = true := rfl
  have hlanguage (y : List Char) : y ∈ (many1 (except "\n")).language ↔ y ≠ [] ∧ '\n' ∉ y := by
    rw [except, mem_language_many1_member]
    simp only [holds_except_newline, bne_iff_ne]
    exact and_congr_right' ⟨fun h hmem => h _ hmem rfl, fun h c hc hline => h (hline ▸ hc)⟩
  change Reach ([] ++ u).toArray genericShape ⟨([] : List Char).length, []⟩ e ↔ _
  rw [genericShape, reach_group_cons hname]
  simp only [reach_textual_cons (hmark _), reach_group_cons harguments, reach_all_nil, mem_language_char, hlanguage]
  constructor
  · rintro ⟨x, _, rfl, hx, _, _, rfl, rfl, y, _, rfl, hy, _, r, rfl, rfl, rfl⟩
    exact ⟨x, y, r, by simp, hx, hy, by simp⟩
  · rintro ⟨x, y, r, rfl, hx, hy, rfl⟩
    exact ⟨x, _, rfl, hx, ['<'], _, rfl, rfl, y, _, rfl, hy, ['>'], r, rfl, rfl, by simp⟩

theorem genericShape_regular : genericShape.isRegular = true := by decide

/-- A name with arguments is matched, and the arguments are what stands between the outermost angle brackets. -/
theorem NominalName.fullMatch_generic (n : NominalName) {y : List Char} (hne : y ≠ []) (hline : '\n' ∉ y) :
    ∃ M, genericType.fullMatch (n.text ++ '<' :: (y ++ ['>'])).toArray = some M ∧
      M.groupText (n.text ++ '<' :: (y ++ ['>'])).toArray 2 = y := by
  rw [fullMatch_genericType]
  have hreach := reach_genericShape.mpr ⟨n.text, y, [], rfl, n.mem_language, ⟨hne, hline⟩, rfl⟩
  obtain ⟨M, hM⟩ := Option.isSome_iff_exists.mp (fullMatch_isSome genericShape_regular hreach)
  refine ⟨M, hM, ?_⟩
  obtain ⟨x, y', r, htext, hx, _, he⟩ := reach_genericShape.mp (fullMatch_eq_some genericShape_regular hM)
  obtain ⟨hlength, hcaptures⟩ := Place.mk.inj he
  have hbracket {w : List Char} (h : w ∈ nominalType.language) : '<' ∉ w := by
    intro hmem
    rcases (chars_of_mem_nominalType h).2 _ hmem with hword | hdot
    · exact absurd hword (by decide)
    · exact absurd hdot (by decide)
  obtain ⟨rfl, hrest⟩ := append_cons_inj_of_not_mem (hbracket n.mem_language) (hbracket hx) htext
  obtain rfl : r = [] := by
    have hends := congrArg List.length hrest
    simp only [List.length_append, List.length_cons, List.length_nil] at hlength hends
    exact List.eq_nil_of_length_eq_zero (by omega)
  obtain rfl : y = y' := List.append_cancel_right hrest
  have hextract := extract_behind (n.text ++ ['<']) y ['>']
  rw [Match.groupText, Match.capture?, hcaptures]
  simpa using hextract

theorem Named.fullMatch_generic {u : List Char} (h : Named u) : genericType.fullMatch u.toArray = none := by
  rw [fullMatch_genericType, Option.eq_none_iff_forall_ne_some]
  intro M hM
  obtain ⟨x, y, r, rfl, _⟩ := reach_genericShape.mp (fullMatch_eq_some genericShape_regular hM)
  have hbracket := h.chars '<' (by simp)
  exact absurd hbracket (by decide)

end Shapes

section Branches

variable {u : List Char} {fuel : Nat}

theorem isEventTypeWithin_optional (hu : Edged (u ++ ['?'])) :
    isEventTypeWithin (fuel + 1) (u ++ ['?']) = isEventTypeWithin fuel u := by
  rw [isEventTypeWithin]
  simp [hu.trim]

theorem isEventTypeWithin_reference (hu : Edged ('&' :: u)) (hlast : endsWith ('&' :: u) ['?'] = false) :
    isEventTypeWithin (fuel + 1) ('&' :: u) = isEventTypeWithin fuel u := by
  rw [isEventTypeWithin]
  simp [hu.trim, hlast]

theorem isEventTypeWithin_bracketed :
    isEventTypeWithin (fuel + 1) ('[' :: (u ++ [']'])) = isEventTypeWithin fuel (u.takeWhile (· != ';')) := by
  have hedged : Edged ('[' :: (u ++ [']'])) := edged_of_ends u (by decide) (by decide)
  rw [isEventTypeWithin]
  simp [hedged.trim]

theorem isEventTypeWithin_braced {key value : Part} (h : topLevelParts u ':' = [key, value]) :
    isEventTypeWithin (fuel + 1) ('\x7b' :: (u ++ ['\x7d'])) =
      (isEventTypeWithin fuel key.text && isEventTypeWithin fuel value.text) := by
  have hedged : Edged ('\x7b' :: (u ++ ['\x7d'])) := edged_of_ends u (by decide) (by decide)
  rw [isEventTypeWithin]
  simp [hedged.trim, h]

/-- What starts with a capital letter and is no optional is valid as a primitive, generic or nominal type. -/
theorem isEventTypeWithin_capital {c : Char} (hc : 'A' ≤ c ∧ c ≤ 'Z') (hedged : Edged (c :: u))
    (hlast : endsWith (c :: u) ['?'] = false)
    (hkind : primitiveTypes.contains (String.ofList (c :: u)) = false →
      (∃ M, genericType.fullMatch (c :: u).toArray = some M ∧
        ∀ p ∈ topLevelParts (M.groupText (c :: u).toArray 2) ',', isEventTypeWithin fuel p.text = true) ∨
      genericType.fullMatch (c :: u).toArray = none ∧ (nominalType.fullMatch (c :: u).toArray).isSome = true) :
    isEventTypeWithin (fuel + 1) (c :: u) = true := by
  have hmark {d : Char} (hd : ¬('A' ≤ d ∧ d ≤ 'Z')) : startsWith (c :: u) [d] = false := by
    rw [startsWith_cons, beq_eq_false_iff_ne]
    rintro rfl
    exact hd hc
  have hreference := hmark (d := '&') (by decide)
  have harray := hmark (d := '[') (by decide)
  have hdictionary := hmark (d := '\x7b') (by decide)
  rw [isEventTypeWithin]
  simp only [hedged.trim, hlast, hreference, harray, hdictionary, List.isEmpty_cons, Bool.false_and, Bool.false_eq_true,
    if_false]
  split
  · rfl
  next hprimitive =>
    rcases hkind (Bool.eq_false_iff.mpr hprimitive) with ⟨M, hM, hparts⟩ | ⟨hnone, hnominal⟩
    · rw [hM]
      exact List.all_eq_true.mpr hparts
    · rw [hnone, hnominal]
      rfl

theorem Named.isEventTypeWithin (h : Named u)
    (hname : primitiveTypes.contains (String.ofList u) = false → (nominalType.fullMatch u.toArray).isSome = true) :
    isEventTypeWithin (fuel + 1) u = true := by
  have hlast := h.not_endsWith (d := '?') (by decide)
  have hgeneric := h.fullMatch_generic
  have hedged := h.edged
  obtain ⟨c, v, rfl, hc⟩ := h.capital
  exact isEventTypeWithin_capital hc hedged hlast fun hprimitive => .inr ⟨hgeneric, hname hprimitive⟩

theorem NominalName.isEventTypeWithin_arguments (n : NominalName) (hne : u ≠ []) (hline : '\n' ∉ u)
    (hparts : ∀ v ∈ (topLevelParts u ',').map Part.text, isEventTypeWithin fuel v = true) :
    isEventTypeWithin (fuel + 1) (n.text ++ '<' :: (u ++ ['>'])) = true := by
  obtain ⟨M, hM, hgroup⟩ := n.fullMatch_generic hne hline
  have hends : n.text ++ '<' :: (u ++ ['>']) = (n.text ++ '<' :: u) ++ ['>'] := by simp
  refine isEventTypeWithin_capital n.initial_capital ?_ ?_ fun _ => .inl ⟨M, hM, ?_⟩
  · exact (congrArg Edged hends).mpr (n.named.edged.append_concat _ (by decide))
  · exact endsWith_append_cons_concat n.text '<' '>' '?' u
  · intro p hp
    refine hparts p.text (List.mem_map_of_mem ?_)
    rwa [← hgroup]

end Branches

namespace EventType

theorem isEventTypeWithin_array {t : EventType} (h : t.hasSized = false) (fuel : Nat) :
    isEventTypeWithin (fuel + 1) (array t).text = isEventTypeWithin fuel t.text := by
  rw [text, isEventTypeWithin_bracketed]
  exact congrArg (isEventTypeWithin fuel) (takeWhile_text (List.forall_mem_nil _) h)

theorem isEventTypeWithin_sized {t : EventType} (h : t.hasSized = false) (size : Numeral) (fuel : Nat) :
    isEventTypeWithin (fuel + 1) (sized t size).text = isEventTypeWithin fuel t.text := by
  rw [text, isEventTypeWithin_bracketed]
  exact congrArg (isEventTypeWithin fuel) (takeWhile_text_semicolon (List.forall_mem_nil _) h (' ' :: size.digits))

theorem isEventTypeWithin_dictionary (key value : EventType) (fuel : Nat) :
    isEventTypeWithin (fuel + 1) (dictionary key value).text =
      (isEventTypeWithin fuel key.text && isEventTypeWithin fuel value.text) := by
  have htexts := texts_dictionary key value
  obtain ⟨p, ps, hp, hkey, hps⟩ := List.map_eq_cons_iff.mp htexts
  obtain ⟨q, qs, rfl, hvalue, hqs⟩ := List.map_eq_cons_iff.mp hps
  rw [List.map_eq_nil_iff.mp hqs] at hp
  rw [text, isEventTypeWithin_braced hp, hkey, hvalue]

theorem isEventTypeWithin_generic (name : NominalName) {first : EventType} {others : List EventType} {fuel : Nat}
    (h : ∀ t ∈ first :: others, isEventTypeWithin fuel t.text = true) :
    isEventTypeWithin (fuel + 1) (generic name first others).text = true := by
  refine name.isEventTypeWithin_arguments ?_ ?_ ?_
  · exact List.append_ne_nil_of_left_ne_nil first.edged_text.ne_nil _
  · rw [List.mem_append, not_or, textBehind_eq]
    refine ⟨first.newline_not_mem, ?_⟩
    intro hline
    obtain ⟨t, _, hline⟩ := List.mem_flatMap.mp hline
    exact t.newline_not_mem (by simpa using hline)
  · rw [texts_arguments, ← List.map_cons]
    intro v hv
    obtain ⟨t, ht, rfl⟩ := List.mem_map.mp hv
    exact h t ht

/-- A type with plain elements in all its arrays is valid. -/
theorem isEventTypeWithin_text {fuel : Nat} {t : EventType} (hplain : t.plainElements = true)
    (hfuel : t.text.length < fuel) : isEventTypeWithin fuel t.text = true := by
  induction fuel generalizing t with
  | zero => omega
  | succ fuel ih =>
    have hedged := t.edged_text
    by_cases hmark : endsWith t.text ['?'] = true
    · obtain ⟨s, hs, hsplain, _⟩ := exists_optional hmark
      rw [hs] at hfuel hedged ⊢
      rw [isEventTypeWithin_optional hedged]
      refine ih (hsplain hplain) ?_
      rw [List.length_append, List.length_singleton] at hfuel
      omega
    cases t with
    | primitive name known =>
      refine (named_primitive known).isEventTypeWithin fun hnot => ?_
      have hcontains : primitiveTypes.contains (String.ofList name.toList) = true := by simpa using known
      rw [hcontains] at hnot
      cases hnot
    | nominal name =>
      refine name.named.isEventTypeWithin fun _ => ?_
      exact (fullMatch_textual (by decide) (by decide)).mpr name.mem_language
    | optional t => exact absurd (endsWith_concat '?' '?' t.text) hmark
    | reference t =>
      rw [text] at hmark hedged hfuel ⊢
      rw [isEventTypeWithin_reference hedged (Bool.eq_false_iff.mpr hmark)]
      exact ih hplain (Nat.lt_of_succ_lt_succ hfuel)
    | array t =>
      have hsized : t.hasSized = false := by simpa [plainElements] using hplain
      rw [isEventTypeWithin_array hsized]
      simp only [text, List.length_append, List.length_cons] at hfuel
      exact ih (plainElements_of_sizeless hsized) (by omega)
    | sized t size =>
      have hsized : t.hasSized = false := by simpa [plainElements] using hplain
      rw [isEventTypeWithin_sized hsized]
      simp only [text, List.length_append, List.length_cons] at hfuel
      exact ih (plainElements_of_sizeless hsized) (by omega)
    | dictionary key value =>
      obtain ⟨hkey, hvalue⟩ := Bool.and_eq_true_iff.mp hplain
      simp only [text, List.length_append, List.length_cons] at hfuel
      rw [isEventTypeWithin_dictionary, ih hkey (by omega), ih hvalue (by omega)]
      rfl
    | generic name first others =>
      obtain ⟨hfirst, hothers⟩ := Bool.and_eq_true_iff.mp hplain
      simp only [text, List.length_append, List.length_cons] at hfuel
      refine isEventTypeWithin_generic name (List.forall_mem_cons.mpr ⟨ih hfirst (by omega), ?_⟩)
      intro t ht
      have hlength := length_le_of_mem ht
      exact ih (allPlainElements_iff.mp hothers t ht) (by omega)

end EventType

section LeftOpen

variable {u : List Char} {fuel : Nat}

/-- A bracket that no bracket closes at the end starts no type. -/
theorem isEventTypeWithin_left_open (hedged : Edged ('[' :: u)) (hoptional : endsWith ('[' :: u) ['?'] = false)
    (harray : endsWith ('[' :: u) [']'] = false) : isEventTypeWithin (fuel + 1) ('[' :: u) = false := by
  have hcapital : ∀ c v, '[' :: u = c :: v → ¬('A' ≤ c ∧ c ≤ 'Z') := by
    intro c v hc
    obtain ⟨rfl, _⟩ := List.cons.inj hc
    decide
  have hprimitive : primitiveTypes.contains (String.ofList ('[' :: u)) = false := by
    rw [Bool.eq_false_iff]
    intro hmem
    have hnamed := named_primitive (List.contains_iff_mem.mp hmem)
    rw [String.toList_ofList] at hnamed
    obtain ⟨c, v, hc, hupper⟩ := hnamed.capital
    exact hcapital c v hc hupper
  have hgeneric : genericType.fullMatch ('[' :: u).toArray = none := by
    rw [fullMatch_genericType, Option.eq_none_iff_forall_ne_some]
    intro M hM
    obtain ⟨x, y, r, htext, hx, _⟩ := reach_genericShape.mp (fullMatch_eq_some genericShape_regular hM)
    obtain ⟨⟨c, v, rfl, hupper⟩, _⟩ := chars_of_mem_nominalType hx
    exact hcapital c _ htext hupper
  have hnominal : (nominalType.fullMatch ('[' :: u).toArray).isSome = false := by
    rw [Bool.eq_false_iff]
    intro hsome
    obtain ⟨⟨c, v, hc, hupper⟩, _⟩ :=
      chars_of_mem_nominalType ((fullMatch_textual (by decide) (by decide)).mp hsome)
    exact hcapital c v hc hupper
  have hdotted : (dottedType.fullMatch ('[' :: u).toArray).isSome = false := by
    rw [Bool.eq_false_iff]
    intro hsome
    have hmem := (fullMatch_textual (by decide) (by decide)).mp hsome
    rw [dottedType, mem_language_all_append] at hmem
    obtain ⟨x, y, htext, hx, _⟩ := hmem
    obtain ⟨⟨hne, _⟩, hopens⟩ := mem_language_plainName.mp hx
    obtain ⟨c, v, rfl⟩ := List.exists_cons_of_ne_nil hne
    obtain ⟨rfl, _⟩ := List.cons.inj htext
    exact absurd (show isNameStart '[' = true from hopens) (by decide)
  rw [isEventTypeWithin]
  simp only [hedged.trim, hoptional, harray, hprimitive, hgeneric, hnominal, hdotted, startsWith_cons]
  rfl

end LeftOpen

namespace EventType

/-- Brackets that are opened in front of a type without sizes, and not closed behind it, make it no type: an array that
ends the text closes the first of them in place of its own. -/
theorem isEventTypeWithin_unclosed {pre : List Char} {t : EventType} (hpre : ∀ c ∈ pre, c = '[' ∨ c = '&')
    (hopen : '[' ∈ pre) (hsized : t.hasSized = false) (fuel : Nat) :
    isEventTypeWithin fuel (pre ++ t.text) = false := by
  induction fuel generalizing pre t with
  | zero => rfl
  | succ fuel ih =>
    have hedged := edged_append_text hpre t
    obtain ⟨b, pre, rfl⟩ := List.exists_cons_of_ne_nil (List.ne_nil_of_mem hopen)
    have hends (d : Char) : endsWith (b :: pre ++ t.text) [d] = endsWith t.text [d] :=
      endsWith_append _ t.edged_text.ne_nil d
    by_cases hmark : endsWith t.text ['?'] = true
    · obtain ⟨s, hs, _, hssized⟩ := exists_optional hmark
      rw [hs, ← List.append_assoc] at hedged ⊢
      rw [isEventTypeWithin_optional hedged]
      exact ih hpre hopen (hssized hsized)
    obtain ⟨hb, hrest⟩ := List.forall_mem_cons.mp hpre
    rcases hb with rfl | rfl
    · by_cases hclose : endsWith t.text [']'] = true
      · obtain ⟨amps, s, hs, hamps, hssized⟩ := exists_array hsized hclose
        have hinside : '[' :: pre ++ t.text = '[' :: ((pre ++ amps ++ ['['] ++ s.text) ++ [']']) := by
          rw [hs]
          simp
        have hpre' : ∀ c ∈ pre ++ amps ++ ['['], c = '[' ∨ c = '&' := by
          simp only [List.forall_mem_append, List.forall_mem_singleton]
          exact ⟨⟨hrest, fun c hc => .inr (hamps c hc)⟩, by simp⟩
        rw [hinside, isEventTypeWithin_bracketed, takeWhile_text hpre' hssized]
        exact ih hpre' (by simp) hssized
      · refine isEventTypeWithin_left_open hedged ?_ ?_
        · exact (hends '?').trans (Bool.eq_false_iff.mpr hmark)
        · exact (hends ']').trans (Bool.eq_false_iff.mpr hclose)
    · rw [List.cons_append] at hedged ⊢
      rw [isEventTypeWithin_reference hedged ((hends '?').trans (Bool.eq_false_iff.mpr hmark))]
      exact ih hrest (by simpa using hopen) hsized

/-- An array is cut at the first semicolon within its element, and what is left of the element is no type. -/
theorem not_isEventType_bracketed {t : EventType} (h : t.leadsToSized = true) (r : List Char) :
    isEventType ('[' :: (t.text ++ r ++ [']'])) = false := by
  obtain ⟨pre, s, r', hcut, hpre, hopen, hsized⟩ := exists_cut h
  have hinside : (t.text ++ r).takeWhile (· != ';') = pre ++ s.text := by
    rw [hcut, List.append_assoc, List.cons_append, takeWhile_text_semicolon hpre hsized]
  rw [isEventType, isEventTypeWithin_bracketed, hinside]
  exact isEventTypeWithin_unclosed hpre hopen hsized _

end EventType

/-- A type is valid if no array in it, sized or not, has a sized array within its element. If a type leads through
arrays, optionals and references alone to its first sized array, then no array of this type is valid. -/
theorem isEventType_of_grammar (t : EventType) :
    (t.plainElements = true → isEventType t.text = true) ∧
      (t.leadsToSized = true →
        isEventType (EventType.array t).text = false ∧ ∀ size, isEventType (EventType.sized t size).text = false) := by
  refine ⟨fun hplain => EventType.isEventTypeWithin_text hplain (Nat.lt_succ_self _), fun hleads => ⟨?_, ?_⟩⟩
  · have harray := EventType.not_isEventType_bracketed hleads []
    rwa [List.append_nil] at harray
  · intro size
    exact EventType.not_isEventType_bracketed hleads (';' :: ' ' :: size.digits)

/-- The name of a type of vaults. -/
def vaultName : NominalName := ⟨'V', "ault".toList, [], by decide, List.all_eq_true.mp (by decide), by simp⟩

/-- The number three. -/
def three : Numeral := ⟨['3'], by simp, List.all_eq_true.mp (by decide)⟩

/-- References and sized arrays in a dictionary, and optional arrays with a size. -/
theorem isEventType_of_grammar_nested :
    let int : EventType := .primitive "Int" (by decide)
    let balances : EventType := .dictionary (.optional (.reference (.nominal vaultName))) (.sized int three)
    (balances.plainElements = true ∧ isEventType "\x7b&Vault?: [Int; 3]\x7d".toList = true) ∧
      (EventType.optional (.sized int three)).leadsToSized = true ∧ isEventType "[[Int; 3]?; 3]".toList = false := by
  intro int balances
  have hplain : balances.plainElements = true := rfl
  have hleads : (EventType.optional (.sized int three)).leadsToSized = true := rfl
  have hbalances := (isEventType_of_grammar balances).1 hplain
  have harray := ((isEventType_of_grammar (EventType.optional (.sized int three))).2 hleads).2 three
  exact ⟨⟨hplain, hbalances⟩, hleads, harray⟩

/-- A sized array of sized arrays is written within the grammar and is not valid. -/
theorem isEventType_sized_twice :
    ∃ t : EventType, t.text = "[[Int; 3]; 3]".toList ∧ isEventType t.text = false := by
  refine ⟨.sized (.sized (.primitive "Int" (by decide)) three) three, ?_, ?_⟩ <;> decide +kernel

end CadenceUplift
