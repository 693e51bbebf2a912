import CadenceUplift.Diagnostic.EventType
import CadenceUplift.Proofs.Matching.Conformance

namespace CadenceUplift

open Text Pattern

/-- A capitalised name, perhaps with dotted parts. -/
structure NominalName where
  initial : Char
  rest : List Char
  /-- The dotted parts: the first character of each, and the others. -/
  parts : List (Char × List Char)
  initial_capital : 'A' ≤ initial ∧ initial ≤ 'Z'
  rest_ok : ∀ c ∈ rest, isAsciiWord c = true
  parts_ok : ∀ p ∈ parts, isNameStart p.1 = true ∧ ∀ c ∈ p.2, isAsciiWord c = true

/-- The name as it is written. -/
def NominalName.text (n : NominalName) : List Char := n.initial :: (n.rest ++ n.parts.flatMap fun p => '.' :: p.1 :: p.2)

/-- A number in decimal digits. -/
structure Numeral where
  digits : List Char
  nonempty : digits ≠ []
  digits_ok : ∀ c ∈ digits, c.isDigit = true

/-- The types that the parameters of events can have. -/
inductive EventType where
  | primitive (name : String) (known : name ∈ primitiveTypes)
  | nominal (name : NominalName)
  | optional (t : EventType)
  | reference (t : EventType)
  | array (t : EventType)
  | sized (t : EventType) (size : Numeral)
  | dictionary (key value : EventType)
  | generic (name : NominalName) (first : EventType) (others : List EventType)

namespace EventType

mutual

/-- The type as it is written, on one line. -/
def text : EventType → List Char
  | primitive name _ => name.toList
  | nominal name => name.text
  | optional t => t.text ++ ['?']
  | reference t => '&' :: t.text
  | array t => '[' :: (t.text ++ [']'])
  | sized t size => '[' :: (t.text ++ ';' :: ' ' :: size.digits ++ [']'])
  | dictionary key value => '\x7b' :: (key.text ++ ':' :: ' ' :: value.text ++ ['\x7d'])
  | generic name first others => name.text ++ '<' :: (first.text ++ textBehind others ++ ['>'])

/-- The arguments of a generic type behind the first one. -/
def textBehind : List EventType → List Char
  | [] => []
  | t :: ts => ',' :: ' ' :: t.text ++ textBehind ts

end

mutual

/-- Some array in the type has a size. -/
def hasSized : EventType → Bool
  | primitive _ _ | nominal _ => false
  | optional t | reference t | array t => t.hasSized
  | sized _ _ => true
  | dictionary key value => key.hasSized || value.hasSized
  | generic _ first others => first.hasSized || anySized others

/-- Some array in one of the types has a size. -/
def anySized : List EventType → Bool
  | [] => false
  | t :: ts => t.hasSized || anySized ts

end

mutual

/-- No array in the type, sized or not, has a sized array within its element. -/
def plainElements : EventType → Bool
  | primitive _ _ | nominal _ => true
  | optional t | reference t => t.plainElements
  | array t | sized t _ => !t.hasSized
  | dictionary key value => key.plainElements && value.plainElements
  | generic _ first others => first.plainElements && allPlainElements others

/-- No array in the types has a sized array within its element. -/
def allPlainElements : List EventType → Bool
  | [] => true
  | t :: ts => t.plainElements && allPlainElements ts

end

/-- The type leads through arrays, optionals and references alone to a sized array with no other one within it. -/
def leadsToSized : EventType → Bool
  | optional t | reference t | array t => t.leadsToSized
  | sized t _ => t.leadsToSized || !t.hasSized
  | _ => false

/-- Induction over types and the arguments in them. -/
@[elab_as_elim, induction_eliminator]
theorem induct {motive : EventType → Prop} (primitive : ∀ name known, motive (primitive name known))
    (nominal : ∀ name, motive (nominal name)) (optional : ∀ t, motive t → motive (optional t))
    (reference : ∀ t, motive t → motive (reference t)) (array : ∀ t, motive t → motive (array t))
    (sized : ∀ t size, motive t → motive (sized t size))
    (dictionary : ∀ key value, motive key → motive value → motive (dictionary key value))
    (generic : ∀ name first others, motive first → (∀ t ∈ others, motive t) → motive (generic name first others))
    (t : EventType) : motive t :=
  EventType.rec (motive_2 := fun ts => ∀ t ∈ ts, motive t) primitive nominal optional reference array sized dictionary
    generic (by simp) (fun _ _ hhead htail => List.forall_mem_cons.mpr ⟨hhead, htail⟩) t

theorem textBehind_eq (ts : List EventType) : textBehind ts = ts.flatMap fun t => ',' :: ' ' :: t.text := by
  induction ts with
  | nil => rfl
  | cons t ts ih => rw [textBehind, ih, List.flatMap_cons]

theorem anySized_eq_false {ts : List EventType} : anySized ts = false ↔ ∀ t ∈ ts, t.hasSized = false := by
  induction ts with
  | nil => simp [anySized]
  | cons t ts ih => rw [anySized, Bool.or_eq_false_iff, ih, List.forall_mem_cons]

theorem allPlainElements_iff {ts : List EventType} : allPlainElements ts = true ↔ ∀ t ∈ ts, t.plainElements = true := by
  induction ts with
  | nil => simp [allPlainElements]
  | cons t ts ih => rw [allPlainElements, Bool.and_eq_true, ih, List.forall_mem_cons]

theorem plainElements_of_sizeless {t : EventType} (h : t.hasSized = false) : t.plainElements = true := by
  induction t with
  | primitive | nominal => rfl
  | optional t ih | reference t ih => exact ih h
  | array t _ => simpa [hasSized, plainElements] using h
  | sized t size _ => cases h
  | dictionary key value ihkey ihvalue =>
    obtain ⟨hkey, hvalue⟩ := Bool.or_eq_false_iff.mp h
    rw [plainElements, ihkey hkey, ihvalue hvalue]
    rfl
  | generic name first others ihfirst ihothers =>
    obtain ⟨hfirst, hothers⟩ := Bool.or_eq_false_iff.mp h
    rw [plainElements, ihfirst hfirst, allPlainElements_iff.mpr fun t ht => ihothers t ht (anySized_eq_false.mp hothers t ht)]
    rfl

end EventType

section Edges

/-- A text with no blanks around it, which is not empty. -/
def Edged (u : List Char) : Prop :=
  (∃ c ∈ u.head?, isBlank c = false) ∧ ∃ c ∈ u.getLast?, isBlank c = false

theorem Edged.trim_gap_append {u g : List Char} (hu : Edged u) (hg : ∀ c ∈ g, isBlank c = true) : trim (g ++ u) = u := by
  obtain ⟨⟨c, hc, hcblank⟩, d, hd, hdblank⟩ := hu
  obtain ⟨v, rfl⟩ := List.head?_eq_some_iff.mp hc
  have hleft : trimLeft (g ++ c :: v) = c :: v := by
    rw [trimLeft, List.dropWhile_append_of_pos hg, List.dropWhile_cons_of_neg (by simp [hcblank])]
  have hlast : (c :: v).reverse.head? = some d := by rwa [List.head?_reverse]
  obtain ⟨w, hw⟩ := List.head?_eq_some_iff.mp hlast
  rw [trim, hleft, trimRight, hw, List.dropWhile_cons_of_neg (by simp [hdblank]), ← hw, List.reverse_reverse]

theorem Edged.trim {u : List Char} (hu : Edged u) : Text.trim u = u := hu.trim_gap_append (g := []) (by simp)

theorem Edged.ne_nil {u : List Char} (hu : Edged u) : u ≠ [] := by
  rintro rfl
  obtain ⟨⟨c, hc, _⟩, _⟩ := hu
  cases hc

theorem Edged.exists_cons {u : List Char} (hu : Edged u) : ∃ c v, u = c :: v ∧ isBlank c = false := by
  obtain ⟨⟨c, hc, hblank⟩, _⟩ := hu
  obtain ⟨v, rfl⟩ := List.head?_eq_some_iff.mp hc
  exact ⟨c, v, rfl, hblank⟩

theorem Edged.not_allBlank {u : List Char} (hu : Edged u) (g : List Char) : allBlank (g ++ u) = false := by
  obtain ⟨c, v, rfl, hblank⟩ := hu.exists_cons
  simp [allBlank, hblank]

theorem edged_of_ends {c d : Char} (u : List Char) (hc : isBlank c = false) (hd : isBlank d = false) :
    Edged (c :: (u ++ [d])) := by
  refine ⟨⟨c, rfl, hc⟩, d, ?_, hd⟩
  rw [← List.cons_append, List.getLast?_concat]
  rfl

theorem Edged.cons {c : Char} {u : List Char} (hu : Edged u) (hc : isBlank c = false) : Edged (c :: u) := by
  obtain ⟨_, d, hd, hblank⟩ := hu
  refine ⟨⟨c, rfl, hc⟩, d, ?_, hblank⟩
  rw [List.getLast?_cons, Option.mem_def.mp hd]
  rfl

theorem Edged.append_concat {d : Char} {u : List Char} (hu : Edged u) (v : List Char) (hd : isBlank d = false) :
    Edged (u ++ v ++ [d]) := by
  obtain ⟨c, w, rfl, hc⟩ := hu.exists_cons
  exact edged_of_ends _ hc hd

theorem Edged.concat {d : Char} {u : List Char} (hu : Edged u) (hd : isBlank d = false) : Edged (u ++ [d]) := by
  have hedged := hu.append_concat [] hd
  rwa [List.append_nil] at hedged

theorem Edged.partOf? {u g : List Char} (hu : Edged u) (hg : ∀ c ∈ g, isBlank c = true) (start : Nat) :
    (CadenceUplift.partOf? (g ++ u) start).map Part.text = some u := by
  rw [CadenceUplift.partOf?, hu.not_allBlank, hu.trim_gap_append hg]
  rfl

@[simp] theorem startsWith_cons (c d : Char) (u : List Char) : startsWith (c :: u) [d] = (d == c) := by
  simp [startsWith, List.isPrefixOf]

@[simp] theorem endsWith_concat (c d : Char) (u : List Char) : endsWith (u ++ [c]) [d] = (d == c) := by
  simp [endsWith, List.isSuffixOf, List.isPrefixOf]

@[simp] theorem endsWith_cons_concat (b c d : Char) (u : List Char) : endsWith (b :: (u ++ [c])) [d] = (d == c) :=
  endsWith_concat c d (b :: u)

@[simp] theorem endsWith_append_cons_concat (v : List Char) (b c d : Char) (u : List Char) :
    endsWith (v ++ b :: (u ++ [c])) [d] = (d == c) := by
  rw [← List.cons_append, ← List.append_assoc, endsWith_concat]

theorem endsWith_append (u : List Char) {v : List Char} (hne : v ≠ []) (d : Char) : endsWith (u ++ v) [d] = endsWith v [d] := by
  rw [← List.dropLast_concat_getLast hne, ← List.append_assoc, endsWith_concat, endsWith_concat]

@[simp] theorem insideOf_enclosed (b c : Char) (u : List Char) : insideOf (b :: (u ++ [c])) = u := by
  rw [insideOf, List.tail_cons, List.dropLast_concat]

end Edges

section Names

/-- The characters that names are made of. -/
def isNameChar (c : Char) : Bool := isAsciiWord c || c == '.'

/-- A text that starts with a capital letter and holds name characters only. -/
structure Named (u : List Char) : Prop where
  capital : ∃ c v, u = c :: v ∧ 'A' ≤ c ∧ c ≤ 'Z'
  chars : ∀ c ∈ u, isNameChar c = true

theorem isAsciiWord_of_capital {c : Char} (h : 'A' ≤ c ∧ c ≤ 'Z') : isAsciiWord c = true := by
  have hup : c.isUpper = true := decide_eq_true h
  have halpha : c.isAlpha = true := Bool.or_eq_true_iff.mpr (.inl hup)
  simp [isAsciiWord, Char.isAlphanum, halpha]

theorem isAsciiWord_of_isNameStart {c : Char} (h : isNameStart c = true) : isAsciiWord c = true := by
  simp only [isNameStart, Bool.or_eq_true, Bool.and_eq_true, decide_eq_true_eq, beq_iff_eq] at h
  rcases h with (h | h) | rfl
  · exact isAsciiWord_of_capital h
  · have hlow : c.isLower = true := Bool.and_eq_true_iff.mpr ⟨decide_eq_true h.1, decide_eq_true h.2⟩
    have halpha : c.isAlpha = true := Bool.or_eq_true_iff.mpr (.inr hlow)
    simp [isAsciiWord, Char.isAlphanum, halpha]
  · decide

theorem isWord_of_isAsciiWord {c : Char} (h : isAsciiWord c = true) : isWord c = true := by
  rw [isAsciiWord, Bool.or_eq_true, beq_iff_eq] at h
  rcases h with rfl | h
  · decide
  · rw [Char.isAlphanum, Bool.or_eq_true] at h
    rcases h.imp_left Bool.or_eq_true_iff.mp with (h | h) | h
    · exact isWord_of_upper (of_decide_eq_true h)
    · obtain ⟨hlow, hhigh⟩ := Bool.and_eq_true_iff.mp h
      exact isWord_of_lower ⟨of_decide_eq_true hlow, of_decide_eq_true hhigh⟩
    · obtain ⟨hlow, hhigh⟩ := Bool.and_eq_true_iff.mp h
      exact isWord_of_digit ⟨of_decide_eq_true hlow, of_decide_eq_true hhigh⟩

theorem isBlank_of_isNameChar {c : Char} (h : isNameChar c = true) : isBlank c = false := by
  rw [isNameChar, Bool.or_eq_true, beq_iff_eq] at h
  rcases h with h | rfl
  · exact isBlank_of_isWord (isWord_of_isAsciiWord h)
  · decide

theorem NominalName.named (n : NominalName) : Named n.text where
  capital := ⟨_, _, rfl, n.initial_capital⟩
  chars := by
    intro c hc
    rw [isNameChar, Bool.or_eq_true, beq_iff_eq]
    simp only [NominalName.text, List.mem_cons, List.mem_append, List.mem_flatMap] at hc
    rcases hc with rfl | hc | ⟨p, hp, rfl | rfl | hc⟩
    · exact .inl (isAsciiWord_of_capital n.initial_capital)
    · exact .inl (n.rest_ok c hc)
    · exact .inr rfl
    · exact .inl (isAsciiWord_of_isNameStart (n.parts_ok p hp).1)
    · exact .inl ((n.parts_ok p hp).2 c hc)

theorem named_primitive {name : String} (h : name ∈ primitiveTypes) : Named name.toList := by
  have hall : ∀ p ∈ primitiveTypes, (p.toList.head?.any fun c => decide ('A' ≤ c ∧ c ≤ 'Z')) = true ∧
      p.toList.all isNameChar = true := by decide
  obtain ⟨hcapital, hchars⟩ := hall name h
  refine ⟨?_, List.all_eq_true.mp hchars⟩
  obtain ⟨c, hc, hupper⟩ := (Option.any_eq_true _ _).mp hcapital
  obtain ⟨v, hv⟩ := List.head?_eq_some_iff.mp hc
  exact ⟨c, v, hv, of_decide_eq_true hupper⟩

theorem Named.edged {u : List Char} (h : Named u) : Edged u := by
  obtain ⟨c, v, rfl, _⟩ := h.capital
  refine ⟨⟨c, rfl, isBlank_of_isNameChar (h.chars c (by simp))⟩, _, List.getLast?_eq_some_getLast (by simp), ?_⟩
  exact isBlank_of_isNameChar (h.chars _ (List.getLast_mem _))

theorem Named.not_endsWith {u : List Char} (h : Named u) {d : Char} (hd : isNameChar d = false) : endsWith u [d] = false := by
  obtain ⟨c, v, rfl, _⟩ := h.capital
  rw [← List.dropLast_concat_getLast (List.cons_ne_nil c v), endsWith_concat, beq_eq_false_iff_ne]
  rintro rfl
  rw [h.chars _ (List.getLast_mem (List.cons_ne_nil c v))] at hd
  cases hd

end Names

namespace EventType

theorem edged_text (t : EventType) : Edged t.text := by
  induction t with
  | primitive name known => exact (named_primitive known).edged
  | nominal name => exact name.named.edged
  | optional t ih => exact ih.concat (by decide)
  | reference t ih => exact ih.cons (by decide)
  | array t _ | sized t size _ | dictionary key value _ _ => exact edged_of_ends _ (by decide) (by decide)
  | generic name first others _ _ =>
    rw [text, ← List.cons_append, ← List.append_assoc]
    exact name.named.edged.append_concat _ (by decide)

end EventType

section Splitting

/-- From some depth on, cutting at a separator reads over the text and cuts nowhere in it. -/
def Passes (sep : Char) (least : Int) (u : List Char) : Prop :=
  ∀ (depth : Int) (start : Nat) (taken r : List Char), least ≤ depth →
    splitFrom sep depth start taken (u ++ r) = splitFrom sep depth start (u.reverse ++ taken) r

variable {sep : Char} {least : Int} {u v : List Char}

theorem Passes.append (hu : Passes sep least u) (hv : Passes sep least v) : Passes sep least (u ++ v) := by
  intro depth start taken r hdepth
  rw [List.append_assoc, hu depth start taken _ hdepth, hv depth start _ _ hdepth, List.reverse_append,
    List.append_assoc]

theorem Passes.deeper (hu : Passes sep least u) : Passes sep (least + 1) u :=
  fun depth start taken r hdepth => hu depth start taken r (by omega)

/-- Characters that are no brackets are read over, and so are separators within brackets. -/
theorem passes_of_chars (h : ∀ c ∈ u, opensNesting c = false ∧ closesNesting c = false ∧ (c = sep → 0 < least)) :
    Passes sep least u := by
  intro depth start taken r hdepth
  induction u generalizing taken with
  | nil => rfl
  | cons c u ih =>
    obtain ⟨⟨hopens, hcloses, hsep⟩, hrest⟩ := List.forall_mem_cons.mp h
    have hcut : ¬(c = sep ∧ depth ≤ 0) := by
      rintro ⟨hc, hflat⟩
      have := hsep hc
      omega
    rw [List.cons_append, splitFrom, if_neg (by simp [hopens]), if_neg (by simp [hcloses]), if_neg hcut, ih hrest,
      List.reverse_cons, List.append_assoc]
    rfl

/-- Within brackets a text is read one level deeper. -/
theorem Passes.nested {b b' : Char} (hopens : opensNesting b = true) (hopens' : opensNesting b' = false)
    (hcloses' : closesNesting b' = true) (hu : Passes sep (least + 1) u) : Passes sep least (b :: (u ++ [b'])) := by
  intro depth start taken r hdepth
  have hinner := hu (depth + 1) start (b :: taken) (b' :: r) (by omega)
  rw [List.cons_append, splitFrom, if_pos hopens, List.append_assoc, List.singleton_append, hinner, splitFrom,
    if_neg (by simp [hopens']), if_pos hcloses', Int.add_sub_cancel]
  simp

theorem isNameChar_plain {c : Char} (h : isNameChar c = true) :
    opensNesting c = false ∧ closesNesting c = false ∧ c ≠ ',' ∧ c ≠ ':' ∧ c ≠ ';' := by
  have hspecial : ['(', '[', '\x7b', '<', ')', ']', '\x7d', '>', ',', ':', ';'].any isNameChar = false := by decide
  have hne : ∀ d ∈ ['(', '[', '\x7b', '<', ')', ']', '\x7d', '>', ',', ':', ';'], c ≠ d := by
    rintro d hd rfl
    exact List.any_eq_false.mp hspecial c hd h
  simp only [List.mem_cons, List.not_mem_nil, or_false, forall_eq_or_imp, forall_eq] at hne
  simp [opensNesting, closesNesting, hne]

theorem passes_of_isNameChar (hsep : sep = ',' ∨ sep = ':') (h : ∀ c ∈ u, isNameChar c = true) : Passes sep least u := by
  refine passes_of_chars ?_
  intro c hc
  obtain ⟨hopens, hcloses, hcomma, hcolon, _⟩ := isNameChar_plain (h c hc)
  refine ⟨hopens, hcloses, ?_⟩
  rintro rfl
  exact absurd hsep (by simp [hcomma, hcolon])

theorem Numeral.isNameChar_of_mem (n : Numeral) {c : Char} (h : c ∈ n.digits) : isNameChar c = true := by
  simp [isNameChar, isAsciiWord, Char.isAlphanum, n.digits_ok c h]

theorem passes_mark {c : Char} (hsep : sep = ',' ∨ sep = ':')
    (hc : opensNesting c = false ∧ closesNesting c = false ∧ c ≠ ',' ∧ c ≠ ':') : Passes sep least [c] := by
  refine passes_of_chars ?_
  intro d hd
  obtain rfl := List.mem_singleton.mp hd
  refine ⟨hc.1, hc.2.1, ?_⟩
  rintro rfl
  exact absurd hsep (by simp [hc.2.2])

/-- Separators are read over within brackets. -/
theorem passes_within {c : Char} (hc : opensNesting c = false ∧ closesNesting c = false) : Passes sep 1 [c, ' '] := by
  refine passes_of_chars ?_
  intro d hd
  rcases List.mem_pair.mp hd with rfl | rfl
  · exact ⟨hc.1, hc.2, fun _ => by omega⟩
  · exact ⟨rfl, rfl, fun _ => by omega⟩

namespace EventType

/-- No separator of arguments or of dictionaries stands outside the brackets of a type. -/
theorem passes_text (hsep : sep = ',' ∨ sep = ':') (t : EventType) : Passes sep 0 t.text := by
  induction t with
  | primitive name known => exact passes_of_isNameChar hsep (named_primitive known).chars
  | nominal name => exact passes_of_isNameChar hsep name.named.chars
  | optional t ih => exact ih.append (passes_mark hsep (by decide))
  | reference t ih => exact (passes_mark hsep (by decide) : Passes sep 0 ['&']).append ih
  | array t ih => exact .nested rfl rfl rfl ih.deeper
  | sized t size ih =>
    have hdigits : Passes sep 1 size.digits := passes_of_isNameChar hsep fun c hc => size.isNameChar_of_mem hc
    exact .nested rfl rfl rfl (ih.deeper.append ((passes_within (by decide)).append hdigits))
  | dictionary key value ihkey ihvalue =>
    exact .nested rfl rfl rfl (ihkey.deeper.append ((passes_within (by decide)).append ihvalue.deeper))
  | generic name first others ihfirst ihothers =>
    have hbehind : Passes sep 1 (textBehind others) := by
      rw [textBehind_eq]
      clear ihfirst
      induction others with
      | nil => exact passes_of_chars (by simp)
      | cons t ts ih =>
        obtain ⟨ht, hts⟩ := List.forall_mem_cons.mp ihothers
        exact ((passes_within (by decide)).append ht.deeper).append (ih hts)
    exact (passes_of_isNameChar hsep name.named.chars).append (.nested rfl rfl rfl (ihfirst.deeper.append hbehind))

theorem texts_partOf? (t : EventType) (start : Nat) {taken : List Char} (htaken : ∀ c ∈ taken, isBlank c = true) :
    (partOf? (t.text.reverse ++ taken).reverse start).toList.map Part.text = [t.text] := by
  have hgap : ∀ c ∈ taken.reverse, isBlank c = true := fun c hc => htaken c (List.mem_reverse.mp hc)
  obtain ⟨p, hp, htext⟩ := Option.map_eq_some_iff.mp (t.edged_text.partOf? hgap start)
  rw [List.reverse_append, List.reverse_reverse, hp]
  simp [htext]

/-- Cutting types apart at the separators between them gives their texts; `taken` is the blank behind a separator. -/
theorem texts_splitFrom (hsep : sep = ',' ∨ sep = ':') (t : EventType) (ts : List EventType) (start : Nat)
    {taken : List Char} (htaken : ∀ c ∈ taken, isBlank c = true) :
    (splitFrom sep 0 start taken (t.text ++ ts.flatMap fun s => sep :: ' ' :: s.text)).map Part.text =
      t.text :: ts.map text := by
  induction ts generalizing t start taken with
  | nil =>
    rw [List.flatMap_nil, t.passes_text hsep 0 start taken [] (Int.le_refl 0), splitFrom, if_pos (Int.le_refl 0),
      t.texts_partOf? start htaken]
    rfl
  | cons s ts ih =>
    have hplain : opensNesting sep = false ∧ closesNesting sep = false ∧ ' ' ≠ sep := by
      rcases hsep with rfl | rfl <;> decide
    have hpass := t.passes_text hsep 0 start taken ((s :: ts).flatMap fun s => sep :: ' ' :: s.text) (Int.le_refl 0)
    have hspace : opensNesting ' ' = false ∧ closesNesting ' ' = false := by decide
    rw [hpass, List.flatMap_cons, List.cons_append, List.cons_append, splitFrom, if_neg (by simp [hplain]),
      if_neg (by simp [hplain]), if_pos ⟨rfl, Int.le_refl 0⟩, List.map_append, t.texts_partOf? start htaken, splitFrom,
      if_neg (by simp [hspace]), if_neg (by simp [hspace]), if_neg (by simp [hplain]), ih s _ (by simp; decide)]
    rfl

theorem texts_dictionary (key value : EventType) :
    (topLevelParts (key.text ++ ':' :: ' ' :: value.text) ':').map Part.text = [key.text, value.text] := by
  have hparts := texts_splitFrom (.inr rfl : ':' = ',' ∨ ':' = ':') key [value] 0 (List.forall_mem_nil _)
  simpa [topLevelParts] using hparts

theorem texts_arguments (first : EventType) (others : List EventType) :
    (topLevelParts (first.text ++ textBehind others) ',').map Part.text = first.text :: others.map text := by
  rw [textBehind_eq]
  exact texts_splitFrom (.inl rfl) first others 0 (by simp)

end EventType

end Splitting

namespace EventType

/-- The marks that types other than names are written with, the size of an array apart. -/
def marks : List Char := ['?', '&', '[', ']', '\x7b', '\x7d', '<', '>', ',', ':', ' ']

/-- What holds of the characters of names and of the marks holds of all characters of a type. -/
theorem forall_mem_text {P : Char → Prop} (hname : ∀ c, isNameChar c = true → P c) (hmarks : ∀ c ∈ marks, P c)
    (t : EventType) (hsize : t.hasSized = true → P ';') : ∀ c ∈ t.text, P c := by
  simp only [marks, List.forall_mem_cons] at hmarks
  obtain ⟨hquestion, hampersand, hopen, hclose, hopen', hclose', hless, hgreater, hcomma, hcolon, hspace, hnil⟩ := hmarks
  induction t with
  | primitive name known => exact fun c hc => hname c ((named_primitive known).chars c hc)
  | nominal name => exact fun c hc => hname c (name.named.chars c hc)
  | optional t ih =>
    simp only [text, List.forall_mem_append, List.forall_mem_cons]
    exact ⟨ih hsize, hquestion, hnil⟩
  | reference t ih =>
    simp only [text, List.forall_mem_cons]
    exact ⟨hampersand, ih hsize⟩
  | array t ih =>
    simp only [text, List.forall_mem_append, List.forall_mem_cons]
    exact ⟨hopen, ih hsize, hclose, hnil⟩
  | sized t size ih =>
    have hdigits : ∀ c ∈ size.digits, P c := fun c hc => hname c (size.isNameChar_of_mem hc)
    simp only [text, List.forall_mem_append, List.forall_mem_cons]
    exact ⟨hopen, ⟨ih fun _ => hsize rfl, hsize rfl, hspace, hdigits⟩, hclose, hnil⟩
  | dictionary key value ihkey ihvalue =>
    have hkey := ihkey fun h => hsize (by simp [hasSized, h])
    have hvalue := ihvalue fun h => hsize (by simp [hasSized, h])
    simp only [text, List.forall_mem_append, List.forall_mem_cons]
    exact ⟨hopen', ⟨hkey, hcolon, hspace, hvalue⟩, hclose', hnil⟩
  | generic name first others ihfirst ihothers =>
    have hfirst := ihfirst fun h => hsize (by simp [hasSized, h])
    have hothers : ∀ t ∈ others, ∀ c ∈ t.text, P c := by
      intro t ht
      refine ihothers t ht fun h => hsize ?_
      rw [hasSized, Bool.or_eq_true]
      refine .inr (Bool.of_not_eq_false fun hnone => ?_)
      rw [anySized_eq_false.mp hnone t ht] at h
      cases h
    simp only [text, textBehind_eq, List.forall_mem_append, List.forall_mem_cons]
    refine ⟨fun c hc => hname c (name.named.chars c hc), hless, ⟨hfirst, ?_⟩, hgreater, hnil⟩
    intro c hc
    obtain ⟨t, ht, hc⟩ := List.mem_flatMap.mp hc
    rcases List.mem_cons.mp hc with rfl | hc
    · exact hcomma
    rcases List.mem_cons.mp hc with rfl | hc
    · exact hspace
    · exact hothers t ht c hc

theorem semicolon_not_mem {t : EventType} (h : t.hasSized = false) : ';' ∉ t.text := by
  intro hmem
  refine forall_mem_text (P := (· ≠ ';')) ?_ (by simp [marks]) t (by simp [h]) ';' hmem rfl
  intro c hc
  exact (isNameChar_plain hc).2.2.2.2

theorem newline_not_mem (t : EventType) : '\n' ∉ t.text := by
  intro hmem
  refine forall_mem_text (P := (· ≠ '\n')) ?_ (by simp [marks]) t (fun _ => by decide) '\n' hmem rfl
  rintro c hc rfl
  exact absurd hc (by decide)

/-- A type that ends in a question mark is another type with the mark behind it. -/
theorem exists_optional {t : EventType} (h : endsWith t.text ['?'] = true) :
    ∃ s : EventType, t.text = s.text ++ ['?'] ∧ (t.plainElements = true → s.plainElements = true) ∧
      (t.hasSized = false → s.hasSized = false) := by
  induction t with
  | primitive name known =>
    rw [text, (named_primitive known).not_endsWith (by decide)] at h
    cases h
  | nominal name =>
    rw [text, name.named.not_endsWith (by decide)] at h
    cases h
  | optional t _ => exact ⟨t, rfl, id, id⟩
  | reference t ih =>
    rw [text, ← List.singleton_append, endsWith_append _ t.edged_text.ne_nil] at h
    obtain ⟨s, hs, hplain, hsized⟩ := ih h
    exact ⟨reference s, by simp [text, hs], hplain, hsized⟩
  | array t _ | sized t size _ | dictionary key value _ _ =>
    rw [text, endsWith_cons_concat] at h
    exact absurd h (by decide)
  | generic name first others _ _ =>
    rw [text, endsWith_append_cons_concat] at h
    exact absurd h (by decide)

/-- A type without sizes that ends in a bracket is an array, or references to one. -/
theorem exists_array {t : EventType} (hsized : t.hasSized = false) (h : endsWith t.text [']'] = true) :
    ∃ (pre : List Char) (s : EventType), t.text = pre ++ '[' :: (s.text ++ [']']) ∧ (∀ c ∈ pre, c = '&') ∧
      s.hasSized = false := by
  induction t with
  | primitive name known =>
    rw [text, (named_primitive known).not_endsWith (by decide)] at h
    cases h
  | nominal name =>
    rw [text, name.named.not_endsWith (by decide)] at h
    cases h
  | reference t ih =>
    rw [text, ← List.singleton_append, endsWith_append _ t.edged_text.ne_nil] at h
    obtain ⟨pre, s, hs, hpre, hsized'⟩ := ih hsized h
    exact ⟨'&' :: pre, s, by simp [text, hs], by simpa using hpre, hsized'⟩
  | array t _ => exact ⟨[], t, rfl, by simp, hsized⟩
  | sized t size _ => cases hsized
  | optional t _ =>
    rw [text, endsWith_concat] at h
    exact absurd h (by decide)
  | dictionary key value _ _ =>
    rw [text, endsWith_cons_concat] at h
    exact absurd h (by decide)
  | generic name first others _ _ =>
    rw [text, endsWith_append_cons_concat] at h
    exact absurd h (by decide)

/-- Up to the first semicolon, a text holds a type without sizes whole, with the marks in front of it. -/
theorem takeWhile_text_append {pre : List Char} {t : EventType} (hpre : ∀ c ∈ pre, c = '[' ∨ c = '&')
    (hsized : t.hasSized = false) (r : List Char) :
    (pre ++ t.text ++ r).takeWhile (· != ';') = pre ++ t.text ++ r.takeWhile (· != ';') := by
  refine List.takeWhile_append_of_pos (List.forall_mem_append.mpr ⟨?_, ?_⟩)
  · intro c hc
    rcases hpre c hc with rfl | rfl <;> decide
  · intro c hc
    rw [bne_iff_ne]
    rintro rfl
    exact semicolon_not_mem hsized hc

theorem takeWhile_text {pre : List Char} {t : EventType} (hpre : ∀ c ∈ pre, c = '[' ∨ c = '&')
    (hsized : t.hasSized = false) : (pre ++ t.text).takeWhile (· != ';') = pre ++ t.text := by
  have hinside := takeWhile_text_append hpre hsized []
  rwa [List.takeWhile_nil, List.append_nil] at hinside

theorem takeWhile_text_semicolon {pre : List Char} {t : EventType} (hpre : ∀ c ∈ pre, c = '[' ∨ c = '&')
    (hsized : t.hasSized = false) (r : List Char) :
    (pre ++ t.text ++ ';' :: r).takeWhile (· != ';') = pre ++ t.text := by
  rw [takeWhile_text_append hpre hsized, List.takeWhile_cons_of_neg (by simp), List.append_nil]

theorem length_le_of_mem {ts : List EventType} {t : EventType} (h : t ∈ ts) :
    t.text.length ≤ (textBehind ts).length := by
  induction ts with
  | nil => cases h
  | cons s ts ih =>
    simp only [textBehind, List.length_append, List.length_cons]
    rcases List.mem_cons.mp h with rfl | h
    · omega
    · have := ih h
      omega

theorem edged_append_text {pre : List Char} (hpre : ∀ c ∈ pre, c = '[' ∨ c = '&') (t : EventType) :
    Edged (pre ++ t.text) := by
  induction pre with
  | nil => exact t.edged_text
  | cons b pre ih =>
    obtain ⟨hb, hpre⟩ := List.forall_mem_cons.mp hpre
    refine (ih hpre).cons ?_
    rcases hb with rfl | rfl <;> decide

/-- What stands in front of the first semicolon of a type that leads to a sized array. -/
theorem exists_cut {t : EventType} (h : t.leadsToSized = true) :
    ∃ (pre : List Char) (s : EventType) (r : List Char), t.text = pre ++ s.text ++ ';' :: r ∧
      (∀ c ∈ pre, c = '[' ∨ c = '&') ∧ '[' ∈ pre ∧ s.hasSized = false := by
  induction t with
  | primitive | nominal | dictionary | generic => cases h
  | optional t ih =>
    obtain ⟨pre, s, r, hcut, hpre, hopen, hsized⟩ := ih h
    exact ⟨pre, s, r ++ ['?'], by simp [text, hcut], hpre, hopen, hsized⟩
  | reference t ih =>
    obtain ⟨pre, s, r, hcut, hpre, hopen, hsized⟩ := ih h
    exact ⟨'&' :: pre, s, r, by simp [text, hcut], by simpa using hpre, by simp [hopen], hsized⟩
  | array t ih =>
    obtain ⟨pre, s, r, hcut, hpre, hopen, hsized⟩ := ih h
    exact ⟨'[' :: pre, s, r ++ [']'], by simp [text, hcut], by simpa using hpre, by simp, hsized⟩
  | sized t size ih =>
    cases hsized : t.hasSized with
    | false => exact ⟨['['], t, ' ' :: size.digits ++ [']'], by simp [text], by simp, by simp, hsized⟩
    | true =>
      have hleads : t.leadsToSized = true := by simpa [leadsToSized, hsized] using h
      obtain ⟨pre, s, r, hcut, hpre, hopen, hsized⟩ := ih hleads
      exact ⟨'[' :: pre, s, r ++ ';' :: ' ' :: size.digits ++ [']'], by simp [text, hcut], by simpa using hpre, by simp,
        hsized⟩

end EventType

end CadenceUplift
