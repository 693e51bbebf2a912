import CadenceUplift.Diagnostic.Event
import CadenceUplift.Proofs.Diagnostic.TypeText

namespace CadenceUplift

open Text

/-- The brackets opened in front of an offset, less those closed there. -/
def nestingAt (s : List Char) (i : Nat) : Int := (s.take i).countP opensNesting - (s.take i).countP closesNesting

/-- A separator at which the text is cut. -/
def CutsAt (s : List Char) (sep : Char) (i : Nat) : Prop := s[i]? = some sep ∧ nestingAt s i ≤ 0

instance {s : List Char} {sep : Char} {i : Nat} : Decidable (CutsAt s sep i) := inferInstanceAs (Decidable (_ ∧ _))

/-- A stretch from the start of the text or a cut to the next cut or the end. -/
structure Segment (s : List Char) (sep : Char) (a b : Nat) : Prop where
  start : a = 0 ∨ 0 < a ∧ CutsAt s sep (a - 1)
  stop : b = s.length ∨ CutsAt s sep b
  le : a ≤ b
  uncut : ∀ i, a ≤ i → i < b → ¬CutsAt s sep i

namespace Part

/-- The offset is one of the part's characters. -/
def Covers (p : Part) (i : Nat) : Prop := p.offset ≤ i ∧ i < p.offset + p.text.length

/-- The part stands in the stretch of the text from `a` to `b`, and there are only blanks around it. -/
structure Fills (p : Part) (s : List Char) (a b : Nat) : Prop where
  start_le : a ≤ p.offset
  stop_le : p.offset + p.text.length ≤ b
  text_eq : (s.drop p.offset).take p.text.length = p.text
  edged : Edged p.text
  blank : ∀ i c, a ≤ i → i < b → s[i]? = some c → ¬p.Covers i → isBlank c = true

end Part

section Filling

variable {s : List Char} {a b : Nat} {p q : Part}

theorem exists_dropWhile_blank {u : List Char} (h : ∃ c ∈ u, isBlank c = false) :
    ∃ c v, u.dropWhile isBlank = c :: v ∧ isBlank c = false := by
  induction u with
  | nil => simp at h
  | cons d u ih =>
    by_cases hd : isBlank d = true
    · rw [List.dropWhile_cons_of_pos hd]
      exact ih (by simpa [hd] using h)
    · exact ⟨d, u, List.dropWhile_cons_of_neg hd, by simpa using hd⟩

/-- A segment that is not blank holds a part between blanks. -/
theorem exists_partOf? {seg : List Char} (h : ∃ c ∈ seg, isBlank c = false) (start : Nat) :
    ∃ p g g', partOf? seg start = some p ∧ seg = g ++ p.text ++ g' ∧ p.offset = start + g.length ∧ Edged p.text ∧
      (∀ c ∈ g, isBlank c = true) ∧ ∀ c ∈ g', isBlank c = true := by
  obtain ⟨c, v, hleft, hc⟩ := exists_dropWhile_blank h
  obtain ⟨d, w, hright, hd⟩ := exists_dropWhile_blank (u := (c :: v).reverse) ⟨c, by simp, hc⟩
  have hsegment : allBlank seg = false := by
    obtain ⟨e, he, hblank⟩ := h
    exact List.all_eq_false.mpr ⟨e, he, by simp [hblank]⟩
  have htext : trim seg = (d :: w).reverse := by rw [trim, trimLeft, hleft, trimRight, hright]
  have htail := congrArg List.reverse (List.takeWhile_append_dropWhile (p := isBlank) (l := (c :: v).reverse))
  rw [hright, List.reverse_append, List.reverse_reverse] at htail
  refine ⟨⟨trim seg, start + (seg.takeWhile isBlank).length⟩, seg.takeWhile isBlank,
    ((c :: v).reverse.takeWhile isBlank).reverse, ?_, ?_, rfl, ?_, ?_, ?_⟩
  · rw [partOf?, hsegment]
    rfl
  · rw [htext, List.append_assoc, htail, ← hleft, List.takeWhile_append_dropWhile]
  · -- the first character is that of the segment without its leading blanks, as what is cut off behind it is no more
    rw [htext]
    refine ⟨⟨c, ?_, hc⟩, d, by simp, hd⟩
    have hhead := congrArg List.head? htail
    rw [List.head?_append_of_ne_nil _ (by simp)] at hhead
    exact hhead
  · exact fun x hx => List.all_eq_true.mp List.all_takeWhile x hx
  · exact fun x hx => List.all_eq_true.mp List.all_takeWhile x (List.mem_reverse.mp hx)

namespace Part.Fills

theorem of_split {x g g' y : List Char} (hs : s = x ++ (g ++ p.text ++ g') ++ y) (ha : x.length = a)
    (hb : a + (g ++ p.text ++ g').length = b) (hoffset : p.offset = a + g.length) (hp : Edged p.text)
    (hg : ∀ c ∈ g, isBlank c = true) (hg' : ∀ c ∈ g', isBlank c = true) : p.Fills s a b := by
  simp only [List.length_append] at hb
  refine ⟨by omega, by omega, ?_, hp, ?_⟩
  · rw [hs, hoffset, ← ha]
    simp
  · intro i c hi hib hc hnot
    rw [Covers] at hnot
    rw [hs] at hc
    rcases Nat.lt_or_ge i p.offset with hlt | hge
    · rw [List.append_assoc, List.getElem?_append_right (by omega), List.append_assoc, List.append_assoc,
        List.getElem?_append_left (by omega)] at hc
      exact hg c (List.mem_of_getElem? hc)
    · rw [List.append_assoc, List.getElem?_append_right (by omega), List.append_assoc,
        List.getElem?_append_right (by simp; omega), List.getElem?_append_left (by simp; omega)] at hc
      exact hg' c (List.mem_of_getElem? hc)

theorem getElem?_text (h : p.Fills s a b) {k : Nat} (hk : k < p.text.length) : s[p.offset + k]? = p.text[k]? := by
  have hchar : ((s.drop p.offset).take p.text.length)[k]? = s[p.offset + k]? := by
    rw [List.getElem?_take_of_lt hk, List.getElem?_drop]
  rw [← hchar, h.text_eq]

theorem length_pos (h : p.Fills s a b) : 0 < p.text.length := List.length_pos_iff.mpr h.edged.ne_nil

theorem first (h : p.Fills s a b) : ∃ c, s[p.offset]? = some c ∧ isBlank c = false := by
  obtain ⟨⟨c, hc, hblank⟩, _⟩ := h.edged
  have hchar := h.getElem?_text h.length_pos
  rw [Nat.add_zero, ← List.head?_eq_getElem?] at hchar
  exact ⟨c, hchar.trans hc, hblank⟩

theorem last (h : p.Fills s a b) : ∃ c, s[p.offset + p.text.length - 1]? = some c ∧ isBlank c = false := by
  obtain ⟨_, c, hc, hblank⟩ := h.edged
  have hpos := h.length_pos
  have hchar := h.getElem?_text (k := p.text.length - 1) (by omega)
  rw [← List.getLast?_eq_getElem?, ← Nat.add_sub_assoc hpos] at hchar
  exact ⟨c, hchar.trans hc, hblank⟩

/-- A stretch holds no character but blanks beyond its part. -/
theorem covers (h : p.Fills s a b) {i : Nat} (hi : a ≤ i) (hib : i < b) (hc : ∃ c, s[i]? = some c ∧ isBlank c = false) :
    p.Covers i := by
  obtain ⟨c, hc, hblank⟩ := hc
  by_contra hnot
  rw [h.blank i c hi hib hc hnot] at hblank
  cases hblank

theorem unique (hp : p.Fills s a b) (hq : q.Fills s a b) : p = q := by
  have hppos := hp.length_pos
  have hqpos := hq.length_pos
  have hpbounds := And.intro hp.start_le hp.stop_le
  have hqbounds := And.intro hq.start_le hq.stop_le
  have hpfirst := hq.covers (by omega) (by omega) hp.first
  have hqfirst := hp.covers (by omega) (by omega) hq.first
  have hplast := hq.covers (by omega) (by omega) hp.last
  have hqlast := hp.covers (by omega) (by omega) hq.last
  simp only [Covers] at hpfirst hqfirst hplast hqlast
  have hoffset : p.offset = q.offset := by omega
  have hlength : p.text.length = q.text.length := by omega
  have htext := hp.text_eq
  rw [hoffset, hlength, hq.text_eq] at htext
  cases p
  cases q
  rw [Part.mk.injEq]
  exact ⟨htext.symm, hoffset⟩

end Part.Fills

/-- A stretch that is not blank has a part that fills it. -/
theorem exists_fills (hab : a ≤ b) (hb : b ≤ s.length) (h : ∃ c ∈ (s.take b).drop a, isBlank c = false) :
    ∃ q : Part, partOf? ((s.take b).drop a) a = some q ∧ q.Fills s a b := by
  obtain ⟨q, g, g', hq, hcut, hoffset, hedged, hg, hg'⟩ := exists_partOf? h a
  have hlength : ((s.take b).drop a).length = b - a := by
    rw [List.length_drop, List.length_take, Nat.min_eq_left hb]
  have hsplit : s = s.take a ++ (s.take b).drop a ++ s.drop b := by
    conv_lhs => rw [← List.take_append_drop b s, ← List.take_append_drop a (s.take b), List.take_take,
      Nat.min_eq_left hab]
  rw [hcut] at hsplit hlength
  exact ⟨q, hq, .of_split hsplit (List.length_take_of_le (by omega)) (by omega) hoffset hedged hg hg'⟩

theorem mem_stretch {i : Nat} {c : Char} (hi : a ≤ i) (hib : i < b) (hc : s[i]? = some c) : c ∈ (s.take b).drop a := by
  apply List.mem_of_getElem? (i := i - a)
  rw [List.getElem?_drop, Nat.add_sub_of_le hi, List.getElem?_take_of_lt hib, hc]

/-- What a stretch of the text holds between blanks. -/
theorem partOf?_eq_some_iff (hab : a ≤ b) (hb : b ≤ s.length) :
    partOf? ((s.take b).drop a) a = some p ↔ p.Fills s a b := by
  constructor
  · intro h
    have hnonblank : ∃ c ∈ (s.take b).drop a, isBlank c = false := by
      by_contra hnone
      have hblank : allBlank ((s.take b).drop a) = true := by
        rw [allBlank, List.all_eq_true]
        exact fun c hc => by simpa using fun hnot => hnone ⟨c, hc, hnot⟩
      rw [partOf?, if_pos hblank] at h
      cases h
    obtain ⟨q, hq, hfills⟩ := exists_fills hab hb hnonblank
    rw [h, Option.some.injEq] at hq
    exact hq ▸ hfills
  · intro h
    obtain ⟨c, hc, hblank⟩ := h.first
    have hpos := h.length_pos
    have hstop := h.stop_le
    obtain ⟨q, hq, hfills⟩ := exists_fills hab hb ⟨c, mem_stretch h.start_le (by omega) hc, hblank⟩
    rw [hq, h.unique hfills]

end Filling

section Cutting

variable {s : List Char} {sep : Char} {a b a' b' i : Nat}

theorem CutsAt.lt (h : CutsAt s sep i) : i < s.length := (List.getElem?_eq_some_iff.mp h.1).1

theorem closesNesting_of_opens {c : Char} (h : opensNesting c = true) : closesNesting c = false := by
  simp only [opensNesting, Bool.or_eq_true, beq_iff_eq] at h
  rcases h with ((rfl | rfl) | rfl) | rfl <;> decide

theorem nestingAt_succ {c : Char} (h : s[i]? = some c) :
    nestingAt s (i + 1) = nestingAt s i + (if opensNesting c then 1 else 0) - (if closesNesting c then 1 else 0) := by
  rw [nestingAt, List.take_add_one, h, Option.toList_some, List.countP_append, List.countP_append, nestingAt,
    List.countP_singleton, List.countP_singleton]
  split <;> split <;> simp <;> omega

theorem Segment.stop_le (h : Segment s sep a b) : b ≤ s.length := by
  rcases h.stop with hstop | hstop
  · exact Nat.le_of_eq hstop
  · exact Nat.le_of_lt hstop.lt

/-- A segment ends in front of those that start behind it. -/
theorem Segment.lt_of_start_lt (h : Segment s sep a b) (h' : Segment s sep a' b') (hlt : a < a') : b < a' := by
  rcases h'.start with hzero | ⟨hpos, hcut⟩
  · omega
  · by_contra hle
    exact h.uncut (a' - 1) (by omega) (by omega) hcut

theorem Segment.stop_unique (h : Segment s sep a b) (h' : Segment s sep a b') : b = b' := by
  have hstop {x y : Nat} (hx : Segment s sep a x) (hy : Segment s sep a y) : ¬x < y := by
    intro hlt
    rcases hx.stop with hend | hcut
    · have hin := hy.stop_le
      omega
    · exact hy.uncut x hx.le hlt hcut
  have hlt := hstop h h'
  have hgt := hstop h' h
  omega

/-- A segment starts at an offset or in front of it. -/
theorem exists_start (s : List Char) (sep : Char) (j : Nat) :
    ∃ a ≤ j, (a = 0 ∨ 0 < a ∧ CutsAt s sep (a - 1)) ∧ ∀ k, a ≤ k → k < j → ¬CutsAt s sep k := by
  induction j with
  | zero => exact ⟨0, Nat.le_refl 0, .inl rfl, fun k _ hk => absurd hk (Nat.not_lt_zero k)⟩
  | succ j ih =>
    by_cases hj : CutsAt s sep j
    · exact ⟨j + 1, Nat.le_refl _, .inr ⟨Nat.succ_pos j, hj⟩, fun k hk hlt => absurd hlt (Nat.not_lt.mpr hk)⟩
    · obtain ⟨a, ha, hbegin, huncut⟩ := ih
      refine ⟨a, by omega, hbegin, ?_⟩
      intro k hk hlt
      rcases Nat.lt_succ_iff_lt_or_eq.mp hlt with hlt | rfl
      · exact huncut k hk hlt
      · exact hj

/-- A segment stops at an offset or behind it; the induction is on how much text is left. -/
theorem exists_stop (sep : Char) {n j : Nat} (hj : j + n = s.length) :
    ∃ b, j ≤ b ∧ (b = s.length ∨ CutsAt s sep b) ∧ ∀ k, j ≤ k → k < b → ¬CutsAt s sep k := by
  induction n generalizing j with
  | zero => exact ⟨j, Nat.le_refl j, .inl hj, fun k hk hlt => absurd hlt (Nat.not_lt.mpr hk)⟩
  | succ n ih =>
    by_cases hjcut : CutsAt s sep j
    · exact ⟨j, Nat.le_refl j, .inr hjcut, fun k hk hlt => absurd hlt (Nat.not_lt.mpr hk)⟩
    · obtain ⟨b, hb, hend, huncut⟩ := ih (j := j + 1) (by omega)
      refine ⟨b, by omega, hend, ?_⟩
      intro k hk hlt
      rcases Nat.eq_or_lt_of_le hk with rfl | hk
      · exact hjcut
      · exact huncut k hk hlt

/-- An offset that is no cut lies in a segment. -/
theorem exists_segment (hi : i < s.length) (hcut : ¬CutsAt s sep i) : ∃ a b, Segment s sep a b ∧ a ≤ i ∧ i < b := by
  obtain ⟨a, ha, hbegin, hbefore⟩ := exists_start s sep i
  obtain ⟨b, hb, hend, hbehind⟩ := exists_stop sep (Nat.add_sub_of_le (Nat.le_of_lt hi))
  have hne : i ≠ b := by
    rintro rfl
    rcases hend with hend | hend
    · omega
    · exact hcut hend
  refine ⟨a, b, ⟨hbegin, hend, by omega, ?_⟩, ha, by omega⟩
  intro k hk hlt
  rcases Nat.lt_or_ge k i with hki | hki
  · exact hbefore k hk hki
  · exact hbehind k hki hlt

end Cutting

/-- A reader in front of `r`, at offset `i`, in a segment that starts at `start` and of which it has taken `taken`. -/
structure CutReader (s : List Char) (sep : Char) (i start : Nat) (taken r : List Char) : Prop where
  rest : s.drop i = r
  inside : i ≤ s.length
  le : start ≤ i
  taken_eq : taken.reverse = (s.take i).drop start
  start_ok : start = 0 ∨ 0 < start ∧ CutsAt s sep (start - 1)
  uncut : ∀ j, start ≤ j → j < i → ¬CutsAt s sep j

namespace CutReader

variable {s : List Char} {sep : Char} {i start : Nat} {taken r : List Char} {c : Char}

theorem getElem? (h : CutReader s sep i start taken (c :: r)) : s[i]? = some c := by
  have hhead := congrArg List.head? h.rest
  rwa [List.head?_drop] at hhead

theorem length_taken (h : CutReader s sep i start taken r) : start + taken.length = i := by
  have hlength := congrArg List.length h.taken_eq
  have hinside := h.inside
  have hle := h.le
  rw [List.length_reverse, List.length_drop, List.length_take, Nat.min_eq_left hinside] at hlength
  omega

theorem rest_further (h : CutReader s sep i start taken (c :: r)) : s.drop (i + 1) = r := by
  rw [← List.tail_drop, h.rest, List.tail_cons]

theorem inside_further (h : CutReader s sep i start taken (c :: r)) : i + 1 ≤ s.length :=
  (List.getElem?_eq_some_iff.mp h.getElem?).1

/-- A character at which the text is not cut is taken. -/
theorem further (h : CutReader s sep i start taken (c :: r)) (hc : ¬CutsAt s sep i) :
    CutReader s sep (i + 1) start (c :: taken) r := by
  refine ⟨h.rest_further, h.inside_further, Nat.le_succ_of_le h.le, ?_, h.start_ok, ?_⟩
  · have hlength : (s.take i).length = i := List.length_take_of_le h.inside
    rw [List.reverse_cons, h.taken_eq, List.take_add_one, h.getElem?, Option.toList_some,
      List.drop_append_of_le_length (by rw [hlength]; exact h.le)]
  · intro j hj hlt
    rcases Nat.lt_succ_iff_lt_or_eq.mp hlt with hlt | rfl
    · exact h.uncut j hj hlt
    · exact hc

/-- A cut starts a segment. -/
theorem cut (h : CutReader s sep i start taken (c :: r)) (hc : CutsAt s sep i) :
    CutReader s sep (i + 1) (i + 1) [] r := by
  refine ⟨h.rest_further, h.inside_further, Nat.le_refl _, ?_, .inr ⟨Nat.succ_pos i, hc⟩, ?_⟩
  · rw [List.drop_eq_nil_of_le (by simp)]
    rfl
  · exact fun j hj hlt => absurd hlt (Nat.not_lt.mpr hj)

/-- What was taken up to a cut or the end is a segment. -/
theorem segment (h : CutReader s sep i start taken r) (hi : i = s.length ∨ CutsAt s sep i) : Segment s sep start i :=
  ⟨h.start_ok, hi, h.le, h.uncut⟩

theorem mem_taken (h : CutReader s sep i start taken r) {p : Part} :
    p ∈ (partOf? taken.reverse start).toList ↔ p.Fills s start i := by
  rw [Option.mem_toList, h.taken_eq]
  exact partOf?_eq_some_iff h.le h.inside

section Reading

variable (hopens : opensNesting sep = false) (hcloses : closesNesting sep = false)

include hopens hcloses

theorem splitFrom_cut (h : CutReader s sep i start taken (c :: r)) (hc : CutsAt s sep i) :
    splitFrom sep (nestingAt s i) start taken (c :: r) =
      (partOf? taken.reverse start).toList ++ splitFrom sep (nestingAt s (i + 1)) (i + 1) [] r := by
  obtain rfl : c = sep := Option.some.inj (h.getElem?.symm.trans hc.1)
  have hnesting := nestingAt_succ h.getElem?
  rw [hopens, hcloses] at hnesting
  simp only [Bool.false_eq_true, if_false, Int.add_zero, Int.sub_zero] at hnesting
  rw [splitFrom, if_neg (by simp [hopens]), if_neg (by simp [hcloses]), if_pos ⟨rfl, hc.2⟩, h.length_taken, hnesting]

theorem splitFrom_further (h : CutReader s sep i start taken (c :: r)) (hc : ¬CutsAt s sep i) :
    splitFrom sep (nestingAt s i) start taken (c :: r) = splitFrom sep (nestingAt s (i + 1)) start (c :: taken) r := by
  have hnesting := nestingAt_succ h.getElem?
  rw [splitFrom]
  by_cases ho : opensNesting c = true
  · rw [if_pos ho, hnesting, if_pos ho, closesNesting_of_opens ho]
    simp
  · rw [if_neg ho] at hnesting ⊢
    by_cases hcl : closesNesting c = true
    · rw [if_pos hcl, hnesting, if_pos hcl, Int.add_zero]
    · have hnot : ¬(c = sep ∧ nestingAt s i ≤ 0) := by
        rintro ⟨rfl, hle⟩
        exact hc ⟨h.getElem?, hle⟩
      rw [if_neg hcl] at hnesting ⊢
      rw [if_neg hnot, hnesting, Int.add_zero, Int.sub_zero]

/-- The parts that are still to come are those that fill the segments from the present one on. -/
theorem mem_splitFrom (h : CutReader s sep i start taken r) {p : Part} :
    p ∈ splitFrom sep (nestingAt s i) start taken r ↔
      ∃ a b, Segment s sep a b ∧ start ≤ a ∧ (b = s.length → nestingAt s s.length ≤ 0) ∧ p.Fills s a b := by
  induction r generalizing i start taken with
  | nil =>
    obtain rfl : i = s.length := Nat.le_antisymm h.inside (List.drop_eq_nil_iff.mp h.rest)
    have hsegment := h.segment (.inl rfl)
    rw [splitFrom]
    constructor
    · intro hp
      split at hp
      next hclosed => exact ⟨start, _, hsegment, Nat.le_refl start, fun _ => hclosed, h.mem_taken.mp hp⟩
      next => cases hp
    · rintro ⟨a, b, hab, hstart, hclosed, hfills⟩
      have hstop := hab.stop_le
      obtain rfl : start = a := by
        rcases Nat.eq_or_lt_of_le hstart with heq | hlt
        · exact heq
        · have hbehind := hsegment.lt_of_start_lt hab hlt
          have hle := hab.le
          omega
      obtain rfl := hsegment.stop_unique hab
      rw [if_pos (hclosed rfl)]
      exact h.mem_taken.mpr hfills
  | cons c r ih =>
    by_cases hc : CutsAt s sep i
    · have hsegment := h.segment (.inr hc)
      rw [splitFrom_cut hopens hcloses h hc, List.mem_append, h.mem_taken, ih (h.cut hc)]
      constructor
      · rintro (hfills | ⟨a, b, hab, hstart, hclosed, hfills⟩)
        · exact ⟨start, i, hsegment, Nat.le_refl start, fun hend => absurd hc.lt (by omega), hfills⟩
        · have hle := h.le
          exact ⟨a, b, hab, by omega, hclosed, hfills⟩
      · rintro ⟨a, b, hab, hstart, hclosed, hfills⟩
        rcases Nat.eq_or_lt_of_le hstart with rfl | hlt
        · obtain rfl := hsegment.stop_unique hab
          exact .inl hfills
        · exact .inr ⟨a, b, hab, hsegment.lt_of_start_lt hab hlt, hclosed, hfills⟩
    · rw [splitFrom_further hopens hcloses h hc]
      exact ih (h.further hc)

/-- The parts that are still to come are in order, and there is a separator between any two. -/
theorem pairwise_splitFrom (h : CutReader s sep i start taken r) :
    (splitFrom sep (nestingAt s i) start taken r).Pairwise fun p q => p.offset + p.text.length < q.offset := by
  induction r generalizing i start taken with
  | nil =>
    rw [splitFrom]
    split
    · cases partOf? taken.reverse start <;> simp
    · exact .nil
  | cons c r ih =>
    by_cases hc : CutsAt s sep i
    · rw [splitFrom_cut hopens hcloses h hc]
      refine List.pairwise_append.mpr ⟨?_, ih (h.cut hc), ?_⟩
      · cases partOf? taken.reverse start <;> simp
      · intro p hp q hq
        have hfills := h.mem_taken.mp hp
        obtain ⟨a, b, _, hstart, _, hbehind⟩ := (mem_splitFrom hopens hcloses (h.cut hc)).mp hq
        have hstop := hfills.stop_le
        have hfirst := hbehind.start_le
        omega
    · rw [splitFrom_further hopens hcloses h hc]
      exact ih (h.further hc)

end Reading

theorem begin (s : List Char) (sep : Char) : CutReader s sep 0 0 [] s :=
  ⟨List.drop_zero, Nat.zero_le _, Nat.le_refl 0, rfl, .inl rfl, fun j _ hj => absurd hj (Nat.not_lt_zero j)⟩

end CutReader

section Parts

variable {s : List Char} {sep : Char} (hopens : opensNesting sep = false) (hcloses : closesNesting sep = false)

include hopens hcloses

theorem mem_topLevelParts {p : Part} : p ∈ topLevelParts s sep ↔
    ∃ a b, Segment s sep a b ∧ (b = s.length → nestingAt s s.length ≤ 0) ∧ p.Fills s a b := by
  have hmem := CutReader.mem_splitFrom hopens hcloses (CutReader.begin s sep) (p := p)
  simpa [topLevelParts, nestingAt] using hmem

/-- What lies in a part lies in a segment that counts. -/
theorem counts_of_covers {p : Part} {i : Nat} (hp : p ∈ topLevelParts s sep) (hi : p.Covers i) :
    nestingAt s s.length ≤ 0 ∨ ∃ j, i < j ∧ CutsAt s sep j := by
  obtain ⟨a, b, hab, hclosed, hfills⟩ := (mem_topLevelParts hopens hcloses).mp hp
  rcases hab.stop with hend | hend
  · exact .inl (hclosed hend)
  · exact .inr ⟨b, Nat.lt_of_lt_of_le hi.2 hfills.stop_le, hend⟩

/-- A character that is neither blank nor a cut lies in one part, if its segment counts. -/
theorem existsUnique_part {i : Nat} (hi : ∃ c, s[i]? = some c ∧ isBlank c = false) (hcut : ¬CutsAt s sep i)
    (hcounts : nestingAt s s.length ≤ 0 ∨ ∃ j, i < j ∧ CutsAt s sep j) :
    ∃! p, p ∈ topLevelParts s sep ∧ p.Covers i := by
  obtain ⟨c, hc, hblank⟩ := hi
  obtain ⟨a, b, hab, ha, hb⟩ := exists_segment (List.getElem?_eq_some_iff.mp hc).1 hcut
  have hclosed : b = s.length → nestingAt s s.length ≤ 0 := by
    rintro rfl
    rcases hcounts with hclosed | ⟨j, hj, hjcut⟩
    · exact hclosed
    · exact absurd hjcut (hab.uncut j (by omega) hjcut.lt)
  obtain ⟨p, _, hfills⟩ := exists_fills hab.le hab.stop_le ⟨c, mem_stretch ha hb hc, hblank⟩
  have hcovers := hfills.covers ha hb ⟨c, hc, hblank⟩
  refine ⟨p, ⟨(mem_topLevelParts hopens hcloses).mpr ⟨a, b, hab, hclosed, hfills⟩, hcovers⟩, ?_⟩
  rintro q ⟨hq, hlow, hhigh⟩
  obtain ⟨a', b', hab', _, hqfills⟩ := (mem_topLevelParts hopens hcloses).mp hq
  have hqstart := hqfills.start_le
  have hqstop := hqfills.stop_le
  obtain rfl : a = a' := by
    rcases Nat.lt_trichotomy a a' with hlt | heq | hgt
    · have hbehind := hab.lt_of_start_lt hab' hlt
      omega
    · exact heq
    · have hbehind := hab'.lt_of_start_lt hab hgt
      omega
  obtain rfl := hab.stop_unique hab'
  exact hqfills.unique hfills

end Parts

/-- The parts of a text are what its segments hold between blanks, each with the offset at which it stands, in order and
with a separator between any two; but of the last segment there is a part only if no bracket is left open. So a character
that is neither blank nor a cut lies in exactly one part, unless it stands behind the last cut and a bracket is left
open, and then it lies in none. -/
theorem topLevelParts_exact {sep : Char} (hopens : opensNesting sep = false) (hcloses : closesNesting sep = false)
    (s : List Char) :
    (∀ p, p ∈ topLevelParts s sep ↔
      ∃ a b, Segment s sep a b ∧ (b = s.length → nestingAt s s.length ≤ 0) ∧ p.Fills s a b) ∧
    (topLevelParts s sep).Pairwise (fun p q => p.offset + p.text.length < q.offset) ∧
    ∀ i c, s[i]? = some c → isBlank c = false → ¬CutsAt s sep i →
      ((nestingAt s s.length ≤ 0 ∨ ∃ j, i < j ∧ CutsAt s sep j) → ∃! p, p ∈ topLevelParts s sep ∧ p.Covers i) ∧
      (¬(nestingAt s s.length ≤ 0 ∨ ∃ j, i < j ∧ CutsAt s sep j) → ∀ p ∈ topLevelParts s sep, ¬p.Covers i) := by
  refine ⟨fun p => mem_topLevelParts hopens hcloses, ?_, ?_⟩
  · have hpairwise := CutReader.pairwise_splitFrom hopens hcloses (CutReader.begin s sep)
    simpa [topLevelParts, nestingAt] using hpairwise
  · intro i c hc hblank hcut
    refine ⟨existsUnique_part hopens hcloses ⟨c, hc, hblank⟩ hcut, ?_⟩
    intro hnot p hp hcovers
    exact hnot (counts_of_covers hopens hcloses hp hcovers)

/-- Separators within brackets do not cut, and the last part counts when the brackets are closed. -/
theorem topLevelParts_exact_nested :
    let s := "m: \x7bInt: Bool, Int\x7d, ids: [Int]".toList
    opensNesting ',' = false ∧ closesNesting ',' = false ∧ nestingAt s s.length ≤ 0 ∧ ¬CutsAt s ',' 13 ∧
      (∃ a b, Segment s ',' a b ∧ Part.Fills ⟨"ids: [Int]".toList, 21⟩ s a b) ∧
      ∃! p, p ∈ topLevelParts s ',' ∧ p.Covers 13 := by
  intro s
  obtain ⟨hparts, _, hcharacters⟩ := topLevelParts_exact (show opensNesting ',' = false by decide) (by decide) s
  have hclosed : nestingAt s s.length ≤ 0 := by decide
  have hcut : ¬CutsAt s ',' 13 := by decide
  obtain ⟨a, b, hab, _, hfills⟩ := (hparts ⟨"ids: [Int]".toList, 21⟩).mp (by decide)
  exact ⟨by decide, by decide, hclosed, hcut, ⟨a, b, hab, hfills⟩,
    (hcharacters 13 ',' (by decide) (by decide) hcut).1 (.inl hclosed)⟩

/-- A parameter behind the last separator is lost when its angle bracket is left open, and its type is not checked. -/
theorem topLevelParts_lose_unclosed :
    let s := "a: Int, b: Array<int".toList
    Segment s ',' 7 20 ∧ Part.Fills ⟨"b: Array<int".toList, 8⟩ s 7 20 ∧
      ⟨"b: Array<int".toList, 8⟩ ∉ topLevelParts s ',' ∧ topLevelParts s ',' = [⟨"a: Int".toList, 0⟩] ∧
      isEventType "Array<int".toList = false ∧
      eventErrorsAt 1 "access(all) event E(a: Int, b: Array<int)".toList = [] := by
  intro s
  have huncut : ∀ i < 20, 7 ≤ i → ¬CutsAt s ',' i := by decide
  have hsegment : Segment s ',' 7 20 :=
    ⟨.inr ⟨by decide, by decide⟩, .inl rfl, by decide, fun i hi hlt => huncut i hlt hi⟩
  have hfills : Part.Fills ⟨"b: Array<int".toList, 8⟩ s 7 20 :=
    (partOf?_eq_some_iff hsegment.le hsegment.stop_le).mp (by decide)
  exact ⟨hsegment, hfills, by decide, by decide, by decide +kernel, by decide +kernel⟩

end CadenceUplift
