import CadenceUplift.Proofs.Uplift.LiteralsKept

namespace CadenceUplift

open Text Pattern

section Getters

/-- Where the second group of a match starts. -/
def signatureStart? (M : Match) : Option Nat := (M.capture? 2).map (·.start)

/-- Where the words `fun` stand of the getters without a view modifier that start in code. -/
def viewPlaces (s : List Char) : List Nat :=
  (matchesOutside Legacy.getter s.toArray (literalIndex s)).filterMap signatureStart?

variable {s : List Char}

/-- A getter that is found, up to its word `fun` and from there on. -/
theorem getter_split {i : Nat} {M : Match} (hi : i ≤ s.length) (h : Legacy.getter.matchAt s.toArray i = some M) :
    ∃ x₁ x₂, s.drop i = x₁ ++ ('f' :: x₂ ++ s.drop M.stop) ∧ M.start = i ∧
      M.stop = i + (x₁ ++ 'f' :: x₂).length ∧ signatureStart? M = some (i + x₁.length) ∧
      insertView M s.toArray = x₁ ++ (viewText ++ 'f' :: x₂) := by
  obtain ⟨a, u, rfl, rfl⟩ : ∃ a u, s = a ++ u ∧ a.length = i :=
    ⟨s.take i, s.drop i, (List.take_append_drop i s).symm, List.length_take_of_le hi⟩
  obtain ⟨hreach, hstart⟩ := matchAt_eq_some getter_reads.regular h
  obtain ⟨_, x₁, x₂, r, rfl, _, hsignature, hplace⟩ := reach_getter.mp hreach
  obtain ⟨x₂, rfl⟩ : ∃ x, x₂ = 'f' :: x := by
    obtain ⟨b, w, g, P, g', rfl, _⟩ := mem_language_signature.mp hsignature
    exact ⟨_, rfl⟩
  obtain ⟨i, j, captures⟩ := M
  obtain ⟨rfl, rfl⟩ := Place.mk.inj hplace
  have hstop : (a ++ (x₁ ++ ('f' :: x₂ ++ r))).drop (a ++ (x₁ ++ 'f' :: x₂)).length = r := by
    have htext : a ++ (x₁ ++ ('f' :: x₂ ++ r)) = a ++ (x₁ ++ 'f' :: x₂) ++ r := by simp
    rw [htext, List.drop_left]
  refine ⟨x₁, x₂, ?_, hstart, ?_, ?_, ?_⟩
  · rw [List.drop_left, hstop]
  · simp
  · simp [signatureStart?, Match.capture?]
  · rw [insertView_eq]
    simp [viewText]

/-- The matches from a place on do not start before it, and neither do their signatures. -/
theorem signatureStart_ge {i : Nat} {ms : List Match} (h : Found Legacy.getter s.toArray i ms) :
    (∀ M ∈ ms, i ≤ M.start) ∧ ∀ p ∈ ms.filterMap signatureStart?, i ≤ p := by
  induction h with
  | stop => simp
  | miss _ _ _ ih =>
    exact ⟨fun M hM => Nat.le_of_succ_le (ih.1 M hM), fun p hp => Nat.le_of_succ_le (ih.2 p hp)⟩
  | @hit i M ms hi hm _ ih =>
    obtain ⟨x₁, x₂, _, hstart, hstop, hsignature, _⟩ := getter_split (by simpa using hi) hm
    constructor
    · intro N hN
      rcases List.mem_cons.mp hN with rfl | hN
      · exact Nat.le_of_eq hstart.symm
      · have := ih.1 N hN
        omega
    · intro p hp
      rw [List.filterMap_cons_some hsignature] at hp
      rcases List.mem_cons.mp hp with rfl | hp
      · omega
      · have := ih.2 p hp
        omega

/-- A text in front of all places is copied. -/
theorem withViews_copy {places : List Nat} {i k : Nat} (h : ∀ p ∈ places, i + k ≤ p) (hk : i + k ≤ s.length) :
    withViews places i (s.drop i) = (s.drop i).take k ++ withViews places (i + k) (s.drop (i + k)) := by
  have hlength : ((s.drop i).take k).length = k := by
    rw [List.length_take, List.length_drop]
    omega
  have hfront : withViews places i ((s.drop i).take k) = (s.drop i).take k := by
    rw [withViews_eq_self_iff, hlength]
    intro p hp hwithin
    have := h p hp
    omega
  have hsplit := withViews_append places i ((s.drop i).take k) ((s.drop i).drop k)
  rwa [List.take_append_drop, hfront, hlength, List.drop_drop] at hsplit

theorem splice_kept (keep : Match → Bool) {ms : List Match} {i k : Nat} (h : ∀ M ∈ ms, i + k ≤ M.start)
    (hk : i + k ≤ s.length) {f : Match → List Char} :
    splice s.toArray i ((ms.filter keep).map fun M => (M, f M)) =
      (s.drop i).take k ++ splice s.toArray (i + k) ((ms.filter keep).map fun M => (M, f M)) := by
  refine splice_copy ?_ (by simpa using hk)
  intro new hnew
  obtain ⟨M, hM, rfl⟩ := List.mem_map.mp (List.mem_of_mem_head? hnew)
  exact h M (List.mem_filter.mp hM).1

theorem places_kept (keep : Match → Bool) {ms : List Match} {i : Nat} (h : ∀ p ∈ ms.filterMap signatureStart?, i ≤ p) :
    ∀ p ∈ (ms.filter keep).filterMap signatureStart?, i ≤ p := by
  intro p hp
  obtain ⟨M, hM, hstart⟩ := List.mem_filterMap.mp hp
  exact h p (List.mem_filterMap.mpr ⟨M, (List.mem_filter.mp hM).1, hstart⟩)

theorem splice_end {i : Nat} (hi : s.length ≤ i) : splice s.toArray i [] = withViews [] i (s.drop i) := by
  have hnone : s.drop i = [] := List.drop_eq_nil_of_le hi
  simp [splice, hnone, withViews]

/-- One getter takes a view modifier, and places behind it are for those that come later. -/
theorem withViews_getter {places : List Nat} {i j : Nat} {x₁ x₂ r : List Char} (hj : j = i + (x₁ ++ 'f' :: x₂).length)
    (h : ∀ p ∈ places, j ≤ p) :
    withViews ((i + x₁.length) :: places) i (x₁ ++ ('f' :: x₂ ++ r)) =
      x₁ ++ (viewText ++ 'f' :: x₂) ++ withViews places j r := by
  simp only [List.length_append, List.length_cons] at hj
  have hfront : withViews ((i + x₁.length) :: places) i x₁ = x₁ := by
    rw [withViews_eq_self_iff]
    intro p hp hwithin
    rcases List.mem_cons.mp hp with rfl | hp
    · omega
    · have := h p hp
      omega
  have hview : viewAt ((i + x₁.length) :: places) (i + x₁.length) = viewText := if_pos List.mem_cons_self
  have hother : withViews ((i + x₁.length) :: places) (i + x₁.length + 1) (x₂ ++ r) =
      withViews places (i + x₁.length + 1) (x₂ ++ r) := by
    refine withViews_congr fun p hp _ => ⟨fun hmem => ?_, List.mem_cons_of_mem _⟩
    exact (List.mem_cons.mp hmem).resolve_left (by omega)
  have hback : withViews places (i + x₁.length + 1) x₂ = x₂ := by
    rw [withViews_eq_self_iff]
    intro p hp hwithin
    have := h p hp
    omega
  have hend : i + x₁.length + 1 + x₂.length = j := by omega
  rw [withViews_append, hfront, List.cons_append, withViews, hview, hother, withViews_append, hback, hend]
  simp

/-- Getters with view modifiers, put in place of some that are found, make the text with view modifiers at their words
`fun`. -/
theorem splice_getters (keep : Match → Bool) {i : Nat} {ms : List Match} (h : Found Legacy.getter s.toArray i ms) :
    splice s.toArray i ((ms.filter keep).map fun M => (M, insertView M s.toArray)) =
      withViews ((ms.filter keep).filterMap signatureStart?) i (s.drop i) := by
  induction h with
  | stop hlt => exact splice_end (by simpa using Nat.le_of_lt hlt)
  | @miss i ms hi _ hrest ih =>
    obtain ⟨hstarts, hplaces⟩ := signatureStart_ge hrest
    rcases Nat.lt_or_ge i s.length with hlt | hge
    · rw [splice_kept keep hstarts hlt, withViews_copy (places_kept keep hplaces) hlt, ih]
    · cases hrest with
      | stop _ => exact splice_end hge
      | miss hle _ _ | hit hle _ _ =>
        rw [List.size_toArray] at hle
        omega
  | @hit i M ms hi hm hrest ih =>
    obtain ⟨x₁, x₂, hdrop, hstart, hstop, hsignature, hview⟩ := getter_split (by simpa using hi) hm
    obtain ⟨hstarts, hplaces⟩ := signatureStart_ge hrest
    have hplaces' := places_kept keep hplaces
    cases hkeep : keep M with
    | true =>
      rw [List.filter_cons_of_pos hkeep, List.map_cons, List.filterMap_cons_some hsignature, splice, hview, hstart, ih,
        hdrop, withViews_getter hstop hplaces']
      simp
    | false =>
      have hle : i + (x₁ ++ 'f' :: x₂).length ≤ s.length := by
        have hlength := congrArg List.length hdrop
        simp only [List.length_drop, List.length_append, List.length_cons] at hlength ⊢
        omega
      rw [hstop] at hstarts hplaces' ih
      rw [List.filter_cons_of_neg (by simp [hkeep]), splice_kept keep hstarts hle, withViews_copy hplaces' hle, ih]

/-- The step for getters puts a view modifier in front of each word `fun` of a getter that starts in code. -/
theorem getter_after_eq (s : List Char) : Step.getter.after true s = withViews (viewPlaces s) 0 s := by
  have hfound := found_allMatches (t := s.toArray) getter_reads.regular getter_reads.advances
  have hsplice := splice_getters (fun M => !(literalIndex s).covers M.start) hfound
  have hrun : Step.getter.run true s = .ok ⟨withViews (viewPlaces s) 0 s, Step.getter.load true s⟩ := by
    rw [Step.run, replaceInCode]
    change (rewriteAll (fun M t => .ok (insertView M t)) s.toArray (matchesOutside Legacy.getter s.toArray
      (literalIndex s)) >>= _) = _
    rw [rewriteAll_ok]
    exact congrArg (fun u => (Except.ok (Replaced.mk u _) : Except UpliftError Replaced)) hsplice
  exact Step.after_of_run hrun

theorem viewPlaces_atQuiet (s : List Char) : AtQuiet s (viewPlaces s) := by
  intro p hp
  obtain ⟨M, hM, hsignature⟩ := List.mem_filterMap.mp hp
  obtain ⟨hsize, hmatch⟩ := matchAt_of_mem_allMatches getter_reads.regular getter_reads.advances
    (List.mem_filter.mp hM).1
  obtain ⟨x₁, x₂, hdrop, _, _, hsignature', _⟩ := getter_split (by simpa using hsize) hmatch
  obtain rfl : p = M.start + x₁.length := Option.some.inj (hsignature.symm.trans hsignature')
  have hrest : s.drop (M.start + x₁.length) = 'f' :: x₂ ++ s.drop M.stop := by
    rw [← List.drop_drop, hdrop, List.drop_left]
  exact ⟨'f', (drop_eq_cons hrest).1, by simp [Quiet]⟩

end Getters

/-- With the starting rules and literals left alone, the pass for functions ends. Each comment and string becomes what
it was with a view modifier in front of each word `fun` within it that is the word of a getter which starts in code, and
all of them stay as they are just if no such word is in one. -/
theorem upliftPass_views_literals [CharacterNames] (o : RunOptions) (ho : o.preserves = true) (s : List Char) :
    ∃ once, (RuleSet.mk o Rule.defaults).upliftPass (.text Category.function.name) s = .ok once ∧
      literalTexts once.text = (literals s).map (fun l =>
        (l.kind, withViews (viewPlaces s) l.start (s.extract l.start l.stop))) ∧
      (literalTexts once.text = literalTexts s ↔ ∀ p ∈ viewPlaces s, ¬Covered p (literals s)) := by
  have hsteps : stepsOf (.text Category.function.name) = [.getter] := by decide +kernel
  have htext : afterSteps o.preserves (stepsOf (.text Category.function.name)) s = withViews (viewPlaces s) 0 s := by
    rw [ho, hsteps]
    exact getter_after_eq s
  have hviewed := (viewPlaces_atQuiet s).literalTexts_withViews
  refine ⟨_, upliftPass_eq o (.text Category.function.name) s, ?_⟩
  rw [htext, hviewed]
  exact ⟨rfl, map_withViews_eq_iff s (viewPlaces s)⟩

/-- A getter in code in front of a comment with another one. -/
theorem upliftPass_views_literals_behind :
    ({} : RunOptions).preserves = true ∧
      viewPlaces "access(all) fun getA(): Int // access(all) fun getB():".toList = [12] ∧
      ∃ once, (RuleSet.mk {} Rule.defaults).upliftPass (.text Category.function.name)
          "access(all) fun getA(): Int // access(all) fun getB():".toList = .ok once ∧
        literalTexts once.text = literalTexts "access(all) fun getA(): Int // access(all) fun getB():".toList := by
  have hplaces : viewPlaces "access(all) fun getA(): Int // access(all) fun getB():".toList = [12] := by decide +kernel
  have hliterals : literals "access(all) fun getA(): Int // access(all) fun getB():".toList = [⟨28, 54, .comment⟩] := by
    decide +kernel
  obtain ⟨once, hpass, _, hsame⟩ :=
    upliftPass_views_literals {} rfl "access(all) fun getA(): Int // access(all) fun getB():".toList
  refine ⟨rfl, hplaces, once, hpass, hsame.mpr ?_⟩
  rw [hplaces, hliterals]
  simp [Covered]

/-- An access modifier whose brackets hold a comment with a getter: the comment takes the view modifier. -/
theorem upliftPass_views_comment :
    ∃ once, (RuleSet.mk {} Rule.defaults).upliftPass (.text Category.function.name)
        "access(all /* was access(self) fun getX(): Int */) let x: Int".toList = .ok once ∧
      literalTexts once.text = [(.comment, "/* was access(self) view fun getX(): Int */".toList)] ∧
      literalTexts once.text ≠ literalTexts "access(all /* was access(self) fun getX(): Int */) let x: Int".toList := by
  refine ⟨_, upliftPass_eq {} (.text Category.function.name) _, ?_, ?_⟩
  · decide +kernel
  · decide +kernel

end CadenceUplift
