import CadenceUplift.Proofs.Pattern.Extent
import CadenceUplift.Proofs.Uplift.NamedPasses
import Mathlib.Data.List.TakeWhile

namespace CadenceUplift

/-- A text with a stretch picked out. -/
structure Excerpt where
  front : List Char
  line : List Char
  back : List Char
deriving DecidableEq, Repr

namespace Excerpt

def text (e : Excerpt) : List Char := e.front ++ (e.line ++ e.back)

/-- Where the stretch starts. -/
def start (e : Excerpt) : Nat := e.front.length

/-- Where the stretch ends. -/
def stop (e : Excerpt) : Nat := e.front.length + e.line.length

/-- The match starts or extends in the stretch. -/
def EnteredBy (e : Excerpt) (m : Match) : Prop := m.start < e.stop ∧ (e.start ≤ m.start ∨ e.start < m.stop)

theorem start_le_stop (e : Excerpt) : e.start ≤ e.stop := Nat.le_add_right _ _

end Excerpt

/-- Some match of the rule that is up for replacement enters the stretch. -/
def Rule.Enters [CharacterNames] (r : Rule) (skipLiterals : Bool) (e : Excerpt) : Prop :=
  ∃ p, r.compile = .ok p ∧
    ∃ m ∈ matchesOutside p.pattern e.text.toArray (skipIndex skipLiterals e.text), e.EnteredBy m

/-- The rule replaces its matches in front of the stretch and behind it, and there are no others. -/
def Rule.Spares [CharacterNames] (r : Rule) (skipLiterals : Bool) (e e' : Excerpt) : Prop :=
  ∃ p before behind, r.compile = .ok p ∧
    rewriteAll (replace p r.replacement) e.text.toArray
      (matchesOutside p.pattern e.text.toArray (skipIndex skipLiterals e.text)) = .ok (before ++ behind) ∧
    (∀ m ∈ before, m.1.start < e.start ∧ m.1.stop ≤ e.start) ∧ (∀ m ∈ behind, e.stop ≤ m.1.start) ∧
    e' = ⟨splice e.front.toArray 0 before, e.line, splice e.text.toArray e.stop behind⟩

/-- Each of some rules, in its turn, spares the stretch. -/
inductive Spared [CharacterNames] (skipLiterals : Bool) : List Rule → Excerpt → Excerpt → Prop
  | nil (e : Excerpt) : Spared skipLiterals [] e e
  | cons {r : Rule} {rules : List Rule} {e mid e' : Excerpt} :
      r.Spares skipLiterals e mid → Spared skipLiterals rules mid e' → Spared skipLiterals (r :: rules) e e'

/-- Some match of one of the rules, in its turn, enters the stretch. -/
inductive Touched [CharacterNames] (skipLiterals : Bool) : List Rule → Excerpt → Prop
  | now {r : Rule} {rules : List Rule} {e : Excerpt} :
      r.Enters skipLiterals e → Touched skipLiterals (r :: rules) e
  | later {r : Rule} {rules : List Rule} {e mid : Excerpt} :
      r.Spares skipLiterals e mid → Touched skipLiterals rules mid → Touched skipLiterals (r :: rules) e

/-- What sparing the stretch comes to, if the step spares it. -/
def Step.spare? (st : Step) (skipLiterals : Bool) (e : Excerpt) : Option Excerpt :=
  let ms := matchesOutside st.pattern e.text.toArray (skipIndex skipLiterals e.text)
  let news := ms.map fun m => (m, st.write m e.text.toArray)
  let before := news.takeWhile fun m => decide (m.1.start < e.start)
  let behind := news.dropWhile fun m => decide (m.1.start < e.start)
  if (∀ m ∈ before, m.1.stop ≤ e.start) ∧ ∀ m ∈ behind, e.stop ≤ m.1.start then
    some ⟨splice e.front.toArray 0 before, e.line, splice e.text.toArray e.stop behind⟩
  else none

/-- What it comes to when each of some steps, in its turn, spares the stretch. -/
def spareAll? (skipLiterals : Bool) : List Step → Excerpt → Option Excerpt
  | [], e => some e
  | st :: ss, e => do spareAll? skipLiterals ss (← st.spare? skipLiterals e)

section Splicing

variable {t : Array Char} {a b : Nat}

theorem toList_extract_append {i j k : Nat} (hij : i ≤ j) (hjk : j ≤ k) :
    (t.extract i k).toList = (t.extract i j).toList ++ (t.extract j k).toList := by
  rw [← Array.toList_append, Array.extract_append_extract, Nat.min_eq_left hij, Nat.max_eq_right hjk]

theorem extract_extract_zero {i j : Nat} (hj : j ≤ a) : (t.extract 0 a).extract i j = t.extract i j := by
  rw [Array.extract_extract, Nat.zero_add, Nat.zero_add, Nat.min_eq_left hj]

/-- From a place in front of every match, the text up to any of the places between stands as it was. -/
theorem splice_behind {behind : List (Match × List Char)} (hab : a ≤ b) (hb : b ≤ t.size)
    (hbehind : ∀ m ∈ behind, b ≤ m.1.start) :
    splice t a behind = (t.extract a b).toList ++ splice t b behind := by
  cases behind with
  | nil => exact toList_extract_append hab hb
  | cons m behind =>
    obtain ⟨m, new⟩ := m
    have hm : b ≤ m.start := hbehind (m, new) (by simp)
    simp only [splice, toList_extract_append hab hm, List.append_assoc]

/-- Where no match reaches over a stretch, it stands between what is made of the text before it and behind it. -/
theorem splice_append {before behind : List (Match × List Char)} {last : Nat} (hlast : last ≤ a) (hab : a ≤ b)
    (hb : b ≤ t.size) (hbefore : ∀ m ∈ before, m.1.start ≤ a ∧ m.1.stop ≤ a)
    (hbehind : ∀ m ∈ behind, b ≤ m.1.start) :
    splice t last (before ++ behind) =
      splice (t.extract 0 a) last before ++ ((t.extract a b).toList ++ splice t b behind) := by
  induction before generalizing last with
  | nil =>
    have hsize : (t.extract 0 a).size = a := by simp; omega
    rw [List.nil_append, splice_behind (Nat.le_trans hlast hab) hb hbehind, splice, hsize,
      extract_extract_zero (Nat.le_refl a), toList_extract_append hlast hab, List.append_assoc]
  | cons m before ih =>
    obtain ⟨m, new⟩ := m
    obtain ⟨hstart, hstop⟩ := hbefore (m, new) (by simp)
    have hrest := ih hstop fun x hx => hbefore x (by simp [hx])
    rw [List.cons_append, splice, splice, hrest, extract_extract_zero hstart]
    simp only [List.append_assoc]

end Splicing

/-- Matches in order, none of which enters a stretch, are those in front of it and then those behind it. -/
theorem exists_before_behind {a b : Nat} {news : List (Match × List Char)}
    (horder : news.Pairwise fun m m' => m.1.stop ≤ m'.1.start) (hle : ∀ m ∈ news, m.1.start ≤ m.1.stop)
    (h : ∀ m ∈ news, m.1.start < a ∧ m.1.stop ≤ a ∨ b ≤ m.1.start) :
    ∃ before behind, news = before ++ behind ∧ (∀ m ∈ before, m.1.start < a ∧ m.1.stop ≤ a) ∧
      ∀ m ∈ behind, b ≤ m.1.start := by
  induction news with
  | nil => exact ⟨[], [], rfl, by simp, by simp⟩
  | cons m news ih =>
    obtain ⟨hfirst, horder⟩ := List.pairwise_cons.mp horder
    rcases h m (by simp) with hm | hm
    · obtain ⟨before, behind, rfl, hbefore, hbehind⟩ :=
        ih horder (fun x hx => hle x (by simp [hx])) fun x hx => h x (by simp [hx])
      refine ⟨m :: before, behind, rfl, ?_, hbehind⟩
      intro x hx
      rcases List.mem_cons.mp hx with rfl | hx
      · exact hm
      · exact hbefore x hx
    · refine ⟨[], m :: news, rfl, by simp, ?_⟩
      intro x hx
      rcases List.mem_cons.mp hx with rfl | hx
      · exact hm
      · exact Nat.le_trans hm (Nat.le_trans (hle m (by simp)) (hfirst x hx))

section Rules

variable [CharacterNames] {skipLiterals : Bool} {r : Rule} {e : Excerpt}

/-- What a rule makes of a text keeps the stretch, unless a match enters it. -/
theorem Rule.enters_or_spares {next : Replaced} (h : r.apply e.text skipLiterals = .ok next) :
    r.Enters skipLiterals e ∨ ∃ e', r.Spares skipLiterals e e' ∧ next.text = e'.text := by
  obtain ⟨p, news, hp, hnews, rfl⟩ := Rule.exists_of_apply h
  by_cases henters : r.Enters skipLiterals e
  · exact .inl henters
  have hstarts := rewriteAll_start hnews
  have hmatch : ∀ m ∈ news, m.1 ∈ matchesOutside p.pattern e.text.toArray (skipIndex skipLiterals e.text) := by
    intro m hm
    rw [← hstarts]
    exact List.mem_map_of_mem hm
  have hwithin : ∀ m ∈ news, m.1.start ≤ m.1.stop := fun m hm =>
    (Pattern.isMatch_of_mem_allMatches (List.mem_of_mem_filter (hmatch m hm))).within.start_le
  have horder : news.Pairwise fun m m' => m.1.stop ≤ m'.1.start := by
    have hfiltered : (news.map (·.1)).Pairwise fun m m' => m.stop ≤ m'.start := by
      rw [hstarts]
      exact (Pattern.allMatches_ordered _ _).filter _
    exact List.pairwise_map.mp hfiltered
  have hout : ∀ m ∈ news, m.1.start < e.start ∧ m.1.stop ≤ e.start ∨ e.stop ≤ m.1.start := by
    intro m hm
    have hnot : ¬e.EnteredBy m.1 := fun hin => henters ⟨p, hp, m.1, hmatch m hm, hin⟩
    unfold Excerpt.EnteredBy at hnot
    omega
  obtain ⟨before, behind, rfl, hbefore, hbehind⟩ := exists_before_behind horder hwithin hout
  refine .inr ⟨_, ⟨p, before, behind, hp, hnews, hbefore, hbehind, rfl⟩, ?_⟩
  have hsize : e.stop ≤ e.text.toArray.size := by simp [Excerpt.text, Excerpt.stop]
  have hfront : e.text.toArray.extract 0 e.start = e.front.toArray := by simp [Excerpt.text, Excerpt.start]
  have hline : (e.text.toArray.extract e.start e.stop).toList = e.line := by
    simp [Excerpt.text, Excerpt.start, Excerpt.stop]
  have hsplice := splice_append (Nat.zero_le _) e.start_le_stop hsize
    (fun m hm => ⟨Nat.le_of_lt (hbefore m hm).1, (hbefore m hm).2⟩) hbehind
  rw [hfront, hline] at hsplice
  exact hsplice

theorem Rule.Spares.line {e' : Excerpt} (h : r.Spares skipLiterals e e') : e'.line = e.line := by
  obtain ⟨_, _, _, _, _, _, _, rfl⟩ := h
  rfl

theorem Spared.line {rules : List Rule} {e' : Excerpt} (h : Spared skipLiterals rules e e') : e'.line = e.line := by
  induction h with
  | nil => rfl
  | cons hfirst _ ih => exact ih.trans hfirst.line

/-- A match that enters the stretch is in the way of sparing it. -/
theorem Rule.Spares.not_enters {e' : Excerpt} (h : r.Spares skipLiterals e e') : ¬r.Enters skipLiterals e := by
  obtain ⟨p, before, behind, hp, hnews, hbefore, hbehind, rfl⟩ := h
  rintro ⟨q, hq, m, hm, hlt, hin⟩
  obtain rfl : p = q := Except.ok.inj (hp.symm.trans hq)
  rw [← rewriteAll_start hnews] at hm
  obtain ⟨x, hx, rfl⟩ := List.mem_map.mp hm
  rcases List.mem_append.mp hx with hx | hx
  · have := hbefore x hx
    omega
  · have := hbehind x hx
    omega

/-- The matches in front of the stretch are those that start there, so there is one way to spare it. -/
theorem Rule.Spares.unique {e' e'' : Excerpt} (h : r.Spares skipLiterals e e') (h' : r.Spares skipLiterals e e'') :
    e' = e'' := by
  obtain ⟨p, before, behind, hp, hnews, hbefore, hbehind, rfl⟩ := h
  obtain ⟨q, before', behind', hq, hnews', hbefore', hbehind', rfl⟩ := h'
  obtain rfl : p = q := Except.ok.inj (hp.symm.trans hq)
  have hfront {xs ys : List (Match × List Char)} (hxs : ∀ m ∈ xs, m.1.start < e.start ∧ m.1.stop ≤ e.start)
      (hys : ∀ m ∈ ys, e.stop ≤ m.1.start) : (xs ++ ys).filter (fun m => decide (m.1.start < e.start)) = xs := by
    have hle := e.start_le_stop
    rw [List.filter_append, List.filter_eq_self.mpr fun m hm => decide_eq_true (hxs m hm).1,
      List.filter_eq_nil_iff.mpr fun m hm => ?_, List.append_nil]
    have := hys m hm
    simpa using Nat.le_trans hle this
  have hsame : before ++ behind = before' ++ behind' := Except.ok.inj (hnews.symm.trans hnews')
  obtain rfl : before = before' := by rw [← hfront hbefore hbehind, hsame, hfront hbefore' hbehind']
  rw [List.append_cancel_left hsame]

theorem Rule.Realizes.spares {st : Step} {e' : Excerpt} (hr : r.Realizes st)
    (h : st.spare? skipLiterals e = some e') : r.Spares skipLiterals e e' := by
  obtain ⟨p, hp, hpattern, hreplace⟩ := hr.compiled
  rw [Step.spare?] at h
  split at h
  next hclear =>
    refine ⟨p, _, _, hp, ?_, ?_, hclear.2, (Option.some.inj h).symm⟩
    · rw [hreplace, rewriteAll_ok, hpattern, List.takeWhile_append_dropWhile]
    · intro m hm
      exact ⟨by simpa using List.mem_takeWhile_imp hm, hclear.1 m hm⟩
  next => cases h

theorem spared_of_spareAll? {rules : List Rule} {ss : List Step} {e' : Excerpt}
    (hrules : List.Forall₂ Rule.Realizes rules ss) (h : spareAll? skipLiterals ss e = some e') :
    Spared skipLiterals rules e e' := by
  induction hrules generalizing e with
  | nil =>
    cases h
    exact .nil _
  | cons hr _ ih =>
    obtain ⟨mid, hmid, h⟩ := Option.bind_eq_some_iff.mp h
    exact .cons (hr.spares hmid) (ih h)

theorem Spared.not_touched {rules : List Rule} {e' : Excerpt} (h : Spared skipLiterals rules e e') :
    ¬Touched skipLiterals rules e := by
  induction h with
  | nil => rintro ⟨⟩
  | cons hspares _ ih =>
    intro htouched
    cases htouched with
    | now henters => exact hspares.not_enters henters
    | later hspares' htouched =>
      obtain rfl := hspares.unique hspares'
      exact ih htouched

theorem Spared.unique {rules : List Rule} {e' e'' : Excerpt} (h : Spared skipLiterals rules e e')
    (h' : Spared skipLiterals rules e e'') : e' = e'' := by
  induction h with
  | nil => cases h'; rfl
  | cons hspares _ ih =>
    cases h' with
    | cons hspares' hspared' =>
      obtain rfl := hspares.unique hspares'
      exact ih hspared'

/-- Rules applied one after another touch a stretch, or else keep it and rewrite what is around it. -/
theorem applyRules_spared_of_untouched {rules : List Rule} {n : Nat} {last : Replaced}
    (h : applyRules skipLiterals rules ⟨e.text, n⟩ = .ok last) (huntouched : ¬Touched skipLiterals rules e) :
    ∃ e', Spared skipLiterals rules e e' ∧ last.text = e'.text := by
  induction rules generalizing e n with
  | nil =>
    cases h
    exact ⟨e, .nil e, rfl⟩
  | cons r rules ih =>
    obtain ⟨next, hnext, hrest⟩ := bind_eq_ok h
    rcases Rule.enters_or_spares hnext with henters | ⟨mid, hspares, htext⟩
    · exact absurd (.now henters) huntouched
    · rw [htext] at hrest
      obtain ⟨e', hspared, hlast⟩ := ih hrest fun htouched => huntouched (.later hspares htouched)
      exact ⟨e', .cons hspares hspared, hlast⟩

end Rules

section Passes

variable [CharacterNames] {r : RuleSet} {s : List Char}

/-- The passes apply the rules one after another, and count all that they replace. -/
theorem applyRules_inOrder {cs : List Category} {final : List Char} {counts : List (Category × Nat)}
    (h : r.runPasses cs s = .ok (final, counts)) (n : Nat) :
    applyRules r.options.preserves (r.inOrder cs) ⟨s, n⟩ = .ok ⟨final, n + sumOf (counts.map (·.2))⟩ := by
  induction cs generalizing s counts n with
  | nil => cases h; rfl
  | cons c cs ih =>
    obtain ⟨next, counts', hnext, hcounts, rfl⟩ := RuleSet.exists_of_runPasses_cons h
    have horder : r.inOrder (c :: cs) = r.byCategory (.text c.name) ++ r.inOrder cs := List.flatMap_cons
    have hpass : applyRules r.options.preserves (r.byCategory (.text c.name)) ⟨s, 0⟩ = .ok next := hnext
    rw [horder, applyRules_append, applyRules_count, hpass]
    change applyRules r.options.preserves (r.inOrder cs) ⟨next.text, n + next.count⟩ = _
    rw [ih hcounts, List.map_cons, sumOf, Nat.add_assoc]

theorem applyRules_of_uplift {u : Uplifted} (h : r.uplift s = .ok u) :
    applyRules r.options.preserves (r.inOrder Category.ordered) ⟨s, 0⟩ = .ok ⟨u.text, u.total⟩ := by
  obtain ⟨⟨final, counts⟩, hrun, hall⟩ := bind_eq_ok h
  cases hall
  have hrules := applyRules_inOrder hrun 0
  rwa [Nat.zero_add] at hrules

/-- An uplift that replaces nothing leaves the text as it is. -/
theorem text_of_total_zero {u : Uplifted} (h : r.uplift s = .ok u) (hzero : u.total = 0) : u.text = s :=
  applyRules_text (applyRules_of_uplift h) hzero

/-- A stretch that no match of a rule enters in the rule's turn stands in the uplifted text as it was. -/
theorem uplift_spared_of_untouched {u : Uplifted} {e : Excerpt} (h : r.uplift e.text = .ok u)
    (huntouched : ¬Touched r.options.preserves (r.inOrder Category.ordered) e) :
    ∃ e', Spared r.options.preserves (r.inOrder Category.ordered) e e' ∧ u.text = e'.text :=
  applyRules_spared_of_untouched (applyRules_of_uplift h) huntouched

/-- The rules of the passes are the steps of the passes, written as texts. -/
theorem inOrder_realize (h : List.Forall₂ Rule.Realizes r.rules steps) (cs : List Category) :
    List.Forall₂ Rule.Realizes (r.inOrder cs) (stepsOfAll cs) := by
  induction cs with
  | nil => exact .nil
  | cons c cs ih => exact List.rel_append (filter_realize (.text c.name) h) ih

/-- What sparing a stretch comes to is the uplifted text. -/
theorem uplift_text_of_spared {u : Uplifted} {e e' : Excerpt} (h : r.uplift e.text = .ok u)
    (hspared : Spared r.options.preserves (r.inOrder Category.ordered) e e') : u.text = e'.text := by
  obtain ⟨e'', hspared', htext⟩ := uplift_spared_of_untouched h hspared.not_touched
  rw [htext, hspared.unique hspared']

end Passes

end CadenceUplift
