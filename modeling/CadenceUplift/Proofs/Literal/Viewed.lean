import CadenceUplift.Proofs.Literal.Exactness
import CadenceUplift.Proofs.Literal.Texts
import CadenceUplift.Proofs.Text.Words

namespace CadenceUplift

open Text
open Literal (Mode)

/-- A view modifier with the blank behind it. -/
def viewText : List Char := Word.view ++ [' ']

/-- The view modifier at an offset, if the offset is one of the places for one. -/
def viewAt (places : List Nat) (i : Nat) : List Char := if i ∈ places then viewText else []

/-- A text that starts at an offset, with a view modifier at each of the places. -/
def withViews (places : List Nat) : Nat → List Char → List Char
  | _, [] => []
  | i, c :: r => viewAt places i ++ c :: withViews places (i + 1) r

section Places

variable {places : List Nat}

theorem viewAt_of_not_mem {i : Nat} (h : i ∉ places) : viewAt places i = [] := if_neg h

theorem withViews_append (places : List Nat) (i : Nat) (u v : List Char) :
    withViews places i (u ++ v) = withViews places i u ++ withViews places (i + u.length) v := by
  induction u generalizing i with
  | nil => rfl
  | cons c u ih =>
    have hlength : i + (c :: u).length = i + 1 + u.length := by simp; omega
    rw [List.cons_append, withViews, withViews, ih, hlength, List.append_assoc, List.cons_append]

/-- Places before a text and behind it do not matter. -/
theorem withViews_congr {places' : List Nat} {i : Nat} {u : List Char}
    (h : ∀ p, i ≤ p → p < i + u.length → (p ∈ places ↔ p ∈ places')) :
    withViews places i u = withViews places' i u := by
  induction u generalizing i with
  | nil => rfl
  | cons c u ih =>
    have hhere : viewAt places i = viewAt places' i := by
      simp only [viewAt, h i (Nat.le_refl i) (by simp)]
    rw [withViews, withViews, hhere, ih]
    intro p hi hp
    exact h p (by omega) (by simp; omega)

theorem length_le_withViews (places : List Nat) (i : Nat) (u : List Char) :
    u.length ≤ (withViews places i u).length := by
  induction u generalizing i with
  | nil => exact Nat.le_refl _
  | cons c u ih =>
    have hrest := ih (i + 1)
    simp only [withViews, List.length_append, List.length_cons]
    omega

/-- A text stays as it is just if there is no place within it. -/
theorem withViews_eq_self_iff {i : Nat} {u : List Char} :
    withViews places i u = u ↔ ∀ p ∈ places, ¬(i ≤ p ∧ p < i + u.length) := by
  constructor
  · intro h
    induction u generalizing i with
    | nil =>
      intro p _ hp
      simp only [List.length_nil] at hp
      omega
    | cons c u ih =>
      by_cases hi : i ∈ places
      · have hlength := congrArg List.length h
        have hrest := length_le_withViews places (i + 1) u
        have hview : viewAt places i = viewText := if_pos hi
        have hpositive : viewText.length = 5 := by decide
        simp only [withViews, hview, List.length_append, List.length_cons] at hlength
        omega
      · rw [withViews, viewAt_of_not_mem hi, List.nil_append, List.cons.injEq] at h
        intro p hp ⟨hle, hlt⟩
        have hne : p ≠ i := fun heq => hi (heq ▸ hp)
        simp only [List.length_cons] at hlt
        exact ih h.2 p hp ⟨by omega, by omega⟩
  · intro h
    have hnone : withViews places i u = withViews [] i u :=
      withViews_congr fun p hi hp => ⟨fun hmem => absurd ⟨hi, hp⟩ (h p hmem), fun hmem => by cases hmem⟩
    have hnil (j : Nat) (v : List Char) : withViews [] j v = v := by
      induction v generalizing j with
      | nil => rfl
      | cons c v ih => rw [withViews, ih]; rfl
    rw [hnone, hnil]

end Places

section Reading

theorem viewText_quiet : ∀ c ∈ viewText, Quiet c := by simp [viewText, Word.view, Quiet]

/-- Quiet characters in a literal belong to it. -/
theorem literalsFrom_quiet {m : List Char} (hm : ∀ c ∈ m, Quiet c) {σ : Reader} {k : LiteralKind}
    (hσ : σ.kind? = some k) (acc r : List Char) :
    σ.literalsFrom acc (m ++ r) = (σ.after m).literalsFrom (acc ++ m) r := by
  induction m generalizing σ acc with
  | nil => simp
  | cons c m ih =>
    have hc := hm c List.mem_cons_self
    have hgathered : σ.gathered acc c = acc ++ [c] := by simp [Reader.gathered, hσ]
    have hnext : (σ.next c).kind? = some k := by rw [next_quiet hc, Reader.kind?_settle, hσ]
    rw [List.cons_append, Reader.literalsFrom_cons, completed_quiet hc, List.nil_append, hgathered,
      ih (fun d hd => hm d (List.mem_cons_of_mem _ hd)) hnext, List.append_assoc]
    rfl

/-- A view modifier in front of a quiet character is in the literal that the character is in, if it is in any. -/
theorem literalsFrom_view {v : List Char} {c : Char} (hv : v = [] ∨ v = viewText ∧ Quiet c) (σ : Reader)
    (acc r : List Char) : σ.literalsFrom acc (v ++ c :: r) = σ.literalsFrom (acc ++ v) (c :: r) := by
  obtain rfl | ⟨rfl, hc⟩ := hv
  · rw [List.nil_append, List.append_nil]
  · have hquiet : ∀ d ∈ viewText ++ [c], Quiet d := by
      intro d hd
      rcases List.mem_append.mp hd with hd | hd
      · exact viewText_quiet d hd
      · rwa [List.mem_singleton.mp hd]
    have hone : ∀ d ∈ [c], Quiet d := by simpa using hc
    have hafter : σ.after (viewText ++ [c]) = σ.after [c] := by
      rw [after_quiet (by simp) hquiet, after_quiet (by simp) hone]
    have hcons : c :: r = [c] ++ r := rfl
    rw [List.append_cons, hcons]
    cases hσ : σ.kind? with
    | some k => rw [literalsFrom_quiet hquiet hσ, literalsFrom_quiet hone hσ, hafter, List.append_assoc]
    | none =>
      have hcode : σ.inCode = true := Reader.kind?_eq_none_iff.mp hσ
      have hstays (m : List Char) (hm : ∀ d ∈ m, Quiet d) :
          ∀ d ∈ m, ∀ τ : Reader, τ.inCode = true → (τ.next d).inCode = true := by
        intro d hd τ hτ
        rw [next_quiet (hm d hd), Reader.inCode_settle, hτ]
      rw [Reader.literalsFrom_append hcode (hstays _ hquiet) acc [],
        Reader.literalsFrom_append hcode (hstays _ hone) (acc ++ viewText) [], hafter]

end Reading

section Scanning

variable {s : List Char} {places : List Nat}

/-- The places are offsets of quiet characters. -/
def AtQuiet (s : List Char) (places : List Nat) : Prop := ∀ p ∈ places, ∃ c, s[p]? = some c ∧ Quiet c

theorem AtQuiet.view (h : AtQuiet s places) {i : Nat} {c : Char} (hc : s[i]? = some c) :
    viewAt places i = [] ∨ viewAt places i = viewText ∧ Quiet c := by
  by_cases hi : i ∈ places
  · obtain ⟨d, hd, hquiet⟩ := h i hi
    obtain rfl : d = c := Option.some.inj (hd.symm.trans hc)
    exact .inr ⟨if_pos hi, hquiet⟩
  · exact .inl (viewAt_of_not_mem hi)

/-- No view modifier stands in front of a mark of a literal. -/
theorem AtQuiet.viewAt_mark (h : AtQuiet s places) {i : Nat} {c : Char} {r : List Char} (hr : s.drop i = c :: r)
    (hc : c ∈ ['/', '*', '"', '\\', '\n']) : viewAt places i = [] := by
  rcases h.view (drop_eq_cons hr).1 with hnone | ⟨_, hquiet⟩
  · exact hnone
  · exact absurd rfl (hquiet c hc)

theorem AtQuiet.withViews_mark (h : AtQuiet s places) {i : Nat} {c : Char} {r : List Char} (hr : s.drop i = c :: r)
    (hc : c ∈ ['/', '*', '"', '\\', '\n']) : withViews places i (c :: r) = c :: withViews places (i + 1) r := by
  rw [withViews, h.viewAt_mark hr hc, List.nil_append]

/-- One more character of a text with view modifiers. -/
theorem withViews_further {a i : Nat} {c : Char} (ha : a ≤ i) (hc : s[i]? = some c) :
    withViews places a (s.extract a (i + 1)) = withViews places a (s.extract a i) ++ viewAt places i ++ [c] := by
  obtain ⟨hlt, _⟩ := List.getElem?_eq_some_iff.mp hc
  have hlength : a + (s.extract a i).length = i := by
    simp only [List.extract_eq_take_drop, List.length_take, List.length_drop]
    omega
  rw [extract_further ha hc, withViews_append, hlength, withViews, withViews, List.append_assoc]

/-- View modifiers do not hide from a reader what comes next. -/
theorem AtQuiet.agree (h : AtQuiet s places) {i : Nat} {r : List Char} (hr : s.drop i = r) {σ τ : Reader}
    (hagree : Reader.Agree r σ τ) : Reader.Agree (withViews places i r) σ τ := by
  refine ⟨hagree.inCode, hagree.kind, ?_⟩
  cases r with
  | nil => exact hagree.next
  | cons c r =>
    rcases h.view (drop_eq_cons hr).1 with hnone | ⟨hview, hquiet⟩
    · rw [withViews, hnone]
      exact hagree.next
    · intro e he
      rw [withViews, hview] at he
      obtain rfl : e = 'v' := (Option.some.inj he).symm
      have hnext := hagree.next c rfl
      have hv := viewText_quiet 'v' (by decide)
      rw [next_quiet hquiet, next_quiet hquiet] at hnext
      rw [next_quiet hv, next_quiet hv, hnext]

/-- What a reader in a mode has of the literal that it is in, with view modifiers. -/
def HasViewedText (s : List Char) (places : List Nat) (i : Nat) (acc : List Char) : Mode → Prop
  | .code => True
  | .line a | .block a _ | .string a => a ≤ i ∧ acc = withViews places a (s.extract a i)

theorem AtQuiet.further_mark (h : AtQuiet s places) {a i : Nat} (ha : a ≤ i) {c : Char} {r : List Char}
    (hr : s.drop i = c :: r) (hc : c ∈ ['/', '*', '"', '\\', '\n']) :
    withViews places a (s.extract a (i + 1)) = withViews places a (s.extract a i) ++ [c] := by
  rw [withViews_further ha (drop_eq_cons hr).1, h.viewAt_mark hr hc, List.append_nil]

theorem withViews_self (places : List Nat) (s : List Char) (i : Nat) : withViews places i (s.extract i i) = [] := by
  rw [extract_self]
  rfl

/-- The search for literals finds in the text with view modifiers what it finds without them; `acc` is what the open
literal has read so far. -/
theorem AtQuiet.map_scan (h : AtQuiet s places) (mode : Mode) (i : Nat) (r acc : List Char) (hr : s.drop i = r)
    (hacc : HasViewedText s places i acc mode) :
    (Literal.scan mode i r).map (fun l => (l.kind, withViews places l.start (s.extract l.start l.stop))) =
      (Reader.ofMode mode).literalsFrom acc (withViews places i r) := by
  fun_induction Literal.scan mode i r generalizing acc with
  | case1 => rfl
  | case2 a i | case3 a d i | case4 a i =>
    rw [hacc.2]
    rfl
  | case5 i r ih | case6 i r ih =>
    obtain ⟨_, hr₁, _⟩ := drop_eq_cons hr
    obtain ⟨_, hr₂, _⟩ := drop_eq_cons hr₁
    rw [h.withViews_mark hr (by decide), h.withViews_mark hr₁ (by decide)]
    refine ih _ hr₂ ⟨by omega, ?_⟩
    rw [h.further_mark (Nat.le_succ i) hr₁ (by decide), h.further_mark (Nat.le_refl i) hr (by decide), withViews_self]
    rfl
  | case7 i r ih =>
    obtain ⟨_, hr₁, _⟩ := drop_eq_cons hr
    rw [h.withViews_mark hr (by decide)]
    refine ih _ hr₁ ⟨by omega, ?_⟩
    rw [h.further_mark (Nat.le_refl i) hr (by decide), withViews_self]
    rfl
  | case8 i c r hline hblock hquote ih =>
    obtain ⟨h₁, hr₁, _⟩ := drop_eq_cons hr
    have hagree := h.agree hr₁ (Reader.agree_code hline hblock hquote)
    rw [ih acc hr₁ trivial, withViews, literalsFrom_view (h.view h₁)]
    exact (Reader.literalsFrom_pass rfl hagree _ _).symm
  | case9 a i r ih | case17 a i r ih =>
    obtain ⟨_, hr₁, _⟩ := drop_eq_cons hr
    rw [List.map_cons, ih (acc ++ ['\n']) hr₁ trivial, h.withViews_mark hr (by decide), hacc.2]
    rfl
  | case10 a i c r hline ih =>
    obtain ⟨h₁, hr₁, _⟩ := drop_eq_cons hr
    obtain ⟨ha, rfl⟩ := hacc
    rw [ih _ hr₁ ⟨Nat.le_succ_of_le ha, (withViews_further ha h₁).symm⟩, withViews, literalsFrom_view (h.view h₁)]
    exact (Reader.literalsFrom_further rfl (h.agree hr₁ (Reader.agree_line hline)) _).symm
  | case11 a d i r ih | case13 a d i r ih =>
    obtain ⟨_, hr₁, _⟩ := drop_eq_cons hr
    obtain ⟨_, hr₂, _⟩ := drop_eq_cons hr₁
    obtain ⟨ha, rfl⟩ := hacc
    rw [h.withViews_mark hr (by decide), h.withViews_mark hr₁ (by decide)]
    refine ih _ hr₂ ⟨by omega, ?_⟩
    rw [h.further_mark (Nat.le_succ_of_le ha) hr₁ (by decide), h.further_mark ha hr (by decide)]
    rfl
  | case12 a i r ih =>
    obtain ⟨_, hr₁, _⟩ := drop_eq_cons hr
    obtain ⟨_, hr₂, _⟩ := drop_eq_cons hr₁
    obtain ⟨ha, rfl⟩ := hacc
    rw [List.map_cons, ih (withViews places a (s.extract a i) ++ ['*'] ++ ['/']) hr₂ trivial,
      h.further_mark (Nat.le_succ_of_le ha) hr₁ (by decide), h.further_mark ha hr (by decide),
      h.withViews_mark hr (by decide), h.withViews_mark hr₁ (by decide)]
    rfl
  | case14 a d i c r hopen htop hdeep ih =>
    obtain ⟨h₁, hr₁, _⟩ := drop_eq_cons hr
    obtain ⟨ha, rfl⟩ := hacc
    rw [ih _ hr₁ ⟨Nat.le_succ_of_le ha, (withViews_further ha h₁).symm⟩, withViews, literalsFrom_view (h.view h₁)]
    exact (Reader.literalsFrom_further rfl (h.agree hr₁ (Reader.agree_block hopen (not_closes htop hdeep))) _).symm
  | case15 a i c r ih =>
    obtain ⟨_, hr₁, _⟩ := drop_eq_cons hr
    obtain ⟨h₂, hr₂, _⟩ := drop_eq_cons hr₁
    obtain ⟨ha, rfl⟩ := hacc
    have hback : withViews places i ('\\' :: c :: r) =
        '\\' :: (viewAt places (i + 1) ++ c :: withViews places (i + 2) r) := h.withViews_mark hr (by decide)
    rw [hback, Reader.literalsFrom_cons, literalsFrom_view (h.view h₂)]
    refine ih _ hr₂ ⟨by omega, ?_⟩
    rw [withViews_further (Nat.le_succ_of_le ha) h₂, h.further_mark ha hr (by decide)]
    rfl
  | case16 a i r ih =>
    obtain ⟨_, hr₁, _⟩ := drop_eq_cons hr
    obtain ⟨ha, rfl⟩ := hacc
    rw [List.map_cons, ih (withViews places a (s.extract a i) ++ ['"']) hr₁ trivial, h.further_mark ha hr (by decide),
      h.withViews_mark hr (by decide)]
    rfl
  | case18 a i c r hback hquote hline ih =>
    obtain ⟨h₁, hr₁, _⟩ := drop_eq_cons hr
    obtain ⟨ha, rfl⟩ := hacc
    rw [ih _ hr₁ ⟨Nat.le_succ_of_le ha, (withViews_further ha h₁).symm⟩, withViews, literalsFrom_view (h.view h₁)]
    exact (Reader.literalsFrom_further rfl (h.agree hr₁ (Reader.agree_string hback hquote hline)) _).symm

theorem withViews_nil (i : Nat) (u : List Char) : withViews [] i u = u := withViews_eq_self_iff.mpr (by simp)

/-- Without places for view modifiers: the search for literals finds what the reader reads. -/
theorem literalTexts_eq (s : List Char) : literalTexts s = Reader.code.literalsFrom [] s := by
  have hnone : AtQuiet s [] := by simp [AtQuiet]
  have hscan := hnone.map_scan .code 0 s [] rfl trivial
  simp only [withViews_nil] at hscan
  exact hscan

theorem AtQuiet.literalTexts_withViews (h : AtQuiet s places) :
    literalTexts (withViews places 0 s) =
      (literals s).map fun l => (l.kind, withViews places l.start (s.extract l.start l.stop)) := by
  rw [literalTexts_eq]
  exact (h.map_scan .code 0 s [] rfl trivial).symm

/-- Literals stay as they are just if no place is in one. -/
theorem map_withViews_eq_iff (s : List Char) (places : List Nat) :
    (literals s).map (fun l => (l.kind, withViews places l.start (s.extract l.start l.stop))) = literalTexts s ↔
      ∀ p ∈ places, ¬Covered p (literals s) := by
  have hwithin : ∀ l ∈ literals s, withViews places l.start (s.extract l.start l.stop) = s.extract l.start l.stop ↔
      ∀ p ∈ places, ¬(l.start ≤ p ∧ p < l.stop) := by
    intro l hl
    obtain ⟨hlt, hle⟩ := (lexed_literals s).bounded l hl
    have hstop : l.start + (s.extract l.start l.stop).length = l.stop := by
      simp only [List.extract_eq_take_drop, List.length_take, List.length_drop]
      omega
    rw [withViews_eq_self_iff, hstop]
  rw [literalTexts, List.map_inj_left]
  constructor
  · rintro h p hp ⟨l, hl, hcovers⟩
    exact (hwithin l hl).mp (Prod.mk.inj (h l hl)).2 p hp hcovers
  · intro h l hl
    exact congrArg (l.kind, ·) ((hwithin l hl).mpr fun p hp hcovers => h p hp ⟨l, hl, hcovers⟩)

end Scanning

end CadenceUplift
