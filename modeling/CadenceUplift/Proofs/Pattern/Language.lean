import CadenceUplift.Proofs.Pattern.Reach
import CadenceUplift.Proofs.Text.Pieces
import Mathlib.Computability.Language

namespace CadenceUplift

namespace Pattern

/-- The texts that a pattern spells, as far as they do not depend on what stands around them. -/
def language : Pattern → Language Char
  | .empty => 1
  | .char c => {[c]}
  | .member cs => {u | ∃ c, cs.holds c = true ∧ u = [c]}
  | .seq p q => p.language * q.language
  | .alt p q => p.language + q.language
  | .loop p lo hi _ => {u | ∃ n, lo ≤ n ∧ (∀ h, hi = some h → n ≤ h) ∧ u ∈ p.language ^ n}
  | _ => 0

/-- The pattern is described by its language alone. -/
def isTextual : Pattern → Bool
  | .empty | .char _ | .member _ => true
  | .seq p q | .alt p q => p.isTextual && q.isTextual
  | .loop p _ _ _ => p.isTextual
  | _ => false

theorem mem_language_empty {u : List Char} : u ∈ Pattern.empty.language ↔ u = [] := Language.mem_one u

theorem mem_language_char {c : Char} {u : List Char} : u ∈ (Pattern.char c).language ↔ u = [c] := Iff.rfl

theorem mem_language_member {cs : CharSet} {u : List Char} :
    u ∈ (Pattern.member cs).language ↔ ∃ c, cs.holds c = true ∧ u = [c] := Iff.rfl

theorem mem_language_seq {p q : Pattern} {u : List Char} :
    u ∈ (Pattern.seq p q).language ↔ ∃ x ∈ p.language, ∃ y ∈ q.language, x ++ y = u := Language.mem_mul

theorem mem_language_alt {p q : Pattern} {u : List Char} :
    u ∈ (Pattern.alt p q).language ↔ u ∈ p.language ∨ u ∈ q.language := Language.mem_add _ _ _

theorem mem_language_loop {p : Pattern} {lo : Nat} {hi : Option Nat} {greedy : Bool} {u : List Char} :
    u ∈ (Pattern.loop p lo hi greedy).language ↔
      ∃ n, lo ≤ n ∧ (∀ h, hi = some h → n ≤ h) ∧ u ∈ p.language ^ n := Iff.rfl

/-- A text stands at a place of `t`, and the second place is the one behind it. -/
def Takes (t : Array Char) (s : Place) (u : List Char) (e : Place) : Prop :=
  (∃ r, t.toList.drop s.pos = u ++ r) ∧ e = ⟨s.pos + u.length, s.captures⟩

theorem takes_nil {t : Array Char} {s e : Place} : Takes t s [] e ↔ e = s := by
  simp [Takes]

theorem takes_append {t : Array Char} {s e : Place} {u v : List Char} :
    Takes t s (u ++ v) e ↔ ∃ mid, Takes t s u mid ∧ Takes t mid v e := by
  constructor
  · rintro ⟨⟨r, hr⟩, rfl⟩
    refine ⟨_, ⟨⟨v ++ r, by simpa using hr⟩, rfl⟩, ⟨r, ?_⟩, by simp [Nat.add_assoc]⟩
    rw [← List.drop_drop, hr]
    simp
  · rintro ⟨mid, ⟨⟨r, hr⟩, rfl⟩, ⟨r', hr'⟩, rfl⟩
    rw [← List.drop_drop, hr, List.drop_left] at hr'
    exact ⟨⟨r', by simp [hr, hr']⟩, by simp [Nat.add_assoc]⟩

theorem takes_singleton {t : Array Char} {s e : Place} {c : Char} :
    Takes t s [c] e ↔ t[s.pos]? = some c ∧ e = s.advance := by
  have hhead : t[s.pos]? = (t.toList.drop s.pos).head? := by simp
  rw [hhead]
  constructor
  · rintro ⟨⟨r, hr⟩, rfl⟩
    exact ⟨by simp [hr], rfl⟩
  · rintro ⟨hc, rfl⟩
    obtain ⟨r, hr⟩ := List.head?_eq_some_iff.mp hc
    exact ⟨⟨r, hr⟩, rfl⟩

theorem copies_iff_takes {t : Array Char} {p : Pattern} {l : Language Char}
    (hp : ∀ {s e}, Reach t p s e ↔ ∃ u ∈ l, Takes t s u e) {n : Nat} {s e : Place} :
    Copies (Reach t p) n s e ↔ ∃ u ∈ l ^ n, Takes t s u e := by
  induction n generalizing s with
  | zero =>
    simp only [pow_zero, Language.mem_one, exists_eq_left, takes_nil]
    constructor
    · intro h; cases h; rfl
    · rintro rfl; exact .stop
  | succ n ih =>
    simp only [pow_succ', Language.mem_mul]
    constructor
    · intro h
      cases h with
      | next hs hrest =>
        obtain ⟨u, hu, htu⟩ := hp.mp hs
        obtain ⟨v, hv, htv⟩ := ih.mp hrest
        exact ⟨u ++ v, ⟨u, hu, v, hv, rfl⟩, takes_append.mpr ⟨_, htu, htv⟩⟩
    · rintro ⟨_, ⟨u, hu, v, hv, rfl⟩, h⟩
      obtain ⟨mid, htu, htv⟩ := takes_append.mp h
      exact .next (hp.mpr ⟨u, hu, htu⟩) (ih.mpr ⟨v, hv, htv⟩)

/-- A textual pattern takes a text of its language and nothing else. -/
theorem reach_iff_takes {t : Array Char} {p : Pattern} (hp : p.isTextual = true) {s e : Place} :
    Reach t p s e ↔ ∃ u ∈ p.language, Takes t s u e := by
  induction p generalizing s e with
  | empty => simp only [mem_language_empty, exists_eq_left, takes_nil, Reach]
  | char c => simp only [mem_language_char, exists_eq_left, takes_singleton, Reach]
  | member cs =>
    simp only [mem_language_member, Reach, Option.any_eq_true]
    constructor
    · rintro ⟨⟨c, hc, hcs⟩, he⟩
      exact ⟨[c], ⟨c, hcs, rfl⟩, takes_singleton.mpr ⟨hc, he⟩⟩
    · rintro ⟨_, ⟨c, hcs, rfl⟩, h⟩
      obtain ⟨hc, he⟩ := takes_singleton.mp h
      exact ⟨⟨c, hc, hcs⟩, he⟩
  | seq p q ihp ihq =>
    simp only [isTextual, Bool.and_eq_true] at hp
    simp only [Reach, mem_language_seq]
    constructor
    · rintro ⟨mid, hm, he⟩
      obtain ⟨u, hu, htu⟩ := (ihp hp.1).mp hm
      obtain ⟨v, hv, htv⟩ := (ihq hp.2).mp he
      exact ⟨u ++ v, ⟨u, hu, v, hv, rfl⟩, takes_append.mpr ⟨mid, htu, htv⟩⟩
    · rintro ⟨_, ⟨u, hu, v, hv, rfl⟩, h⟩
      obtain ⟨mid, htu, htv⟩ := takes_append.mp h
      exact ⟨mid, (ihp hp.1).mpr ⟨u, hu, htu⟩, (ihq hp.2).mpr ⟨v, hv, htv⟩⟩
  | alt p q ihp ihq =>
    simp only [isTextual, Bool.and_eq_true] at hp
    simp only [Reach, mem_language_alt, ihp hp.1, ihq hp.2, or_and_right, exists_or]
  | loop p lo hi greedy ih =>
    simp only [mem_language_loop, Reach, copies_iff_takes (ih hp)]
    constructor
    · rintro ⟨n, hlo, hhi, u, hu, h⟩
      exact ⟨u, ⟨n, hlo, hhi, hu⟩, h⟩
    · rintro ⟨u, ⟨n, hlo, hhi, hu⟩, h⟩
      exact ⟨n, hlo, hhi, u, hu, h⟩
  | wordEdge | group | ahead | any | textStart | lineEnd | textEnd => simp [isTextual] at hp
  | sameAs | ifTaken | behind | once => simp [isTextual] at hp

theorem reach_all_cons {t : Array Char} {p : Pattern} {ps : List Pattern} {s e : Place} :
    Reach t (all (p :: ps)) s e ↔ ∃ mid, Reach t p s mid ∧ Reach t (all ps) mid e := by
  cases ps with
  | nil => simp [all, Reach]
  | cons q qs => rfl

theorem reach_all_append {t : Array Char} {ps qs : List Pattern} {s e : Place} :
    Reach t (all (ps ++ qs)) s e ↔ ∃ mid, Reach t (all ps) s mid ∧ Reach t (all qs) mid e := by
  induction ps generalizing s with
  | nil => simp [all, Reach]
  | cons p ps ih =>
    simp only [List.cons_append, reach_all_cons, ih]
    constructor
    · rintro ⟨m, hp, m', hps, hqs⟩
      exact ⟨m', ⟨m, hp, hps⟩, hqs⟩
    · rintro ⟨m', ⟨m, hp, hps⟩, hqs⟩
      exact ⟨m, hp, m', hps, hqs⟩

theorem language_all (ps : List Pattern) : (all ps).language = (ps.map language).prod := by
  induction ps with
  | nil => rfl
  | cons p ps ih =>
    cases ps with
    | nil => simp [all]
    | cons q qs =>
      change p.language * (all (q :: qs)).language = _
      rw [ih]
      simp

/-- The one text that characters in a row spell. -/
theorem mem_language_chars {w u : List Char} : u ∈ (all (w.map .char)).language ↔ u = w := by
  rw [language_all]
  induction w generalizing u with
  | nil => simp [Language.mem_one]
  | cons c w ih =>
    simp only [List.map_cons, List.prod_cons, Language.mem_mul]
    constructor
    · rintro ⟨x, hx, y, hy, rfl⟩
      rw [ih.mp hy, mem_language_char.mp hx]
      rfl
    · rintro rfl
      exact ⟨[c], mem_language_char.mpr rfl, w, ih.mpr rfl, rfl⟩

theorem mem_language_oneOf {ps : List Pattern} (hne : ps ≠ []) {u : List Char} :
    u ∈ (oneOf ps).language ↔ ∃ p ∈ ps, u ∈ p.language := by
  induction ps with
  | nil => exact absurd rfl hne
  | cons p ps ih =>
    cases ps with
    | nil => simp [oneOf]
    | cons q qs =>
      change u ∈ p.language + (oneOf (q :: qs)).language ↔ _
      rw [Language.mem_add, ih (by simp)]
      simp

theorem mem_language_many {p : Pattern} {u : List Char} :
    u ∈ (many p).language ↔ ∃ us : List (List Char), u = us.flatten ∧ ∀ v ∈ us, v ∈ p.language := by
  change (∃ n, 0 ≤ n ∧ (∀ h, none = some h → n ≤ h) ∧ u ∈ p.language ^ n) ↔ _
  simp only [Language.mem_pow]
  constructor
  · rintro ⟨n, _, _, us, hu, _, hus⟩
    exact ⟨us, hu, hus⟩
  · rintro ⟨us, hu, hus⟩
    exact ⟨us.length, Nat.zero_le _, by simp, us, hu, rfl, hus⟩

theorem mem_language_many1 {p : Pattern} {u : List Char} :
    u ∈ (many1 p).language ↔
      ∃ us : List (List Char), us ≠ [] ∧ u = us.flatten ∧ ∀ v ∈ us, v ∈ p.language := by
  change (∃ n, 1 ≤ n ∧ (∀ h, none = some h → n ≤ h) ∧ u ∈ p.language ^ n) ↔ _
  simp only [Language.mem_pow]
  constructor
  · rintro ⟨n, hn, _, us, hu, rfl, hus⟩
    exact ⟨us, List.length_pos_iff.mp hn, hu, hus⟩
  · rintro ⟨us, hne, hu, hus⟩
    exact ⟨us.length, List.length_pos_iff.mpr hne, by simp, us, hu, rfl, hus⟩

theorem mem_language_opt {p : Pattern} {u : List Char} :
    u ∈ (opt p).language ↔ u = [] ∨ u ∈ p.language := by
  change (∃ n, 0 ≤ n ∧ (∀ h, some 1 = some h → n ≤ h) ∧ u ∈ p.language ^ n) ↔ _
  constructor
  · rintro ⟨n, _, hn, hu⟩
    have hn : n ≤ 1 := hn 1 rfl
    rcases Nat.le_one_iff_eq_zero_or_eq_one.mp hn with rfl | rfl
    · exact .inl (by simpa [Language.mem_one] using hu)
    · exact .inr (by simpa using hu)
  · rintro (rfl | hu)
    · exact ⟨0, Nat.le_refl _, by simp, by simp [Language.mem_one]⟩
    · exact ⟨1, Nat.zero_le _, by simp, by simpa using hu⟩

/-- Pieces of one character each put together: a run of characters of the set. -/
theorem flatten_members_iff {cs : CharSet} {u : List Char} :
    (∃ us : List (List Char), u = us.flatten ∧ ∀ v ∈ us, v ∈ (Pattern.member cs).language) ↔
      ∀ c ∈ u, cs.holds c = true := by
  constructor
  · rintro ⟨us, rfl, hus⟩ c hc
    obtain ⟨v, hv, hcv⟩ := List.mem_flatten.mp hc
    obtain ⟨d, hd, rfl⟩ := mem_language_member.mp (hus v hv)
    rwa [List.mem_singleton.mp hcv]
  · intro h
    refine ⟨u.map fun c => [c], by simp [← List.flatMap_def], ?_⟩
    intro v hv
    obtain ⟨c, hc, rfl⟩ := List.mem_map.mp hv
    exact mem_language_member.mpr ⟨c, h c hc, rfl⟩

theorem mem_language_many_member {cs : CharSet} {u : List Char} :
    u ∈ (many (.member cs)).language ↔ ∀ c ∈ u, cs.holds c = true :=
  mem_language_many.trans flatten_members_iff

theorem mem_language_many1_member {cs : CharSet} {u : List Char} :
    u ∈ (many1 (.member cs)).language ↔ u ≠ [] ∧ ∀ c ∈ u, cs.holds c = true := by
  rw [mem_language_many1]
  constructor
  · rintro ⟨us, hne, rfl, hus⟩
    refine ⟨?_, flatten_members_iff.mp ⟨us, rfl, hus⟩⟩
    obtain ⟨v, vs, rfl⟩ := List.exists_cons_of_ne_nil hne
    obtain ⟨c, _, rfl⟩ := mem_language_member.mp (hus v (by simp))
    simp
  · rintro ⟨hne, h⟩
    obtain ⟨us, rfl, hus⟩ := flatten_members_iff.mpr h
    exact ⟨us, by rintro rfl; simp at hne, rfl, hus⟩

/-- An edge of a word: exactly one of the texts before and after the place has a word character there. -/
theorem reach_edge_iff {t : Array Char} {s e : Place} (hs : s.pos ≤ t.size) :
    Reach t edge s e ↔
      Text.endsWord (t.toList.take s.pos) ≠ Text.startsWord (t.toList.drop s.pos) ∧ e = s := by
  have hafter : wordAt false t s.pos = Text.startsWord (t.toList.drop s.pos) := by
    simp [wordAt, Text.startsWord]
  have hbefore : (decide (0 < s.pos) && wordAt false t (s.pos - 1)) =
      Text.endsWord (t.toList.take s.pos) := by
    by_cases h0 : s.pos = 0
    · simp [h0, Text.endsWord]
    · have hlast : (t.toList.take s.pos).getLast? = t[s.pos - 1]? := by
        rw [List.getLast?_eq_getElem?, List.length_take, Array.length_toList, Nat.min_eq_left hs,
          List.getElem?_take_of_lt (by omega), Array.getElem?_toList]
      simp [Text.endsWord, hlast, wordAt, show 0 < s.pos by omega]
  have hsize : Text.endsWord (t.toList.take s.pos) ≠ Text.startsWord (t.toList.drop s.pos) → 0 < t.size := by
    intro hne
    by_contra h0
    have hnil : t.toList = [] := List.eq_nil_of_length_eq_zero (by simpa using h0)
    simp [hnil, Text.endsWord, Text.startsWord] at hne
  simp only [edge, Reach, atWordEdge, hafter, hbefore]
  constructor
  · rintro ⟨⟨_, h⟩, he⟩
    exact ⟨by simpa using h, he⟩
  · rintro ⟨h, he⟩
    exact ⟨⟨hsize h, by simpa using h⟩, he⟩

/-- A textual pattern behind a text takes a part of what follows. -/
theorem reach_textual {p : Pattern} (hp : p.isTextual = true) {a u : List Char} {cs : List Capture} {e : Place} :
    Reach (a ++ u).toArray p ⟨a.length, cs⟩ e ↔
      ∃ x r, u = x ++ r ∧ x ∈ p.language ∧ e = ⟨(a ++ x).length, cs⟩ := by
  rw [reach_iff_takes hp]
  constructor
  · rintro ⟨x, hx, ⟨r, hr⟩, rfl⟩
    exact ⟨x, r, by simpa using hr, hx, by simp⟩
  · rintro ⟨x, r, rfl, hx, rfl⟩
    exact ⟨x, hx, ⟨r, by simp⟩, by simp⟩

theorem reach_edge_behind {a u : List Char} {cs : List Capture} {e : Place} :
    Reach (a ++ u).toArray edge ⟨a.length, cs⟩ e ↔
      Text.endsWord a ≠ Text.startsWord u ∧ e = ⟨a.length, cs⟩ := by
  rw [reach_edge_iff (by simp)]
  simp

end Pattern

end CadenceUplift
