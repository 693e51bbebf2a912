import CadenceUplift.Legacy.Shapes
import CadenceUplift.Proofs.Pattern.Reach

namespace CadenceUplift

/-- A place within a text, with groups that took parts of it. -/
structure Pattern.Place.Within (t : Array Char) (s : Pattern.Place) : Prop where
  pos : s.pos ≤ t.size
  captures : ∀ c ∈ s.captures, c.start ≤ c.stop ∧ c.stop ≤ t.size

/-- A match within a text, with groups that took parts of it. -/
structure Match.Within (t : Array Char) (m : Match) : Prop where
  start_le : m.start ≤ m.stop
  stop_le : m.stop ≤ t.size
  captures : ∀ c ∈ m.captures, c.start ≤ c.stop ∧ c.stop ≤ t.size

theorem Match.Within.capture {t : Array Char} {m : Match} (h : m.Within t) {n : Nat} {c : Capture}
    (hc : m.capture? n = some c) : c.start ≤ c.stop ∧ c.stop ≤ t.size := by
  unfold Match.capture? at hc
  split at hc
  next =>
    cases hc
    exact ⟨h.start_le, h.stop_le⟩
  next => exact h.captures c (List.mem_of_find?_eq_some hc)

theorem Match.Within.length_groupText {t : Array Char} {m : Match} (h : m.Within t) {n : Nat} {c : Capture}
    (hc : m.capture? n = some c) : c.start + (m.groupText t n).length = c.stop := by
  obtain ⟨hle, hsize⟩ := h.capture hc
  have hlength : (m.groupText t n).length = c.stop - c.start := by
    simp only [Match.groupText, hc, Array.length_toList, Array.size_extract]
    omega
  omega

/-- A group that took something has a capture. -/
theorem Match.exists_capture_of_ne_nil {t : Array Char} {m : Match} {n : Nat} (h : m.groupText t n ≠ []) :
    ∃ c, m.capture? n = some c := by
  cases hc : m.capture? n with
  | some c => exact ⟨c, rfl⟩
  | none => simp [Match.groupText, hc] at h

namespace Pattern

variable {t : Array Char}

/-- Goes on from a place within a text to one within it: never back, and further if it must take something. -/
def Forward (t : Array Char) (must : Bool) (s e : Place) : Prop :=
  s.Within t → e.Within t ∧ s.pos ≤ e.pos ∧ (must = true → s.pos < e.pos)

theorem Forward.refl (s : Place) : Forward t false s s :=
  fun h => ⟨h, Nat.le_refl _, fun hf => absurd hf Bool.false_ne_true⟩

theorem Forward.trans {must must' : Bool} {a b c : Place} (h : Forward t must a b) (h' : Forward t must' b c) :
    Forward t (must || must') a c := by
  intro ha
  obtain ⟨hb, hab, hlt⟩ := h ha
  obtain ⟨hc, hbc, hlt'⟩ := h' hb
  refine ⟨hc, Nat.le_trans hab hbc, ?_⟩
  intro hmust
  rcases (Bool.or_eq_true _ _).mp hmust with hmust | hmust
  · exact Nat.lt_of_lt_of_le (hlt hmust) hbc
  · exact Nat.lt_of_le_of_lt hab (hlt' hmust)

theorem Forward.weaken {must must' : Bool} {a b : Place} (h : Forward t must a b) (hmust : must' = true → must = true) :
    Forward t must' a b := by
  intro ha
  obtain ⟨hb, hab, hlt⟩ := h ha
  exact ⟨hb, hab, fun h' => hlt (hmust h')⟩

theorem Forward.loosen {must : Bool} {a b : Place} (h : Forward t must a b) : Forward t false a b :=
  h.weaken fun hf => absurd hf Bool.false_ne_true

theorem forward_advance {s : Place} (h : s.pos < t.size) : Forward t true s s.advance :=
  fun hs => ⟨⟨h, hs.captures⟩, Nat.le_succ _, fun _ => Nat.lt_succ_self _⟩

theorem forward_copies {must : Bool} {lo n : Nat} {s e : Place} (hlo : lo ≤ n) (h : Copies (Forward t must) n s e) :
    Forward t (decide (0 < lo) && must) s e := by
  cases h with
  | stop => exact (Forward.refl s).weaken (by simp [Nat.le_zero.mp hlo])
  | next hone hrest =>
    have hfar := hrest.preserve (P := Forward t false) .refl .trans Forward.loosen
    exact (hone.trans hfar).weaken (by simp)

theorem runLazy_sound {step : Place → Next → Option Place} {rel : Place → Place → Prop}
    (hs : Sound step rel) (budget : Nat) :
    Sound (runLazy step budget) (fun s e => ∃ n, n ≤ budget ∧ Copies rel n s e) := by
  induction budget with
  | zero => exact fun s r k h => ⟨s, ⟨0, Nat.le_refl _, .stop⟩, h⟩
  | succ budget ih =>
    intro s r k h
    unfold runLazy at h
    split at h
    next r' hr =>
      cases h
      exact ⟨s, ⟨0, Nat.zero_le _, .stop⟩, hr⟩
    next => exact hs.more ih h

/-- A loop is a number of copies, at least as many as it asks for. -/
theorem run_loop_sound {p : Pattern} {rel : Place → Place → Prop} (h : Sound (p.run t) rel) (lo : Nat)
    (hi : Option Nat) (greedy : Bool) :
    Sound ((Pattern.loop p lo hi greedy).run t) fun s e => ∃ n, lo ≤ n ∧ Copies rel n s e := by
  intro s r k hr
  rw [run] at hr
  obtain ⟨mid, hm, hk⟩ := runExactly_sound h lo hr
  cases greedy with
  | true =>
    simp only [↓reduceIte] at hk
    obtain ⟨e, ⟨n, _, hc⟩, hke⟩ := runGreedy_sound h _ hk
    exact ⟨e, ⟨lo + n, by omega, hm.append hc⟩, hke⟩
  | false =>
    simp only [Bool.false_eq_true, ↓reduceIte] at hk
    obtain ⟨e, ⟨n, _, hc⟩, hke⟩ := runLazy_sound h _ hk
    exact ⟨e, ⟨lo + n, by omega, hm.append hc⟩, hke⟩

theorem repeatsAt_bound {fold : CaseFold} {lo hi i : Nat} (h : repeatsAt fold t lo hi i = true) (hlt : lo < hi) :
    i + (hi - lo) ≤ t.size := by
  have hlast := List.all_eq_true.mp h (hi - lo - 1) (List.mem_range.mpr (by omega))
  have hsize : i + (hi - lo - 1) < t.size := by
    rw [Bool.and_eq_true] at hlast
    simpa using hlast.1
  omega

section Forwards

variable {p : Pattern} {must : Bool}

theorem lt_size_of_any {i : Nat} {f : Char → Bool} (h : (t[i]?).any f = true) : i < t.size := by
  obtain ⟨c, hc, _⟩ := (Option.any_eq_true _ _).mp h
  exact (Array.getElem?_eq_some_iff.mp hc).1

/-- What a group takes lies within the text. -/
theorem Forward.group {s mid : Place} (h : Forward t must s mid) (n : Nat) :
    Forward t must s ⟨mid.pos, ⟨n, s.pos, mid.pos⟩ :: mid.captures⟩ := by
  intro hs
  obtain ⟨hmid, hle, hlt⟩ := h hs
  exact ⟨⟨hmid.pos, List.forall_mem_cons.mpr ⟨⟨hle, hmid.pos⟩, hmid.captures⟩⟩, hle, hlt⟩

theorem run_sameAs_forward (n : Nat) (fold : CaseFold) : Sound ((sameAs n fold).run t) (Forward t false) := by
  intro s r k h
  rw [run] at h
  split at h
  next => cases h
  next c hc =>
    split at h
    next hrep =>
      refine ⟨_, ?_, h⟩
      intro hs
      refine ⟨⟨?_, hs.captures⟩, Nat.le_add_right _ _, fun hf => absurd hf Bool.false_ne_true⟩
      by_cases hlt : c.start < c.stop
      · exact repeatsAt_bound hrep hlt
      · have hpos := hs.pos
        simp only
        omega
    next => cases h

/-- What is seen ahead may lie anywhere, and the search goes on from where it was. -/
theorem run_ahead_forward (hp : Sound (p.run t) (Forward t must)) (negated : Bool) :
    Sound ((ahead negated p).run t) (Forward t false) := by
  intro s r k h
  rw [run] at h
  split at h
  next far hfar =>
    obtain ⟨e, he, hke⟩ := hp hfar
    cases hke
    split at h
    next => cases h
    next =>
      refine ⟨_, ?_, h⟩
      intro hs
      exact ⟨⟨hs.pos, (he hs).1.captures⟩, Nat.le_refl _, fun hf => absurd hf Bool.false_ne_true⟩
  next =>
    split at h
    next => exact ⟨s, .refl s, h⟩
    next => cases h

/-- What is seen behind ends where the search was. -/
theorem run_behind_forward (hp : Sound (p.run t) (Forward t must)) (negated : Bool) (width : Nat) :
    Sound ((behind negated width p).run t) (Forward t false) := by
  intro s r k h
  simp only [run] at h
  split at h
  next far hfar =>
    split at hfar
    next =>
      obtain ⟨e, he, hke⟩ := hp hfar
      split at hke
      next hpos =>
        cases hke
        split at h
        next => cases h
        next =>
          refine ⟨_, ?_, h⟩
          intro hs
          have hback := he ⟨Nat.le_trans (Nat.sub_le _ _) hs.pos, hs.captures⟩
          exact ⟨hback.1, Nat.le_of_eq hpos.symm, fun hf => absurd hf Bool.false_ne_true⟩
      next => cases hke
    next => cases hfar
  next =>
    split at h
    next => exact ⟨s, .refl s, h⟩
    next => cases h

theorem run_once_forward (hp : Sound (p.run t) (Forward t must)) : Sound ((once p).run t) (Forward t must) := by
  intro s r k h
  rw [run] at h
  split at h
  next far hfar =>
    obtain ⟨e, he, hke⟩ := hp hfar
    cases hke
    exact ⟨_, he, h⟩
  next => cases h

theorem run_ifTaken_forward {q : Pattern} {must' : Bool} (hp : Sound (p.run t) (Forward t must))
    (hq : Sound (q.run t) (Forward t must')) (n : Nat) : Sound ((ifTaken n p q).run t) (Forward t false) := by
  intro s r k h
  rw [run] at h
  split at h
  next => exact hp.mono .loosen h
  next => exact hq.mono .loosen h

/-- Whatever the pattern, a search goes forward within the text. -/
theorem run_forward (p : Pattern) : Sound (p.run t) (Forward t p.advances) := by
  induction p with
  | empty => exact fun s r k h => ⟨s, .refl s, h⟩
  | char c =>
    refine (sound_of_guard fun _ _ => rfl).mono ?_
    rintro s _ ⟨hc, rfl⟩
    exact forward_advance (Array.getElem?_eq_some_iff.mp hc).1
  | member cs =>
    refine (sound_of_guard fun _ _ => rfl).mono ?_
    rintro s _ ⟨hc, rfl⟩
    exact forward_advance (lt_size_of_any hc)
  | any =>
    refine (sound_of_guard fun _ _ => rfl).mono ?_
    rintro s _ ⟨hc, rfl⟩
    exact (forward_advance (lt_size_of_any hc)).loosen
  | textStart | lineEnd | textEnd | wordEdge inside ascii =>
    refine (sound_of_guard fun _ _ => rfl).mono ?_
    rintro s _ ⟨_, rfl⟩
    exact .refl _
  | seq p q ihp ihq =>
    refine (run_seq_sound ihp ihq).mono ?_
    rintro s e ⟨mid, hp, hq⟩
    exact hp.trans hq
  | alt p q ihp ihq =>
    refine (run_alt_sound ihp ihq).mono ?_
    rintro s e (hp | hq)
    · exact hp.weaken fun hboth => (Bool.and_eq_true_iff.mp hboth).1
    · exact hq.weaken fun hboth => (Bool.and_eq_true_iff.mp hboth).2
  | loop p lo hi greedy ih =>
    refine (run_loop_sound ih lo hi greedy).mono ?_
    rintro s e ⟨n, hn, hc⟩
    exact forward_copies hn hc
  | group n p ih =>
    refine (run_group_sound n ih).mono ?_
    rintro s _ ⟨mid, hmid, rfl⟩
    exact hmid.group n
  | sameAs n fold => exact run_sameAs_forward n fold
  | ifTaken n p q ihp ihq => exact run_ifTaken_forward ihp ihq n
  | ahead negated p ih => exact run_ahead_forward ih negated
  | behind negated width p ih => exact run_behind_forward ih negated width
  | once p ih => exact (run_once_forward ih).mono .loosen

end Forwards

/-- A match that a pattern has at a place of a text. -/
def IsMatch (p : Pattern) (t : Array Char) (m : Match) : Prop :=
  m.start ≤ t.size ∧ ∃ ok, p.matchAtWith t m.start ok = some m

variable {p : Pattern} {m : Match}

theorem isMatch_of_matchAtWith {i : Nat} {ok : Nat → Bool} (hi : i ≤ t.size) (h : p.matchAtWith t i ok = some m) :
    p.IsMatch t m := by
  obtain ⟨e, he, rfl⟩ := Option.map_eq_some_iff.mp h
  exact ⟨hi, ok, h⟩

theorem isMatch_of_firstFrom {n i : Nat} (hn : i + n ≤ t.size + 1) (h : p.firstFrom t n i = some m) : p.IsMatch t m := by
  induction n generalizing i with
  | zero => cases h
  | succ n ih =>
    rw [firstFrom] at h
    split at h
    next m' hm =>
      cases h
      exact isMatch_of_matchAtWith (by omega) hm
    next => exact ih (by omega) h

theorem isMatch_of_find? {i : Nat} {fresh : Bool} (hi : i ≤ t.size) (h : p.find? t i fresh = some m) : p.IsMatch t m := by
  unfold find? at h
  split at h
  next => exact isMatch_of_firstFrom (by omega) h
  next =>
    split at h
    next m' hm =>
      cases h
      exact isMatch_of_matchAtWith hi hm
    next => exact isMatch_of_firstFrom (by omega) h

theorem isMatch_of_search (h : p.search t = some m) : p.IsMatch t m := isMatch_of_find? (Nat.zero_le _) h

theorem IsMatch.forward (h : p.IsMatch t m) : m.Within t ∧ (p.advances = true → m.start < m.stop) := by
  obtain ⟨hstart, ok, h⟩ := h
  obtain ⟨r, hr, hm⟩ := Option.map_eq_some_iff.mp h
  obtain ⟨e, he, hke⟩ := run_forward p hr
  split at hke
  next =>
    cases hke
    obtain ⟨hwithin, hle, hlt⟩ := he ⟨hstart, by simp⟩
    rw [← hm]
    exact ⟨⟨hle, hwithin.pos, hwithin.captures⟩, hlt⟩
  next => cases hke

theorem IsMatch.within (h : p.IsMatch t m) : m.Within t := h.forward.1

theorem IsMatch.start_lt (h : p.IsMatch t m) (ha : p.advances = true) : m.start < m.stop := h.forward.2 ha

theorem isMatch_of_mem_matchesFrom {fuel i : Nat} {fresh : Bool} (hi : i ≤ t.size)
    (h : m ∈ p.matchesFrom t fuel i fresh) : p.IsMatch t m := by
  induction fuel generalizing i fresh with
  | zero => cases h
  | succ fuel ih =>
    rw [matchesFrom] at h
    split at h
    next => cases h
    next first hfirst =>
      have hmatch := isMatch_of_find? hi hfirst
      rcases List.mem_cons.mp h with rfl | h
      · exact hmatch
      · exact ih hmatch.within.stop_le h

theorem isMatch_of_mem_allMatches (h : m ∈ p.allMatches t) : p.IsMatch t m :=
  isMatch_of_mem_matchesFrom (Nat.zero_le _) h

theorem start_of_matchAtWith {i : Nat} {ok : Nat → Bool} (h : p.matchAtWith t i ok = some m) : m.start = i := by
  obtain ⟨_, _, rfl⟩ := Option.map_eq_some_iff.mp h
  rfl

theorem le_start_of_firstFrom {n i : Nat} (h : p.firstFrom t n i = some m) : i ≤ m.start := by
  induction n generalizing i with
  | zero => cases h
  | succ n ih =>
    rw [firstFrom] at h
    split at h
    next m' hm =>
      cases h
      exact Nat.le_of_eq (start_of_matchAtWith hm).symm
    next => exact Nat.le_of_succ_le (ih h)

theorem le_start_of_find? {i : Nat} {fresh : Bool} (h : p.find? t i fresh = some m) : i ≤ m.start := by
  unfold find? at h
  split at h
  next => exact le_start_of_firstFrom h
  next =>
    split at h
    next m' hm =>
      cases h
      exact Nat.le_of_eq (start_of_matchAtWith hm).symm
    next => exact Nat.le_of_succ_le (le_start_of_firstFrom h)

/-- Successive matches start at or behind the place where the search began, each at or behind the end of the others
before it. -/
theorem matchesFrom_ordered {fuel i : Nat} {fresh : Bool} (hi : i ≤ t.size) :
    (∀ m ∈ p.matchesFrom t fuel i fresh, i ≤ m.start) ∧
      (p.matchesFrom t fuel i fresh).Pairwise fun m m' => m.stop ≤ m'.start := by
  induction fuel generalizing i fresh with
  | zero => exact ⟨by simp [matchesFrom], .nil⟩
  | succ fuel ih =>
    rw [matchesFrom]
    split
    next => exact ⟨by simp, .nil⟩
    next first hfirst =>
      have hwithin := (isMatch_of_find? hi hfirst).within
      have hstart := le_start_of_find? hfirst
      obtain ⟨hlater, hordered⟩ := @ih first.stop (first.stop != first.start) hwithin.stop_le
      refine ⟨?_, List.pairwise_cons.mpr ⟨hlater, hordered⟩⟩
      intro m hm
      rcases List.mem_cons.mp hm with rfl | hm
      · exact hstart
      · exact Nat.le_trans hstart (Nat.le_trans hwithin.start_le (hlater m hm))

/-- No two matches overlap, and each stands behind those before it. -/
theorem allMatches_ordered (p : Pattern) (t : Array Char) :
    (p.allMatches t).Pairwise fun m m' => m.stop ≤ m'.start :=
  (matchesFrom_ordered (Nat.zero_le _)).2

theorem run_all_cons (p : Pattern) (ps : List Pattern) (s : Place) (k : Next) :
    (all (p :: ps)).run t s k = p.run t s fun s' => (all ps).run t s' k := by
  cases ps with
  | nil => rfl
  | cons q qs => rfl

/-- Characters in a row stand where the pattern that starts with them is found. -/
theorem starts_of_run_chars {w : List Char} {ps : List Pattern} {s r : Place} {k : Next}
    (h : (all (w.map .char ++ ps)).run t s k = some r) : w <+: t.toList.drop s.pos := by
  induction w generalizing s with
  | nil => exact List.nil_prefix
  | cons c w ih =>
    rw [List.map_cons, List.cons_append, run_all_cons, run] at h
    split at h
    next hc =>
      have hrest := ih h
      obtain ⟨hlt, hget⟩ := Array.getElem?_eq_some_iff.mp hc
      have hdrop : t.toList.drop s.pos = c :: t.toList.drop (s.pos + 1) := by
        rw [List.drop_eq_getElem_cons (by simpa using hlt), ← hget]
        rfl
      rw [hdrop]
      exact (List.prefix_cons_inj c).mpr hrest
    next => cases h

/-- The word that a pattern opens with stands at the start of its matches. -/
theorem IsMatch.starts {w : String} {ps : List Pattern} (h : (all (edge :: Legacy.chars w ++ ps)).IsMatch t m) :
    w.toList <+: t.toList.drop m.start := by
  obtain ⟨_, ok, h⟩ := h
  obtain ⟨r, hr, _⟩ := Option.map_eq_some_iff.mp h
  rw [List.cons_append, run_all_cons, edge, run] at hr
  split at hr
  next => exact starts_of_run_chars hr
  next => cases hr

end Pattern

end CadenceUplift
