import CadenceUplift.Pattern.Match

namespace CadenceUplift.Pattern

/-- A number of steps of a relation, one after another. -/
inductive Copies (step : Place → Place → Prop) : Nat → Place → Place → Prop
  | stop {s : Place} : Copies step 0 s s
  | next {n : Nat} {s mid far : Place} :
      step s mid → Copies step n mid far → Copies step (n + 1) s far

/-- The places to which a pattern can get from a place. -/
def Reach (t : Array Char) : Pattern → Place → Place → Prop
  | .empty, s, e => e = s
  | .char c, s, e => t[s.pos]? = some c ∧ e = s.advance
  | .member cs, s, e => (t[s.pos]?).any cs.holds = true ∧ e = s.advance
  | .wordEdge inside ascii, s, e => (0 < t.size ∧ atWordEdge ascii t s.pos ≠ inside) ∧ e = s
  | .seq p q, s, e => ∃ mid, Reach t p s mid ∧ Reach t q mid e
  | .alt p q, s, e => Reach t p s e ∨ Reach t q s e
  | .loop p lo hi _, s, e => ∃ n, lo ≤ n ∧ (∀ h, hi = some h → n ≤ h) ∧ Copies (Reach t p) n s e
  | .group n p, s, e => ∃ mid, Reach t p s mid ∧ e = ⟨mid.pos, ⟨n, s.pos, mid.pos⟩ :: mid.captures⟩
  | .ahead false p, s, e => (∃ far, Reach t p s far) ∧ e = s
  | _, _, _ => False

/-- Every way to match takes at least one character. -/
def advances : Pattern → Bool
  | .char _ | .member _ => true
  | .seq p q => p.advances || q.advances
  | .alt p q => p.advances && q.advances
  | .loop p lo _ _ => decide (0 < lo) && p.advances
  | .group _ p => p.advances
  | _ => false

/-- The pattern has no groups. -/
def isSilent : Pattern → Bool
  | .empty | .char _ | .member _ | .wordEdge .. => true
  | .seq p q | .alt p q => p.isSilent && q.isSilent
  | .loop p _ _ _ | .ahead _ p => p.isSilent
  | _ => false

/-- The patterns that `Reach` speaks of: copies take something, and what is looked for ahead has no
groups. -/
def isRegular : Pattern → Bool
  | .empty | .char _ | .member _ | .wordEdge .. => true
  | .seq p q | .alt p q => p.isRegular && q.isRegular
  | .loop p lo hi greedy => greedy && p.isRegular && p.advances && hi.all fun h => decide (lo ≤ h)
  | .group _ p => p.isRegular
  | .ahead negated p => !negated && p.isRegular && p.isSilent
  | _ => false

theorem Copies.append {step : Place → Place → Prop} {m n : Nat} {s mid far : Place}
    (h : Copies step m s mid) (h' : Copies step n mid far) : Copies step (m + n) s far := by
  induction h with
  | stop => simpa using h'
  | next hs _ ih =>
    rw [Nat.add_right_comm]
    exact .next hs (ih h')

theorem Copies.split {step : Place → Place → Prop} {m n : Nat} {s far : Place}
    (h : Copies step (m + n) s far) : ∃ mid, Copies step m s mid ∧ Copies step n mid far := by
  induction m generalizing s with
  | zero => exact ⟨s, .stop, by simpa using h⟩
  | succ m ih =>
    rw [Nat.add_right_comm] at h
    cases h with
    | next hs hrest =>
      obtain ⟨mid, hm, hn⟩ := ih hrest
      exact ⟨mid, .next hs hm, hn⟩

/-- What every step keeps, any number of copies keep. -/
theorem Copies.preserve {step : Place → Place → Prop} {P : Place → Place → Prop}
    (refl : ∀ s, P s s) (trans : ∀ {a b c}, P a b → P b c → P a c) (one : ∀ {a b}, step a b → P a b)
    {n : Nat} {s far : Place} (h : Copies step n s far) : P s far := by
  induction h with
  | stop => exact refl _
  | next hs _ ih => exact trans (one hs) ih

/-- What holds of a place and itself, of a place and the next one behind a character of the text, and is handed on, holds
of all that a pattern gets to. The captures that its groups add must not matter, if it has groups. -/
theorem Reach.preserve {t : Array Char} {P : Place → Place → Prop} (refl : ∀ s, P s s)
    (trans : ∀ {a b c}, P a b → P b c → P a c) (advance : ∀ s, s.pos < t.size → P s s.advance) {p : Pattern}
    (close : p.isSilent = true ∨ ∀ a b n, P a b → P a ⟨b.pos, ⟨n, a.pos, b.pos⟩ :: b.captures⟩) {s e : Place}
    (h : Reach t p s e) : P s e := by
  induction p generalizing s e with
  | empty => cases h; exact refl _
  | char c =>
    obtain ⟨hc, rfl⟩ := h
    exact advance s (Array.getElem?_eq_some_iff.mp hc).1
  | member cs =>
    obtain ⟨hc, rfl⟩ := h
    obtain ⟨c, hc, _⟩ := (Option.any_eq_true _ _).mp hc
    exact advance s (Array.getElem?_eq_some_iff.mp hc).1
  | wordEdge inside ascii => cases h.2; exact refl _
  | seq p q ihp ihq =>
    obtain ⟨mid, hp, hq⟩ := h
    rw [isSilent, Bool.and_eq_true] at close
    exact trans (ihp (close.imp_left And.left) hp) (ihq (close.imp_left And.right) hq)
  | alt p q ihp ihq =>
    rw [isSilent, Bool.and_eq_true] at close
    exact h.elim (ihp (close.imp_left And.left)) (ihq (close.imp_left And.right))
  | loop p lo hi greedy ih =>
    obtain ⟨n, _, _, hc⟩ := h
    exact hc.preserve refl trans (ih close)
  | group n p ih =>
    obtain ⟨mid, hp, rfl⟩ := h
    have hclose := close.resolve_left Bool.false_ne_true
    exact hclose s mid n (ih (.inr hclose) hp)
  | ahead negated p _ =>
    cases negated with
    | false => cases h.2; exact refl _
    | true => exact h.elim
  | any | textStart | lineEnd | textEnd => exact h.elim
  | sameAs | ifTaken | behind | once => exact h.elim

theorem reach_pos_le {t : Array Char} {p : Pattern} {s e : Place} (h : Reach t p s e) :
    s.pos ≤ e.pos :=
  h.preserve (P := fun a b => a.pos ≤ b.pos) (fun _ => Nat.le_refl _) Nat.le_trans (fun _ _ => Nat.le_succ _)
    (.inr fun _ _ _ h => h)

/-- Nothing is taken beyond the end of the text. -/
theorem reach_pos_bound {t : Array Char} {p : Pattern} {s e : Place} (h : Reach t p s e) :
    e.pos ≤ max s.pos t.size :=
  h.preserve (P := fun a b => b.pos ≤ max a.pos t.size) (fun _ => Nat.le_max_left _ _) (fun h h' => by omega)
    (fun _ hlt => Nat.le_trans hlt (Nat.le_max_right _ _)) (.inr fun _ _ _ h => h)

theorem reach_advances {t : Array Char} {p : Pattern} (ha : p.advances = true) {s e : Place}
    (h : Reach t p s e) : s.pos < e.pos := by
  induction p generalizing s e with
  | char c => cases h.2; exact Nat.lt_succ_self _
  | member cs => cases h.2; exact Nat.lt_succ_self _
  | seq p q ihp ihq =>
    obtain ⟨mid, hp, hq⟩ := h
    have hpl := reach_pos_le hp
    have hql := reach_pos_le hq
    rcases Bool.or_eq_true _ _ ▸ ha with ha | ha
    · have := ihp ha hp; omega
    · have := ihq ha hq; omega
  | alt p q ihp ihq =>
    have ha := Bool.and_eq_true _ _ ▸ ha
    exact h.elim (ihp ha.1) (ihq ha.2)
  | loop p lo hi greedy ih =>
    obtain ⟨n, hlo, _, hc⟩ := h
    have ha := Bool.and_eq_true _ _ ▸ ha
    have hlo' : 0 < lo := by simpa using ha.1
    cases hc with
    | stop => omega
    | next hs hrest =>
      have hl := ih ha.2 hs
      have := hrest.preserve (P := fun a b => a.pos ≤ b.pos) (fun _ => Nat.le_refl _) Nat.le_trans reach_pos_le
      omega
  | group n p ih =>
    obtain ⟨mid, hp, he⟩ := h
    have hmid := ih ha hp
    rwa [he]
  | empty | wordEdge | ahead | any | textStart | lineEnd | textEnd => simp [advances] at ha
  | sameAs | ifTaken | behind | once => simp [advances] at ha

/-- A pattern without groups leaves what groups have taken as it is. -/
theorem reach_captures {t : Array Char} {p : Pattern} (hq : p.isSilent = true) {s e : Place}
    (h : Reach t p s e) : e.captures = s.captures :=
  h.preserve (P := fun a b => b.captures = a.captures) (fun _ => rfl) (fun h h' => h'.trans h) (fun _ _ => rfl) (.inl hq)

/-- Copies that each take something are no more than the characters left. -/
theorem copies_le_room {t : Array Char} {p : Pattern} (ha : p.advances = true) {n : Nat} {s e : Place}
    (h : Copies (Reach t p) n s e) : n ≤ t.size - s.pos := by
  induction h with
  | stop => exact Nat.zero_le _
  | @next n s mid far hs _ ih =>
    have hadv := reach_advances ha hs
    have hbound := reach_pos_bound hs
    omega

/-- A step of the search that finds nothing but what a relation allows. -/
def Sound (step : Place → Next → Option Place) (rel : Place → Place → Prop) : Prop :=
  ∀ ⦃s r : Place⦄ ⦃k : Next⦄, step s k = some r → ∃ e, rel s e ∧ k e = some r

/-- A step of the search that finds something whenever a relation allows it. -/
def Complete (step : Place → Next → Option Place) (rel : Place → Place → Prop) : Prop :=
  ∀ ⦃s e : Place⦄ ⦃k : Next⦄, rel s e → (k e).isSome → (step s k).isSome

theorem runExactly_sound {step : Place → Next → Option Place} {rel : Place → Place → Prop}
    (hs : Sound step rel) (n : Nat) : Sound (runExactly step n) (Copies rel n) := by
  intro s r k h
  induction n generalizing s with
  | zero => exact ⟨s, .stop, h⟩
  | succ n ih =>
    obtain ⟨mid, hm, hk⟩ := hs h
    obtain ⟨e, he, hke⟩ := ih hk
    exact ⟨e, .next hm he, hke⟩

theorem runExactly_complete {step : Place → Next → Option Place} {rel : Place → Place → Prop}
    (hs : Complete step rel) (n : Nat) : Complete (runExactly step n) (Copies rel n) := by
  intro s e k h hk
  induction n generalizing s with
  | zero => cases h; exact hk
  | succ n ih =>
    cases h with
    | next hm hrest => exact hs hm (ih hrest)

theorem Sound.mono {step : Place → Next → Option Place} {rel rel' : Place → Place → Prop} (hs : Sound step rel)
    (hrel : ∀ {s e}, rel s e → rel' s e) : Sound step rel' := by
  intro s r k h
  obtain ⟨e, he, hk⟩ := hs h
  exact ⟨e, hrel he, hk⟩

/-- A step that goes on at one place, on a condition. -/
theorem sound_of_guard {step : Place → Next → Option Place} {g : Place → Prop} [DecidablePred g] {f : Place → Place}
    (hstep : ∀ s k, step s k = if g s then k (f s) else none) : Sound step fun s e => g s ∧ e = f s := by
  intro s r k h
  rw [hstep] at h
  split at h
  next hg => exact ⟨f s, ⟨hg, rfl⟩, h⟩
  next => cases h

section Parts

variable {t : Array Char} {p q : Pattern} {rel rel' : Place → Place → Prop}

theorem run_seq_sound (hp : Sound (p.run t) rel) (hq : Sound (q.run t) rel') :
    Sound ((seq p q).run t) fun s e => ∃ mid, rel s mid ∧ rel' mid e := by
  intro s r k h
  obtain ⟨mid, hm, hk⟩ := hp h
  obtain ⟨e, he, hke⟩ := hq hk
  exact ⟨e, ⟨mid, hm, he⟩, hke⟩

theorem run_alt_sound (hp : Sound (p.run t) rel) (hq : Sound (q.run t) rel') :
    Sound ((alt p q).run t) fun s e => rel s e ∨ rel' s e := by
  intro s r k h
  rw [run] at h
  split at h
  next r' hr =>
    cases h
    obtain ⟨e, he, hke⟩ := hp hr
    exact ⟨e, .inl he, hke⟩
  next =>
    obtain ⟨e, he, hke⟩ := hq h
    exact ⟨e, .inr he, hke⟩

theorem run_group_sound (n : Nat) (hp : Sound (p.run t) rel) :
    Sound ((group n p).run t) fun s e => ∃ mid, rel s mid ∧ e = ⟨mid.pos, ⟨n, s.pos, mid.pos⟩ :: mid.captures⟩ := by
  intro s r k h
  obtain ⟨mid, hm, hk⟩ := hp h
  exact ⟨_, ⟨mid, hm, rfl⟩, hk⟩

end Parts

/-- One copy, and more behind it unless it took nothing. -/
theorem Sound.more {step rest : Place → Next → Option Place} {rel : Place → Place → Prop} (hs : Sound step rel)
    {budget : Nat} (hrest : Sound rest fun s e => ∃ n, n ≤ budget ∧ Copies rel n s e) :
    Sound (fun s k => step s fun s' => if s'.pos = s.pos then k s' else rest s' k)
      fun s e => ∃ n, n ≤ budget + 1 ∧ Copies rel n s e := by
  intro s r k h
  obtain ⟨mid, hm, hk⟩ := hs h
  split at hk
  next => exact ⟨mid, ⟨1, by omega, .next hm .stop⟩, hk⟩
  next =>
    obtain ⟨e, ⟨n, hn, hc⟩, hke⟩ := hrest hk
    exact ⟨e, ⟨n + 1, by omega, .next hm hc⟩, hke⟩

theorem runGreedy_sound {step : Place → Next → Option Place} {rel : Place → Place → Prop}
    (hs : Sound step rel) (budget : Nat) :
    Sound (runGreedy step budget) (fun s e => ∃ n, n ≤ budget ∧ Copies rel n s e) := by
  induction budget with
  | zero => exact fun s r k h => ⟨s, ⟨0, Nat.le_refl _, .stop⟩, h⟩
  | succ budget ih =>
    intro s r k h
    unfold runGreedy at h
    split at h
    next r' hr =>
      cases h
      exact hs.more ih hr
    next => exact ⟨s, ⟨0, Nat.zero_le _, .stop⟩, h⟩

theorem runGreedy_complete {step : Place → Next → Option Place} {rel : Place → Place → Prop}
    (hs : Complete step rel) (ha : ∀ {s e}, rel s e → s.pos < e.pos) (budget : Nat) :
    Complete (runGreedy step budget) (fun s e => ∃ n, n ≤ budget ∧ Copies rel n s e) := by
  rintro s e k ⟨n, hn, hc⟩ hk
  induction budget generalizing s n with
  | zero =>
    cases hc with
    | stop => exact hk
    | next => omega
  | succ budget ih =>
    unfold runGreedy
    split
    next => rfl
    next hnone =>
      cases hc with
      | stop => exact hk
      | @next n s mid far hm hrest =>
        have hadv := ha hm
        have hfound := hs (k := fun a => if a.pos = s.pos then k a else runGreedy step budget a k) hm
          (by simpa [show mid.pos ≠ s.pos by omega] using ih n (by omega) hrest)
        simp [hnone] at hfound

/-- The search succeeds only where the relation leads to a place that the continuation accepts. -/
theorem run_sound {t : Array Char} {p : Pattern} (hp : p.isRegular = true) :
    Sound (p.run t) (Reach t p) := by
  induction p with
  | empty => exact fun s r k h => ⟨s, rfl, h⟩
  | char c | member cs | wordEdge inside ascii => exact sound_of_guard fun _ _ => rfl
  | seq p q ihp ihq =>
    obtain ⟨hp, hq⟩ := Bool.and_eq_true_iff.mp hp
    exact run_seq_sound (ihp hp) (ihq hq)
  | alt p q ihp ihq =>
    obtain ⟨hp, hq⟩ := Bool.and_eq_true_iff.mp hp
    exact run_alt_sound (ihp hp) (ihq hq)
  | loop p lo hi greedy ih =>
    intro s r k h
    simp only [isRegular, Bool.and_eq_true] at hp
    obtain ⟨⟨⟨rfl, hp⟩, _⟩, hlo⟩ := hp
    rw [run] at h
    obtain ⟨mid, hm, hk⟩ := runExactly_sound (ih hp) lo h
    simp only [↓reduceIte] at hk
    obtain ⟨e, ⟨n, hn, hc⟩, hke⟩ := runGreedy_sound (ih hp) _ hk
    refine ⟨e, ⟨lo + n, by omega, ?_, hm.append hc⟩, hke⟩
    rintro most rfl
    have hlo : lo ≤ most := by simpa using hlo
    simp only at hn
    omega
  | group n p ih => exact run_group_sound n (ih hp)
  | ahead negated p ih =>
    intro s r k h
    simp only [isRegular, Bool.and_eq_true] at hp
    obtain ⟨⟨hn, hp⟩, hq⟩ := hp
    cases negated with
    | true => simp at hn
    | false =>
      rw [run] at h
      cases hfar : p.run t s some with
      | none => simp [hfar] at h
      | some far =>
        obtain ⟨e, he, hke⟩ := ih hp hfar
        cases Option.some.inj hke
        have hcap := reach_captures hq he
        exact ⟨s, ⟨⟨_, he⟩, rfl⟩, by simpa [hfar, hcap] using h⟩
  | any | textStart | lineEnd | textEnd => simp [isRegular] at hp
  | sameAs | ifTaken | behind | once => simp [isRegular] at hp

/-- The search succeeds wherever the relation leads to a place that the continuation accepts. -/
theorem run_complete {t : Array Char} {p : Pattern} (hp : p.isRegular = true) :
    Complete (p.run t) (Reach t p) := by
  induction p with
  | empty => intro s e k h hk; cases h; exact hk
  | char c =>
    rintro s e k ⟨hc, rfl⟩ hk
    rwa [run, if_pos hc]
  | member cs =>
    rintro s e k ⟨hc, rfl⟩ hk
    rwa [run, if_pos hc]
  | wordEdge inside ascii =>
    rintro s e k ⟨hc, rfl⟩ hk
    rwa [run, if_pos hc]
  | seq p q ihp ihq =>
    rintro s e k ⟨mid, hm, he⟩ hk
    have hp := Bool.and_eq_true _ _ ▸ hp
    exact ihp hp.1 hm (ihq hp.2 he hk)
  | alt p q ihp ihq =>
    intro s e k h hk
    have hp := Bool.and_eq_true _ _ ▸ hp
    rw [run]
    split
    next => rfl
    next hnone =>
      rcases h with h | h
      · simpa [hnone] using ihp hp.1 h hk
      · exact ihq hp.2 h hk
  | loop p lo hi greedy ih =>
    rintro s e k ⟨n, hn, hhi, hc⟩ hk
    simp only [isRegular, Bool.and_eq_true] at hp
    obtain ⟨⟨⟨rfl, hp⟩, ha⟩, _⟩ := hp
    obtain ⟨extra, rfl⟩ := Nat.exists_eq_add_of_le hn
    obtain ⟨mid, hm, hrest⟩ := hc.split
    rw [run]
    refine runExactly_complete (ih hp) lo hm ?_
    simp only [↓reduceIte]
    refine runGreedy_complete (ih hp) (reach_advances ha) _ ⟨extra, ?_, hrest⟩ hk
    cases hi with
    | none => have := copies_le_room ha hrest; simp only; omega
    | some h => have := hhi h rfl; simp only; omega
  | group n p ih =>
    rintro s e k ⟨mid, hm, rfl⟩ hk
    exact ih hp hm hk
  | ahead negated p ih =>
    intro s e k h hk
    simp only [isRegular, Bool.and_eq_true] at hp
    obtain ⟨⟨hn, hp⟩, hq⟩ := hp
    cases negated with
    | true => simp at hn
    | false =>
      obtain ⟨⟨far, hfar⟩, rfl⟩ := h
      have hfound := ih hp hfar (k := some) rfl
      obtain ⟨end_, hend⟩ := Option.isSome_iff_exists.mp hfound
      obtain ⟨e', he', hke⟩ := run_sound hp hend
      cases Option.some.inj hke
      have hcap := reach_captures hq he'
      rw [run]
      simpa [hend, hcap] using hk
  | any | textStart | lineEnd | textEnd => simp [isRegular] at hp
  | sameAs | ifTaken | behind | once => simp [isRegular] at hp

end CadenceUplift.Pattern
