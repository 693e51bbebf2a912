import CadenceUplift.Rule.Basic
import CadenceUplift.Proofs.Matching.Conformance

namespace CadenceUplift

open Text Pattern

namespace Pattern

/-- A repetition with nothing to come takes all it can. -/
theorem runGreedy_member {t : Array Char} {cs : CharSet} {k : Next} (hk : ∀ s, k s = some s) (n : Nat) (s : Place)
    (hn : t.size - s.pos < n) :
    ∃ e, runGreedy (fun s' k' => (Pattern.member cs).run t s' k') n s k = some e ∧
      (t[e.pos]?).any cs.holds = false := by
  induction n generalizing s with
  | zero => omega
  | succ n ih =>
    cases hc : (t[s.pos]?).any cs.holds with
    | false => exact ⟨s, by simp [runGreedy, run, hc, hk], hc⟩
    | true =>
      have hlt : s.pos < t.size := by
        obtain ⟨c, hc, _⟩ := (Option.any_eq_true _ _).mp hc
        exact (Array.getElem?_eq_some_iff.mp hc).1
      have hpos : s.advance.pos = s.pos + 1 := rfl
      obtain ⟨e, he, hstop⟩ := ih s.advance (by omega)
      have hne : s.advance.pos ≠ s.pos := by omega
      refine ⟨e, ?_, hstop⟩
      rw [runGreedy, run, if_pos hc, if_neg hne, he]

theorem run_many_member {t : Array Char} {cs : CharSet} {k : Next} (hk : ∀ s, k s = some s) {s e : Place}
    (h : (many (.member cs)).run t s k = some e) : (t[e.pos]?).any cs.holds = false := by
  obtain ⟨e', he', hstop⟩ := runGreedy_member (t := t) hk (t.size - s.pos + 1) s (by omega)
  have hrun : (many (.member cs)).run t s k = some e' := he'
  rw [hrun] at h
  cases h
  exact hstop

end Pattern

theorem blank_append_inj {g g' s s' : List Char} (h : g ++ s = g' ++ s') (hg : ∀ c ∈ g, isBlank c = true)
    (hg' : ∀ c ∈ g', isBlank c = true) (hs : startsBlank s = false) (hs' : startsBlank s' = false) :
    g = g' ∧ s = s' := by
  induction g generalizing g' with
  | nil =>
    cases g' with
    | nil => exact ⟨rfl, h⟩
    | cons c g' =>
      have hc := hg' c (by simp)
      rw [show s = c :: (g' ++ s') from h] at hs
      simp [startsBlank, hc] at hs
  | cons c g ih =>
    cases g' with
    | nil =>
      have hc := hg c (by simp)
      rw [← show c :: (g ++ s) = s' from h] at hs'
      simp [startsBlank, hc] at hs'
    | cons d g' =>
      obtain ⟨rfl, htail⟩ := List.cons.inj h
      obtain ⟨rfl, rfl⟩ := ih htail (fun d hd => hg d (by simp [hd])) fun d hd => hg' d (by simp [hd])
      exact ⟨rfl, rfl⟩

theorem mem_language_listSeparator {u : List Char} :
    u ∈ Legacy.listSeparator.language ↔
      ∃ g d g', u = g ++ d :: g' ∧ (∀ c ∈ g, isBlank c = true) ∧ (d = ',' ∨ d = '&') ∧ ∀ c ∈ g', isBlank c = true := by
  have happ := mem_language_separated (p := among ",&") (q := []) (u := u)
  rw [List.append_nil] at happ
  rw [Legacy.listSeparator, happ]
  simp only [mem_language_marks, mem_language_all_nil]
  constructor
  · rintro ⟨g, _, g', _, rfl, hg, ⟨d, hd, rfl⟩, hg', rfl⟩
    exact ⟨g, d, g', by simp, hg, by simpa using hd, hg'⟩
  · rintro ⟨g, d, g', rfl, hg, hd, hg'⟩
    exact ⟨g, [d], g', [], by simp, hg, ⟨d, by simpa using hd, rfl⟩, hg', rfl⟩

theorem listSeparator_none {a u : List Char} (h : ∀ c ∈ u.head?, isBlank c = false ∧ c ≠ ',' ∧ c ≠ '&') :
    Legacy.listSeparator.matchAt (a ++ u).toArray a.length = none := by
  cases hM : Legacy.listSeparator.matchAt (a ++ u).toArray a.length with
  | none => rfl
  | some M =>
    have hreach := (matchAt_eq_some (by decide) hM).1
    obtain ⟨x, r, rfl, hx, _⟩ := (reach_textual (p := Legacy.listSeparator) (by decide)).mp hreach
    obtain ⟨g, d, g', rfl, hg, hd, _⟩ := mem_language_listSeparator.mp hx
    cases g with
    | nil =>
      obtain ⟨_, h₁, h₂⟩ := h d (by simp)
      rcases hd with rfl | rfl
      · exact absurd rfl h₁
      · exact absurd rfl h₂
    | cons c g =>
      obtain ⟨hc, _⟩ := h c (by simp)
      rw [hg c (by simp)] at hc
      exact absurd hc (by simp)

/-- A match of a separator ends where no blank follows. -/
theorem listSeparator_match {a u : List Char} {M : Match}
    (hM : Legacy.listSeparator.matchAt (a ++ u).toArray a.length = some M) :
    ∃ g d g' r, u = g ++ d :: (g' ++ r) ∧ (∀ c ∈ g, isBlank c = true) ∧ (d = ',' ∨ d = '&') ∧
      (∀ c ∈ g', isBlank c = true) ∧ startsBlank r = false ∧ M = ⟨a.length, (a ++ (g ++ d :: g')).length, []⟩ := by
  have hblank : (many blank).isTextual = true := rfl
  have hmark : (among ",&").isTextual = true := rfl
  obtain ⟨e, he, rfl⟩ := Option.map_eq_some_iff.mp hM
  obtain ⟨e₁, h₁, hrest⟩ := run_sound (p := many blank) (by decide) he
  rw [show all [among ",&", many blank] = .seq (among ",&") (many blank) from rfl, run] at hrest
  obtain ⟨e₂, h₂, hlast⟩ := run_sound (p := among ",&") (by decide) hrest
  have hstop := run_many_member (fun s => by simp) hlast
  obtain ⟨e₃, h₃, hend⟩ := run_sound (p := many blank) (by decide) hlast
  obtain rfl : e₃ = e := by simpa using hend
  obtain ⟨g, r₁, rfl, hg, rfl⟩ := (reach_textual hblank).mp h₁
  rw [← List.append_assoc] at h₂ h₃ hstop
  obtain ⟨v, r₂, rfl, hv, rfl⟩ := (reach_textual hmark).mp h₂
  obtain ⟨d, hd, rfl⟩ := (mem_language_marks v).mp hv
  rw [← List.append_assoc] at h₃ hstop
  obtain ⟨g', r, rfl, hg', rfl⟩ := (reach_textual hblank).mp h₃
  refine ⟨g, d, g', r, by simp, mem_language_many_blank.mp hg, by simpa using hd, mem_language_many_blank.mp hg', ?_,
    by simp⟩
  have hhead : (a ++ g ++ [d] ++ (g' ++ r)).toArray[(a ++ g ++ [d] ++ g').length]? = r.head? := by
    rw [← List.append_assoc, List.getElem?_toArray, List.getElem?_append_right (Nat.le_refl _), Nat.sub_self,
      List.head?_eq_getElem?]
  have hholds : ({ items := [.blank] } : CharSet).holds = isBlank := by
    funext c
    simp [CharSet.holds, CharItem.holds]
  simpa only [startsBlank, hhead, hholds] using hstop

/-- A separator is taken with all the blanks before and after it. -/
theorem listSeparator_some {a g g' r : List Char} {d : Char} (hg : ∀ c ∈ g, isBlank c = true)
    (hd : d = ',' ∨ d = '&') (hg' : ∀ c ∈ g', isBlank c = true) (hr : startsBlank r = false) :
    Legacy.listSeparator.matchAt (a ++ (g ++ d :: (g' ++ r))).toArray a.length =
      some ⟨a.length, (a ++ (g ++ d :: g')).length, []⟩ := by
  have hreach : Reach (a ++ (g ++ d :: (g' ++ r))).toArray Legacy.listSeparator ⟨a.length, []⟩
      ⟨(a ++ (g ++ d :: g')).length, []⟩ :=
    (reach_textual (by decide)).mpr ⟨_, r, by simp, mem_language_listSeparator.mpr ⟨g, d, g', rfl, hg, hd, hg'⟩, rfl⟩
  obtain ⟨M, hM⟩ := Option.isSome_iff_exists.mp (matchAt_isSome (by decide) hreach)
  obtain ⟨g₁, d₁, g₂, r₃, hsplit, hg₁, hd₁, hg₂, hr₃, rfl⟩ := listSeparator_match hM
  obtain ⟨rfl, hcons⟩ := blank_append_inj hsplit hg hg₁ (mark_valid hd).2 (mark_valid hd₁).2
  obtain ⟨rfl, htail⟩ := List.cons.inj hcons
  obtain ⟨rfl, _⟩ := blank_append_inj htail hg' hg₂ hr hr₃
  exact hM

/-- No separator starts within an item. -/
theorem listSeparator_skips_item {x : List Char} (hx : ∀ d ∈ x, isWord d = true ∨ d = '.') (a s : List Char) (k : Nat)
    (hk : a.length ≤ k) (hlt : k < a.length + x.length) :
    Legacy.listSeparator.matchAt (a ++ (x ++ s)).toArray k = none := by
  obtain ⟨j, rfl⟩ := Nat.exists_eq_add_of_le hk
  have hj : j < x.length := by omega
  have hsplit : a ++ (x ++ s) = (a ++ x.take j) ++ (x.drop j ++ s) := by
    simp only [List.append_assoc, ← List.append_assoc (x.take j), List.take_append_drop]
  have hlen : a.length + j = (a ++ x.take j).length := by
    simp only [List.length_append, List.length_take]
    omega
  rw [hsplit, hlen]
  refine listSeparator_none ?_
  rw [List.drop_eq_getElem_cons hj]
  intro c hc
  obtain rfl : x[j] = c := Option.some.inj hc
  rcases hx _ (List.getElem_mem hj) with hw | hdot
  · have hcomma : x[j] ≠ ',' := by rintro h; rw [h] at hw; exact absurd hw (by decide)
    have hand : x[j] ≠ '&' := by rintro h; rw [h] at hw; exact absurd hw (by decide)
    exact ⟨isBlank_of_isWord hw, hcomma, hand⟩
  · rw [hdot]
    decide

theorem item_chars {xs : List Piece} (h : IsItem xs) (hv : ∀ x ∈ xs, x.Valid) :
    ∀ d ∈ textOf xs, isWord d = true ∨ d = '.' := by
  obtain ⟨c, v, hcv, hc, hrest⟩ := mem_language_dottedName.mp (mem_language_item h hv)
  rw [hcv]
  intro d hd
  rcases List.mem_cons.mp hd with rfl | hd
  · exact .inl (isWord_of_isNameStart hc)
  · exact hrest d hd

theorem found_behind_item {x : List Char} (hx : ∀ d ∈ x, isWord d = true ∨ d = '.') {a s : List Char}
    {ms : List Match} (h : Found Legacy.listSeparator (a ++ (x ++ s)).toArray a.length ms) :
    Found Legacy.listSeparator (a ++ x ++ s).toArray (a ++ x).length ms := by
  have hskip := found_skip _ _ h (by simp) (listSeparator_skips_item hx a s)
  rwa [← List.length_append, ← List.append_assoc] at hskip

theorem found_at_end {a : List Char} {ms : List Match}
    (h : Found Legacy.listSeparator (a ++ []).toArray a.length ms) : ms = [] := by
  obtain ⟨_, hlast⟩ | ⟨M, _, hM, _, _⟩ := found_inv h (by simp)
  · cases hlast with
    | stop _ => rfl
    | miss hle _ _ =>
      rw [List.append_nil, List.size_toArray] at hle
      omega
    | hit hle _ _ =>
      rw [List.append_nil, List.size_toArray] at hle
      omega
  · rw [listSeparator_none (by simp)] at hM
    simp at hM

/-- From an item on, the separators are found one after another, and what stands between them are the
items. -/
theorem splitBetween_entries (es : List Entry) {item : List Piece} (hitem : IsItem item) (a : List Char)
    (hv : ∀ x ∈ item ++ es.flatMap Entry.pieces, x.Valid) {ms : List Match}
    (h : Found Legacy.listSeparator (a ++ (textOf item ++ textOf (es.flatMap Entry.pieces))).toArray a.length ms) :
    splitBetween (a ++ (textOf item ++ textOf (es.flatMap Entry.pieces))).toArray a.length ms =
      textOf item :: es.map fun e => textOf e.item := by
  induction es generalizing item a ms with
  | nil =>
    obtain rfl := found_at_end (found_behind_item (item_chars hitem fun x hx => hv x (by simp [hx])) h)
    simp [splitBetween]
  | cons e es ih =>
    have hskip := found_behind_item (item_chars hitem fun x hx => hv x (by simp [hx])) h
    have hve : ∀ x ∈ e.pieces ++ es.flatMap Entry.pieces, x.Valid := fun x hx => by
      refine hv x ?_
      rw [List.flatMap_cons]
      exact List.mem_append_right _ hx
    have hbefore := e.before_gap.blank fun x hx => hve x (by simp [Entry.pieces, hx])
    have hafter := e.after_gap.blank fun x hx => hve x (by simp [Entry.pieces, hx])
    have hvi : ∀ x ∈ e.item ++ es.flatMap Entry.pieces, x.Valid := fun x hx => by
      refine hve x ?_
      simp only [Entry.pieces, List.mem_append] at hx ⊢
      tauto
    have hstart := (item_starts (mem_language_item e.item_ok fun x hx => hvi x (List.mem_append_left _ hx))
      (textOf (es.flatMap Entry.pieces))).2
    have htext : textOf ((e :: es).flatMap Entry.pieces) = textOf e.before ++ e.mark :: (textOf e.after ++
        (textOf e.item ++ textOf (es.flatMap Entry.pieces))) := by simp [Entry.pieces, Piece.text]
    rw [htext] at hskip ⊢
    have hsome := listSeparator_some (a := a ++ textOf item) hbefore e.mark_separates hafter hstart
    obtain ⟨hnone, _⟩ | ⟨M, ms', hM, rfl, hnext⟩ := found_inv hskip (by simp)
    · rw [hsome] at hnone
      simp at hnone
    · rw [hsome] at hM
      obtain rfl := Option.some.inj hM
      have hassoc : a ++ textOf item ++ (textOf e.before ++ e.mark :: (textOf e.after ++
          (textOf e.item ++ textOf (es.flatMap Entry.pieces)))) =
          a ++ textOf item ++ (textOf e.before ++ e.mark :: textOf e.after) ++
            (textOf e.item ++ textOf (es.flatMap Entry.pieces)) := by simp
      rw [hassoc] at hnext
      have hrest := ih e.item_ok _ hvi hnext
      rw [← List.append_assoc a, hassoc, splitBetween, hrest, List.map_cons]
      simp

/-- The names of a conformance list are its items. -/
theorem conformanceNames_eq {item : List Piece} {es : List Entry} (hitem : IsItem item)
    (hv : ∀ x ∈ item ++ es.flatMap Entry.pieces, x.Valid) :
    conformanceNames (textOf (item ++ es.flatMap Entry.pieces)) = textOf item :: es.map fun e => textOf e.item := by
  have hfound := found_allMatches (p := Legacy.listSeparator) (by decide) (by decide)
    (t := (textOf item ++ textOf (es.flatMap Entry.pieces)).toArray)
  rw [conformanceNames, textOf_append]
  exact splitBetween_entries es hitem [] hv hfound

theorem join_items (item : List Piece) (es : List Entry) :
    Text.join [' ', '&', ' '] (textOf item :: es.map fun e => textOf e.item) =
      textOf (item ++ (es.map Entry.joined).flatMap Entry.pieces) := by
  induction es generalizing item with
  | nil => simp [Text.join]
  | cons e es ih =>
    have hrest := ih e.item
    rw [List.map_cons, Text.join]
    · rw [hrest]
      simp [Entry.pieces, Entry.joined, Piece.text]
    · simp

end CadenceUplift
