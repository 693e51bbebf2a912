import CadenceUplift.Proofs.Matching.Getter

namespace CadenceUplift

open Text Pattern Scanner

section Found

variable {p : Pattern} {t : Array Char} {i : Nat} {ms : List Match}

theorem Pattern.Found.start_le (hp : p.isRegular = true) (ha : p.advances = true) (h : Found p t i ms) :
    ∀ M ∈ ms, i ≤ M.start := by
  induction h with
  | stop => simp
  | miss _ _ _ ih => exact fun M hM => Nat.le_of_succ_le (ih M hM)
  | hit _ hm _ ih =>
    obtain ⟨hstart, hstop⟩ := matchAt_advances hp ha hm
    intro M hM
    rcases List.mem_cons.mp hM with rfl | hM
    · exact Nat.le_of_eq hstart.symm
    · have hle := ih M hM
      omega

/-- A match at any place is found, or its place lies within one that is found. -/
theorem Pattern.Found.mem_or_within (hp : p.isRegular = true) (ha : p.advances = true) (h : Found p t i ms) {N : Match}
    {j : Nat} (hij : i ≤ j) (hj : j ≤ t.size) (hN : p.matchAt t j = some N) :
    N ∈ ms ∨ ∃ K ∈ ms, K.start < j ∧ j < K.stop := by
  induction h with
  | stop hi => omega
  | miss _ hm _ ih =>
    rcases Nat.eq_or_lt_of_le hij with rfl | hlt
    · rw [hm] at hN
      cases hN
    · exact ih hlt
  | @hit i M ms _ hm _ ih =>
    obtain ⟨hstart, _⟩ := matchAt_advances hp ha hm
    rcases Nat.eq_or_lt_of_le hij with rfl | hlt
    · rw [hm, Option.some.injEq] at hN
      exact .inl (by simp [hN])
    · by_cases hin : j < M.stop
      · exact .inr ⟨M, by simp, by omega, hin⟩
      · rcases ih (by omega) with hmem | ⟨K, hK, hwithin⟩
        · exact .inl (List.mem_cons_of_mem _ hmem)
        · exact .inr ⟨K, List.mem_cons_of_mem _ hK, hwithin⟩

/-- No match that is found starts within another one. -/
theorem Pattern.Found.not_within (hp : p.isRegular = true) (ha : p.advances = true) (h : Found p t i ms) {M K : Match}
    (hM : M ∈ ms) (hK : K ∈ ms) (hlt : K.start < M.start) : K.stop ≤ M.start := by
  induction h with
  | stop => cases hM
  | miss _ _ _ ih => exact ih hM hK
  | @hit i N ms _ hm hr ih =>
    have hlater := hr.start_le hp ha
    obtain ⟨_, hstop⟩ := matchAt_advances hp ha hm
    rcases List.mem_cons.mp hK with rfl | hK'
    · rcases List.mem_cons.mp hM with rfl | hM'
      · exact absurd hlt (Nat.lt_irrefl _)
      · exact hlater M hM'
    · rcases List.mem_cons.mp hM with rfl | hM'
      · have hle := hlater K hK'
        omega
      · exact ih hM' hK'

end Found

section Getters

theorem Getter.close_not_mem_front (g : Getter) :
    Piece.symbol ')' ∉ Piece.word Word.access :: .symbol '(' :: g.args := by
  intro hmem
  rcases List.mem_cons.mp hmem with heq | hmem
  · cases heq
  · exact g.open_args _ hmem rfl

/-- A getter that starts within another one ends with it. -/
theorem Getter.ends_with {g g' : Getter} {xs r r' : List Piece} (hne : xs ≠ [])
    (h : g.pieces ++ r = xs ++ (g'.pieces ++ r')) (hlt : (textOf xs).length < (textOf g.pieces).length) : r = r' := by
  have hsplit : g.pieces = (.word Word.access :: .symbol '(' :: g.args) ++ .symbol ')' :: (.blank g.gap ::
      .word Word.function :: (g.signature ++ [.symbol ':'])) := by
    simp [Getter.pieces, Getter.modifier]
  obtain ⟨zs, hzs, hrest⟩ : ∃ zs, g.pieces = xs ++ zs ∧ zs ++ r = g'.pieces ++ r' := by
    rcases List.append_eq_append_iff.mp h with ⟨as, rfl, _⟩ | ⟨zs, hzs, hrest⟩
    · rw [textOf_append, List.length_append] at hlt
      omega
    · exact ⟨zs, hzs, hrest.symm⟩
  rw [hsplit] at hzs
  rcases List.append_eq_append_iff.mp hzs with ⟨ys, rfl, hback⟩ | ⟨ys, hfront, rfl⟩
  · -- Behind the brackets of the modifier no getter starts.
    have hsilent : getterScanner.Silent (ys ++ zs) r := by
      have hfun : getterScanner.first (.word Word.function) = none := by decide
      rw [← hback]
      exact ⟨accepts_of_first_none rfl _, accepts_of_first_none rfl _, accepts_of_first_none hfun _,
        getter_silent_signature g r⟩
    have haccept := getter_accepts g' r'
    obtain ⟨_, hzsilent⟩ := silent_append.mp hsilent
    cases zs with
    | nil => simp [hsplit, hback] at hlt
    | cons z zs =>
      rw [← hrest, List.cons_append, hzsilent.1] at haccept
      cases haccept
  · -- Within the brackets one starts that ends its modifier where the other one does.
    have hinner : Piece.symbol ')' ∉ ys := fun hmem => g.close_not_mem_front (hfront ▸ List.mem_append_right _ hmem)
    have hbegin : ys ++ .symbol ')' :: (.blank g.gap :: .word Word.function :: (g.signature ++ [.symbol ':']) ++ r) =
        (.word Word.access :: .symbol '(' :: g'.args) ++ .symbol ')' :: (.blank g'.gap :: .word Word.function ::
          (g'.signature ++ [.symbol ':']) ++ r') := by
      simpa [Getter.pieces, Getter.modifier] using hrest
    obtain ⟨hargs, _⟩ := append_cons_inj_of_not_mem hinner g'.close_not_mem_front hbegin
    let inner : Getter := { g with args := g'.args, args_ok := g'.args_ok }
    have hpieces : inner.pieces ++ r = g'.pieces ++ r' := by
      rw [← hrest, hargs]
      simp [inner, Getter.pieces, Getter.modifier, Getter.signature]
    exact (Getter.pieces_inj hpieces).2

/-- A match of a getter, along the pieces that stand there. -/
theorem getter_match {a u : List Char} {M : Match} (h : Legacy.getter.matchAt (a ++ u).toArray a.length = some M) :
    endsWord a = false ∧ ∃ (g : Getter) (r : List Piece), pieces u = g.pieces ++ r ∧
      M.start = a.length ∧ M.stop + (textOf r).length = (a ++ u).length := by
  obtain ⟨hends, m, c, r, hu, ⟨rfl, g, rfl⟩, hstop⟩ := getter_reads.sound h
  obtain ⟨hstart, _⟩ := matchAt_advances getter_reads.regular getter_reads.advances h
  refine ⟨hends, g, r, hu, hstart, ?_⟩
  obtain ⟨rfl, _⟩ := pieces_eq_iff.mp hu
  simp [hstop, Nat.add_assoc]

/-- Matches that overlap end at the same place. -/
theorem getter_same_stop {s : List Char} {i j : Nat} {M N : Match} (hM : Legacy.getter.matchAt s.toArray i = some M)
    (hN : Legacy.getter.matchAt s.toArray j = some N) (hij : i < j) (hj : j < M.stop) (hsize : j ≤ s.length) :
    N.stop = M.stop := by
  obtain ⟨a, w, rfl, rfl⟩ : ∃ a w, s = a ++ w ∧ a.length = i :=
    ⟨s.take i, s.drop i, (List.take_append_drop i s).symm, List.length_take_of_le (by omega)⟩
  obtain ⟨v, u, rfl, rfl⟩ : ∃ v u, w = v ++ u ∧ (a ++ v).length = j := by
    refine ⟨w.take (j - a.length), w.drop (j - a.length), (List.take_append_drop _ w).symm, ?_⟩
    rw [List.length_append] at hsize ⊢
    rw [List.length_take_of_le (by omega)]
    omega
  obtain ⟨_, g, r, hu, _, hstop⟩ := getter_match hM
  rw [← List.append_assoc] at hN
  obtain ⟨hends, g', r', hu', _, hstop'⟩ := getter_match hN
  have hv : v ≠ [] := by
    rintro rfl
    simp at hij
  have hword : startsWord u = true := startsWord_iff.mpr ⟨_, _, hu'⟩
  rw [pieces_append (endsWord_suffix (List.suffix_append _ _) hends) hword, hu'] at hu
  have htext : (textOf (g.pieces ++ r)).length = (v ++ u).length := by
    rw [← hu, textOf_append, textOf_pieces, ← hu', textOf_pieces]
  have hlt : (textOf (pieces v)).length < (textOf g.pieces).length := by
    simp only [textOf_pieces, textOf_append, List.length_append] at htext hstop hj ⊢
    omega
  obtain rfl := g.ends_with (fun hnil => hv (pieces_eq_iff.mp hnil).1) hu.symm hlt
  simp only [List.length_append] at hstop hstop'
  omega

/-- What matches in a stretch of a text matches in the text, and ends at the same place. -/
theorem getter_match_around {b t v : List Char} (hb : endsWord b = false) {j : Nat} (hj : j ≤ t.length) {K : Match}
    (hK : Legacy.getter.matchAt t.toArray j = some K) :
    ∃ K', Legacy.getter.matchAt (b ++ (t ++ v)).toArray (b.length + j) = some K' ∧ K'.start = b.length + K.start ∧
      K'.stop = b.length + K.stop := by
  obtain ⟨a, u, rfl, rfl⟩ : ∃ a u, t = a ++ u ∧ a.length = j :=
    ⟨t.take j, t.drop j, (List.take_append_drop j t).symm, List.length_take_of_le hj⟩
  obtain ⟨hends, g, r, hu, hstart, hstop⟩ := getter_match hK
  obtain ⟨rfl, hdiv⟩ := pieces_eq_iff.mp hu
  have hlonger : pieces (textOf (g.pieces ++ r) ++ v) = g.pieces ++ pieces (textOf r ++ v) := by
    rw [textOf_append, List.append_assoc]
    refine pieces_textOf_append (divided_append.mp hdiv).1 fun x hx y _ => ?_
    have hlast : g.pieces.getLast? = some (.symbol ':') := by
      rw [g.pieces_eq, ← List.cons_append]
      exact List.getLast?_concat
    rw [hlast, Option.mem_some_iff] at hx
    rw [← hx]
    exact fun _ => rfl
  have hends' : endsWord (b ++ a) = false := by
    rcases List.eq_nil_or_concat a with rfl | ⟨a, c, rfl⟩
    · simpa using hb
    · simpa [endsWord] using hends
  have htext : b ++ (a ++ textOf (g.pieces ++ r) ++ v) = (b ++ a) ++ (textOf (g.pieces ++ r) ++ v) := by simp
  have hsome := getter_reads.complete hends' (hlonger.trans (by rw [List.nil_append])) ⟨rfl, g, rfl⟩
  obtain ⟨K', hK'⟩ := Option.isSome_iff_exists.mp hsome
  obtain ⟨_, g', r', hu', hstart', hstop'⟩ := getter_match hK'
  rw [hlonger] at hu'
  obtain ⟨_, rfl⟩ := Getter.pieces_inj hu'
  rw [htext, ← List.length_append]
  refine ⟨K', hK', ?_, ?_⟩
  · simp [hstart', hstart]
  · simp only [List.length_append, textOf_append, textOf_pieces] at hstop hstop'
    omega

/-- A match that is found in a text, and is one of a stretch of it as well, is found in the stretch. -/
theorem getter_found_within {b t v : List Char} (hb : endsWord b = false) {M : Match}
    (hM : M ∈ Legacy.getter.allMatches (b ++ (t ++ v)).toArray) {j : Nat} (hstart : M.start = b.length + j)
    (hj : j ≤ t.length) (ht : (Legacy.getter.matchAt t.toArray j).isSome) :
    ∃ N ∈ Legacy.getter.allMatches t.toArray, N.start = j := by
  have hreg := getter_reads.regular
  have hadv := getter_reads.advances
  have hfound : Found Legacy.getter _ 0 _ := found_allMatches (t := (b ++ (t ++ v)).toArray) hreg hadv
  have hfound' : Found Legacy.getter _ 0 _ := found_allMatches (t := t.toArray) hreg hadv
  obtain ⟨N, hN⟩ := Option.isSome_iff_exists.mp ht
  rcases hfound'.mem_or_within hreg hadv (Nat.zero_le j) (by simpa using hj) hN with hmem | ⟨K, hK, hlt, hgt⟩
  · exact ⟨N, hmem, (matchAt_advances hreg hadv hN).1⟩
  · -- Something in the way within the stretch would be in the way in the whole text too.
    exfalso
    obtain ⟨hsize, hKmatch⟩ := hfound'.matchAt hreg K hK
    rw [List.size_toArray] at hsize
    obtain ⟨K', hK', hstart', hstop'⟩ := getter_match_around (v := v) hb hsize hKmatch
    have hsize' : b.length + K.start ≤ (b ++ (t ++ v)).toArray.size := by simp; omega
    rcases hfound.mem_or_within hreg hadv (Nat.zero_le _) hsize' hK' with hmem | ⟨L, hL, hlow, hhigh⟩
    · have hle := hfound.not_within hreg hadv hM hmem (by omega)
      omega
    · obtain ⟨_, hLmatch⟩ := hfound.matchAt hreg L hL
      have hsame := getter_same_stop hLmatch hK' hlow hhigh (by simpa using hsize')
      have hle := hfound.not_within hreg hadv hM hL (by omega)
      omega

end Getters

end CadenceUplift
