import CadenceUplift.Literal.Replace
import CadenceUplift.Proofs.Lexeme.Tagged
import CadenceUplift.Proofs.Pattern.Found

namespace CadenceUplift

open Text Pattern

/-- A pattern matches where a construct stands that no word prolongs to the left, and takes its pieces. -/
structure Reads (p : Pattern) (At : List Piece → List Piece → Prop) : Prop where
  regular : p.isRegular = true
  advances : p.advances = true
  opens : ∀ {m c}, At m c → ∃ w m₀, m = .word w :: m₀
  sound : ∀ {pre u : List Char} {M : Match}, p.matchAt (pre ++ u).toArray pre.length = some M →
    endsWord pre = false ∧ ∃ m c r, pieces u = m ++ (c ++ r) ∧ At m c ∧
      M.stop = pre.length + (textOf m).length
  complete : ∀ {pre u : List Char} {m c r : List Piece}, endsWord pre = false → pieces u = m ++ (c ++ r) →
    At m c → (p.matchAt (pre ++ u).toArray pre.length).isSome

/-- What a pattern reads can be told from where it gets to. -/
theorem Reads.of_reach {p : Pattern} {At : List Piece → List Piece → Prop} (hreg : p.isRegular = true)
    (hadv : p.advances = true) (hopens : ∀ {m c}, At m c → ∃ w m₀, m = .word w :: m₀)
    (hsound : ∀ {a u : List Char} {e : Place}, Reach (a ++ u).toArray p ⟨a.length, []⟩ e →
      endsWord a = false ∧ ∃ m c r, pieces u = m ++ (c ++ r) ∧ At m c ∧ e.pos = (a ++ textOf m).length)
    (hcomplete : ∀ {a : List Char} {m c r : List Piece}, endsWord a = false → Divided (m ++ (c ++ r)) → At m c →
      ∃ e, Reach (a ++ textOf (m ++ (c ++ r))).toArray p ⟨a.length, []⟩ e) : Reads p At where
  regular := hreg
  advances := hadv
  opens := hopens
  sound := by
    intro pre u M hM
    obtain ⟨hends, m, c, r, hu, hat, hpos⟩ := hsound (matchAt_eq_some hreg hM).1
    exact ⟨hends, m, c, r, hu, hat, by simpa using hpos⟩
  complete := by
    intro pre u m c r hends hu hat
    obtain ⟨rfl, hdiv⟩ := pieces_eq_iff.mp hu
    obtain ⟨e, he⟩ := hcomplete hends hdiv hat
    exact matchAt_isSome hreg he

/-- The matches of a pattern from an offset on, along the pieces that stand there. -/
inductive Walk (p : Pattern) (At : List Piece → List Piece → Prop) (t : Array Char) :
    Nat → List Piece → List Match → Prop
  | nil {i : Nat} : Walk p At t i [] []
  | keep {i : Nat} {x : Piece} {r : List Piece} {ms : List Match} :
      (∀ m c r', x :: r = m ++ (c ++ r') → ¬At m c) → Walk p At t (i + x.text.length) r ms →
      Walk p At t i (x :: r) ms
  | hit {i : Nat} {m c r : List Piece} {M : Match} {ms : List Match} :
      At m c → p.matchAt t i = some M → M.start = i → M.stop = i + (textOf m).length →
      Walk p At t M.stop (c ++ r) ms → Walk p At t i (m ++ (c ++ r)) (M :: ms)

theorem found_inv {p : Pattern} {t : Array Char} {i : Nat} {ms : List Match} (h : Found p t i ms)
    (hi : i ≤ t.size) : (p.matchAt t i = none ∧ Found p t (i + 1) ms) ∨
      ∃ M ms', p.matchAt t i = some M ∧ ms = M :: ms' ∧ Found p t M.stop ms' := by
  cases h with
  | stop hlt => omega
  | miss _ hm hr => exact .inl ⟨hm, hr⟩
  | hit _ hm hr => exact .inr ⟨_, _, hm, rfl, hr⟩

theorem found_skip {p : Pattern} {t : Array Char} {ms : List Match} (n i : Nat) (h : Found p t i ms)
    (hi : i + n ≤ t.size) (hnone : ∀ k, i ≤ k → k < i + n → p.matchAt t k = none) : Found p t (i + n) ms := by
  induction n generalizing i with
  | zero => exact h
  | succ n ih =>
    obtain ⟨_, hr⟩ | ⟨M, ms', hM, _, _⟩ := found_inv h (by omega)
    · have hrest := ih (i + 1) hr (by omega) fun k hk hlt => hnone k (by omega) (by omega)
      rwa [Nat.add_right_comm] at hrest
    · rw [hnone i (Nat.le_refl i) (by omega)] at hM
      simp at hM

section Walking

variable {p : Pattern} {At : List Piece → List Piece → Prop}

/-- No match starts inside a piece. -/
theorem Reads.matchAt_inside (h : Reads p At) {pre : List Char} {x : Piece} (hx : x.Valid) {post a b : List Char}
    (hab : x.text = a ++ b) (ha : a ≠ []) (hb : b ≠ []) :
    p.matchAt (pre ++ (x.text ++ post)).toArray (pre.length + a.length) = none := by
  cases hM : p.matchAt (pre ++ (x.text ++ post)).toArray (pre.length + a.length) with
  | none => rfl
  | some M =>
    have htext : pre ++ (x.text ++ post) = (pre ++ a) ++ (b ++ post) := by simp [hab]
    have hlen : pre.length + a.length = (pre ++ a).length := by simp
    rw [htext, hlen] at hM
    obtain ⟨hends, m, c, r, hp, hat, _⟩ := h.sound hM
    obtain ⟨w, m₀, rfl⟩ := h.opens hat
    have hstart : startsWord (b ++ post) = true := startsWord_iff.mpr ⟨_, _, hp⟩
    obtain ⟨d, b', rfl⟩ := List.exists_cons_of_ne_nil hb
    have hd : isWord d = true := hstart
    obtain ⟨a', e, rfl⟩ := (List.eq_nil_or_concat a).resolve_left ha
    have he : isWord e = false := by simpa [endsWord] using hends
    cases x with
    | word v =>
      have := hx.2 e (by rw [show v = _ from hab]; simp)
      simp [he] at this
    | blank v =>
      have := isWord_of_isBlank (hx.2 d (by rw [show v = _ from hab]; simp))
      simp [hd] at this
    | symbol v =>
      have := congrArg List.length hab
      simp only [Piece.text, List.length_cons, List.length_nil, List.length_append, List.length_concat] at this
      omega

/-- Where no match starts at a piece, none starts before its end. -/
theorem Reads.matchAt_piece (h : Reads p At) {done : List Piece} {x : Piece} {r : List Piece} (hx : x.Valid)
    (hnone : p.matchAt (textOf (done ++ x :: r)).toArray (textOf done).length = none) (k : Nat)
    (hk : (textOf done).length ≤ k) (hlt : k < (textOf done).length + x.text.length) :
    p.matchAt (textOf (done ++ x :: r)).toArray k = none := by
  rcases Nat.eq_or_lt_of_le hk with rfl | hgt
  · exact hnone
  · obtain ⟨j, rfl⟩ := Nat.exists_eq_add_of_lt hgt
    have hlen : (x.text.take (j + 1)).length = j + 1 := by simp; omega
    have hin : p.matchAt (textOf done ++ (x.text ++ textOf r)).toArray
        ((textOf done).length + (x.text.take (j + 1)).length) = none :=
      h.matchAt_inside hx (List.take_append_drop (j + 1) x.text).symm
        (by intro hnil; simp [hnil] at hlen) (by simp; omega)
    rw [hlen] at hin
    simpa [Nat.add_assoc] using hin

theorem endsWord_of_word {done : List Piece} {w : List Char} {r : List Piece} (hdiv : Divided (done ++ .word w :: r)) :
    endsWord (textOf done) = false := by
  obtain ⟨hd, _, hap⟩ := divided_append.mp hdiv
  cases he : endsWord (textOf done) with
  | false => rfl
  | true =>
    obtain ⟨v, hv⟩ := (endsWord_textOf hd.valid).mp he
    have := hap (.word v) hv (.word w) (by simp)
    simp [Piece.Apart] at this

/-- A construct where no match starts is none that the pattern reads. -/
theorem Reads.not_at (h : Reads p At) {done : List Piece} {x : Piece} {r : List Piece}
    (hdiv : Divided (done ++ x :: r))
    (hnone : p.matchAt (textOf (done ++ x :: r)).toArray (textOf done).length = none) {m c r' : List Piece}
    (heq : x :: r = m ++ (c ++ r')) : ¬At m c := by
  intro hat
  obtain ⟨w, m₀, rfl⟩ := h.opens hat
  obtain rfl : x = .word w := (List.cons.inj heq).1
  have hpieces : pieces (textOf (.word w :: r)) = .word w :: m₀ ++ (c ++ r') :=
    (pieces_textOf (divided_append.mp hdiv).2.1).trans heq
  have hsome := h.complete (endsWord_of_word hdiv) hpieces hat
  rw [← textOf_append, hnone] at hsome
  simp at hsome

/-- The matches that are found from a boundary of pieces on. -/
theorem Reads.walk_from (h : Reads p At) (n : Nat) {done rest : List Piece} (hn : rest.length ≤ n)
    (hdiv : Divided (done ++ rest)) {ms : List Match}
    (hms : Found p (textOf (done ++ rest)).toArray (textOf done).length ms) :
    Walk p At (textOf (done ++ rest)).toArray (textOf done).length rest ms := by
  induction n using Nat.strong_induction_on generalizing done rest ms with
  | _ n ih =>
    have hrest : pieces (textOf rest) = rest := pieces_textOf (divided_append.mp hdiv).2.1
    have hsize : (textOf done).length ≤ (textOf (done ++ rest)).toArray.size := by simp
    obtain ⟨hnone, hnext⟩ | ⟨M, ms', hM, rfl, hnext⟩ := found_inv hms hsize
    · cases rest with
      | nil =>
        simp only [List.append_nil] at hnext ⊢
        cases hnext with
        | stop _ => exact .nil
        | miss hle _ _ =>
          rw [List.size_toArray] at hle
          omega
        | hit hle _ _ =>
          rw [List.size_toArray] at hle
          omega
      | cons x r =>
        have hx : x.Valid := hdiv.valid x (by simp)
        have hskip := found_skip x.text.length _ hms (by simp) (h.matchAt_piece hx hnone)
        refine .keep (fun m c r' heq => h.not_at hdiv hnone heq) ?_
        have hdone : (textOf done).length + x.text.length = (textOf (done ++ [x])).length := by simp
        have hall : done ++ x :: r = (done ++ [x]) ++ r := by simp
        rw [hdone] at hskip ⊢
        rw [hall] at hskip hdiv ⊢
        exact ih r.length (by simp at hn; omega) (Nat.le_refl _) hdiv hskip
    · rw [textOf_append] at hM
      obtain ⟨_, m, c, r, hp, hat, hstop⟩ := h.sound hM
      obtain ⟨hstart, _⟩ := matchAt_advances h.regular h.advances hM
      rw [hrest] at hp
      subst hp
      rw [← textOf_append] at hM
      refine .hit hat hM hstart hstop ?_
      obtain ⟨w, m₀, rfl⟩ := h.opens hat
      have hdone : M.stop = (textOf (done ++ .word w :: m₀)).length := by simp [hstop]
      have hall : done ++ (.word w :: m₀ ++ (c ++ r)) = (done ++ .word w :: m₀) ++ (c ++ r) := by simp
      rw [hdone] at hnext ⊢
      rw [hall] at hnext hdiv ⊢
      refine ih (c ++ r).length ?_ (Nat.le_refl _) hdiv hnext
      simp only [List.length_append, List.length_cons] at hn ⊢
      omega

/-- All matches, along the pieces of the text. -/
theorem Reads.walk (h : Reads p At) (s : List Char) :
    Walk p At s.toArray 0 (pieces s) (p.allMatches s.toArray) := by
  have hfound := found_allMatches (t := s.toArray) h.regular h.advances
  have htext : textOf ([] ++ pieces s) = s := textOf_pieces s
  rw [← htext] at hfound
  have hwalk := h.walk_from _ (Nat.le_refl _) (divided_pieces s) hfound
  rwa [htext] at hwalk

end Walking

/-- One pass of replacements over lexemes; the number counts the changes. -/
inductive Pass (At : List Piece → List Piece → Prop) (E : List Lexeme → List Lexeme → List Lexeme → Prop) :
    List Lexeme → List Lexeme → Nat → Prop
  | nil : Pass At E [] [] 0
  | keep {x : Lexeme} {r r' : List Lexeme} {n : Nat} :
      (∀ m c r₀, (x :: r).map Lexeme.piece = m ++ (c ++ r₀) → ¬At m c) → Pass At E r r' n →
      Pass At E (x :: r) (x :: r') n
  | skip {x : Lexeme} {m r r' : List Lexeme} {c r₀ : List Piece} {n : Nat} :
      At ((x :: m).map Lexeme.piece) c → r.map Lexeme.piece = c ++ r₀ → x.region ≠ .code → Pass At E r r' n →
      Pass At E (x :: m ++ r) (x :: m ++ r') n
  | change {x : Lexeme} {m m' r r' : List Lexeme} {c r₀ : List Piece} {n : Nat} :
      At ((x :: m).map Lexeme.piece) c → r.map Lexeme.piece = c ++ r₀ → x.region = .code → E (x :: m) m' r →
      Pass At E r r' n → Pass At E (x :: m ++ r) (m' ++ r') (n + 1)

/-- What a rule does to a construct: how a match is rewritten, and what becomes of the lexemes. -/
structure Rewrites {ε : Type} (p : Pattern) (f : Match → Array Char → Except ε (List Char))
    (At out : List Piece → List Piece → Prop) (E : List Lexeme → List Lexeme → List Lexeme → Prop) : Prop
    extends Reads p At where
  writes : ∀ {pre u : List Char} {M : Match} {m c r : List Piece},
    p.matchAt (pre ++ u).toArray pre.length = some M → pieces u = m ++ (c ++ r) → At m c →
    M.stop = pre.length + (textOf m).length → ∃ m', out m m' ∧ f M (pre ++ u).toArray = .ok (textOf m')
  out_opens : ∀ {m m' c}, At m c → out m m' → ∃ w m₀, m' = .word w :: m₀
  out_divided : ∀ {m m' c}, At m c → out m m' → Divided m → Divided m'
  out_last : ∀ {m m' c}, At m c → out m m' → m'.getLast?.map Piece.kind = m.getLast?.map Piece.kind
  edits : ∀ {σ : Reader} {m m' c r r' : List Piece}, σ.inCode = true → At m c → out m m' →
    Divided (m ++ (c ++ r)) → Divided m' → Alike (c ++ r).head? r'.head? →
    ∃ x M M', (x :: M).map Lexeme.piece = m ∧
      tagged σ (m ++ (c ++ r)) = x :: M ++ tagged (σ.after (textOf m)) (c ++ r) ∧
      tagged σ (m' ++ r') = M' ++ tagged (σ.after (textOf m)) r' ∧
      E (x :: M) M' (tagged (σ.after (textOf m)) (c ++ r))

theorem Alike.apart {f g : Option Piece} (h : Alike f g) {x : Piece} (hf : ∀ y ∈ f, x.Apart y) :
    ∀ y ∈ g, x.Apart y := by
  obtain rfl | ⟨w, v, rfl, rfl⟩ := h
  · exact hf
  · intro y hy
    have hv : y = .word v := (Option.mem_some.mp hy).symm
    have hw := hf (.word w) rfl
    rw [hv]
    exact hw

/-- Pieces keep apart when the one before and the one after only change in what they spell. -/
theorem divided_append_alike {m m' ys zs : List Piece} (h : Divided (m ++ ys)) (hm' : Divided m') (hz : Divided zs)
    (hlast : m'.getLast?.map Piece.kind = m.getLast?.map Piece.kind) (hhead : Alike ys.head? zs.head?) :
    Divided (m' ++ zs) := by
  obtain ⟨_, _, hap⟩ := divided_append.mp h
  refine divided_append.mpr ⟨hm', hz, ?_⟩
  intro x hx y hy
  rw [Option.mem_def.mp hx] at hlast
  obtain ⟨x', hx', hkind⟩ := Option.map_eq_some_iff.mp hlast.symm
  have hap' := hhead.apart (hap x' hx') y hy
  intro hxy
  rw [← hkind] at hxy ⊢
  exact hap' hxy

/-- Text in front of the first replacement is copied. -/
theorem splice_copy {t : Array Char} {news : List (Match × List Char)} {i k : Nat}
    (h : ∀ new ∈ news.head?, i + k ≤ new.1.start) (hk : i + k ≤ t.size) :
    splice t i news = (t.toList.drop i).take k ++ splice t (i + k) news := by
  cases news with
  | nil =>
    have hsplit : t.size - i = k + (t.size - (i + k)) := by omega
    simp [splice, hsplit, List.take_add]
  | cons new news =>
    have hle := h new (by simp)
    have hsplit : new.1.start - i = k + (new.1.start - (i + k)) := by omega
    simp [splice, hsplit, List.take_add]

/-- The reader that goes with leaving literals alone, or not. -/
def readerFor (skipLiterals : Bool) : Reader := if skipLiterals then .code else .off

/-- The literals to be left alone. -/
def skipIndex (skipLiterals : Bool) (s : List Char) : LiteralIndex :=
  if skipLiterals then literalIndex s else .ofList []

/-- At a word, look-up and reader agree on whether to leave it alone. -/
theorem covers_skipIndex (s : List Char) (skipLiterals : Bool) (pre w : List Char) (r : List Piece)
    (hs : s = pre ++ textOf (.word w :: r)) (hdiv : Divided (.word w :: r)) :
    (skipIndex skipLiterals s).covers pre.length = !((readerFor skipLiterals).after pre).inCode := by
  cases skipLiterals with
  | false =>
    have hoff : (readerFor false).after pre = .off := Reader.after_off pre
    rw [hoff]
    rfl
  | true =>
    have hw := hdiv.valid (.word w) (by simp)
    obtain ⟨d, v, rfl⟩ := List.exists_cons_of_ne_nil hw.1
    subst hs
    exact covers_literalIndex (hw.2 d (by simp))

section Seeing

variable {p : Pattern} {At : List Piece → List Piece → Prop} {σ : Reader} {pre : List Char} {rest : List Piece}
  {ms : List Match}

/-- The matches that a reader finds outside literals, along the pieces that stand after `pre` in a text. -/
inductive Visible (p : Pattern) (At : List Piece → List Piece → Prop) (σ : Reader) :
    List Char → List Piece → List Match → Prop
  | nil {pre : List Char} : Visible p At σ pre [] []
  | keep {pre : List Char} {x : Piece} {r : List Piece} {ms : List Match} :
      Divided (x :: r) → (∀ m c r', x :: r = m ++ (c ++ r') → ¬At m c) → Visible p At σ (pre ++ x.text) r ms →
      Visible p At σ pre (x :: r) ms
  | skip {pre : List Char} {m c r : List Piece} {ms : List Match} :
      Divided (m ++ (c ++ r)) → At m c → (σ.after pre).inCode = false →
      Visible p At σ (pre ++ textOf m) (c ++ r) ms → Visible p At σ pre (m ++ (c ++ r)) ms
  | hit {pre : List Char} {m c r : List Piece} {M : Match} {ms : List Match} :
      Divided (m ++ (c ++ r)) → At m c → (σ.after pre).inCode = true →
      p.matchAt (pre ++ textOf (m ++ (c ++ r))).toArray pre.length = some M → M.start = pre.length →
      M.stop = pre.length + (textOf m).length → Visible p At σ (pre ++ textOf m) (c ++ r) ms →
      Visible p At σ pre (m ++ (c ++ r)) (M :: ms)

theorem Visible.start_le (h : Visible p At σ pre rest ms) : ∀ M ∈ ms, pre.length ≤ M.start := by
  induction h with
  | nil => simp
  | keep _ _ _ ih | skip _ _ _ _ ih =>
    intro M hM
    have := ih M hM
    rw [List.length_append] at this
    omega
  | hit _ _ _ _ hstart _ _ ih =>
    intro M hM
    rcases List.mem_cons.mp hM with rfl | hM
    · omega
    · have := ih M hM
      rw [List.length_append] at this
      omega

/-- A walk is seen by a reader that agrees with the look-up of literals at every word. -/
theorem Walk.visible (hopens : ∀ {m c}, At m c → ∃ w m₀, m = .word w :: m₀) {s : List Char} {skip : LiteralIndex}
    (hskip : ∀ pre w r, s = pre ++ textOf (.word w :: r) → Divided (.word w :: r) →
      skip.covers pre.length = !(σ.after pre).inCode)
    {i : Nat} (hw : Walk p At s.toArray i rest ms) (hs : s = pre ++ textOf rest) (hi : i = pre.length)
    (hdiv : Divided rest) : Visible p At σ pre rest (ms.filter fun M => !skip.covers M.start) := by
  induction hw generalizing pre with
  | nil => exact .nil
  | keep hnot _ ih => exact .keep hdiv hnot (ih (by simp [hs]) (by simp [hi]) hdiv.tail)
  | @hit i m c r M ms hat hM hstart hstop _ ih =>
    have hrest : Visible p At σ (pre ++ textOf m) (c ++ r) (ms.filter fun M => !skip.covers M.start) :=
      ih (by simp [hs]) (by simp [hstop, hi]) (divided_append.mp hdiv).2.1
    have hcov : skip.covers M.start = !(σ.after pre).inCode := by
      obtain ⟨w, m₀, rfl⟩ := hopens hat
      rw [hstart, hi]
      exact hskip pre w (m₀ ++ (c ++ r)) hs hdiv
    subst hs hi
    cases hσ : (σ.after pre).inCode with
    | true =>
      rw [List.filter_cons_of_pos (by simp [hcov, hσ])]
      exact .hit hdiv hat hσ hM hstart hstop hrest
    | false =>
      rw [List.filter_cons_of_neg (by simp [hcov, hσ])]
      exact .skip hdiv hat hσ hrest

/-- The matches outside literals are those that the reader of the text finds. -/
theorem Reads.visible (hR : Reads p At) (s : List Char) (skipLiterals : Bool) :
    Visible p At (readerFor skipLiterals) [] (pieces s) (matchesOutside p s.toArray (skipIndex skipLiterals s)) :=
  (hR.walk s).visible hR.opens (covers_skipIndex s skipLiterals) (by simp [textOf_pieces]) rfl (divided_pieces s)

end Seeing

section Passing

variable {ε : Type} {p : Pattern} {f : Match → Array Char → Except ε (List Char)}
  {At out : List Piece → List Piece → Prop} {E : List Lexeme → List Lexeme → List Lexeme → Prop}

/-- Each match with what it becomes. -/
def rewriteAll (f : Match → Array Char → Except ε (List Char)) (t : Array Char) (ms : List Match) :
    Except ε (List (Match × List Char)) :=
  ms.mapM fun m => return (m, ← f m t)

theorem rewriteAll_cons {t : Array Char} {M : Match} {ms : List Match} {new : List Char}
    {news : List (Match × List Char)} (h : f M t = .ok new) (hs : rewriteAll f t ms = .ok news) :
    rewriteAll f t (M :: ms) = .ok ((M, new) :: news) := by
  unfold rewriteAll at hs ⊢
  rw [List.mapM_cons, h, hs]
  rfl

theorem rewriteAll_ok (write : Match → Array Char → List Char) (t : Array Char) (ms : List Match) :
    rewriteAll (ε := ε) (fun M t => .ok (write M t)) t ms = .ok (ms.map fun M => (M, write M t)) := by
  induction ms with
  | nil => rfl
  | cons M ms ih => exact rewriteAll_cons rfl ih

theorem rewriteAll_start {t : Array Char} {ms : List Match} {news : List (Match × List Char)}
    (h : rewriteAll f t ms = .ok news) : news.map (·.1) = ms := by
  induction ms generalizing news with
  | nil => cases h; rfl
  | cons M ms ih =>
    unfold rewriteAll at h ih
    rw [List.mapM_cons] at h
    cases hM : f M t with
    | error e => rw [hM] at h; cases h
    | ok new =>
      rw [hM] at h
      cases hms : ms.mapM (fun m => return (m, ← f m t)) with
      | error e => rw [hms] at h; cases h
      | ok rest =>
        rw [hms] at h
        cases h
        simp [ih hms]

/-- What a pass with the given matches leaves of the pieces that stand after `pre` in a text. -/
structure Passed (f : Match → Array Char → Except ε (List Char)) (At : List Piece → List Piece → Prop)
    (E : List Lexeme → List Lexeme → List Lexeme → Prop) (σ : Reader) (pre : List Char) (rest : List Piece)
    (ms : List Match) (rest' : List Piece) : Prop where
  text : ∃ news, rewriteAll f (pre ++ textOf rest).toArray ms = .ok news ∧
    splice (pre ++ textOf rest).toArray pre.length news = textOf rest'
  pass : Pass At E (tagged (σ.after pre) rest) (tagged (σ.after pre) rest') ms.length
  divided : Divided rest'
  alike : Alike rest.head? rest'.head?

/-- Pieces without a match are copied. -/
theorem Passed.copy {σ : Reader} {pre : List Char} {xs rest rest' : List Piece} {ms : List Match}
    (h : Passed f At E σ (pre ++ textOf xs) rest ms rest')
    (hstart : ∀ M ∈ ms, (pre ++ textOf xs).length ≤ M.start) :
    ∃ news, rewriteAll f (pre ++ textOf (xs ++ rest)).toArray ms = .ok news ∧
      splice (pre ++ textOf (xs ++ rest)).toArray pre.length news = textOf (xs ++ rest') := by
  obtain ⟨news, hnews, hsplice⟩ := h.text
  have htext : pre ++ textOf xs ++ textOf rest = pre ++ textOf (xs ++ rest) := by simp
  rw [htext] at hnews hsplice
  refine ⟨news, hnews, ?_⟩
  have hstarts := rewriteAll_start hnews
  rw [splice_copy (k := (textOf xs).length) ?_ (by simp), ← List.length_append, hsplice]
  · simp
  · intro new hnew
    rw [← List.length_append]
    refine hstart new.1 ?_
    rw [← hstarts]
    exact List.mem_map_of_mem (List.mem_of_mem_head? hnew)

theorem Passed.keep {σ : Reader} {pre : List Char} {x : Piece} {rest rest' : List Piece} {ms : List Match}
    (hnot : ∀ m c r, x :: rest = m ++ (c ++ r) → ¬At m c) (hdiv : Divided (x :: rest))
    (hstart : ∀ M ∈ ms, (pre ++ x.text).length ≤ M.start)
    (h : Passed f At E σ (pre ++ x.text) rest ms rest') : Passed f At E σ pre (x :: rest) ms (x :: rest') where
  text := by
    have hx : textOf [x] = x.text := by simp
    rw [← hx] at h hstart
    exact h.copy hstart
  pass := by
    have hpass := h.pass
    rw [Reader.after_append] at hpass
    rw [tagged, tagged, region_alike _ x h.alike]
    refine .keep ?_ hpass
    simpa only [List.map_cons, map_piece_tagged] using hnot
  divided := by
    obtain ⟨hx, hap, _⟩ := divided_cons.mp hdiv
    exact divided_cons.mpr ⟨hx, h.alike.apart hap, h.divided⟩
  alike := .refl _

theorem Passed.skip {σ : Reader} {pre : List Char} {m c r rest' : List Piece} {ms : List Match}
    (hat : At m c) (hopens : ∃ w m₀, m = .word w :: m₀) (hdiv : Divided (m ++ (c ++ r)))
    (hσ : (σ.after pre).inCode = false) (hstart : ∀ M ∈ ms, (pre ++ textOf m).length ≤ M.start)
    (h : Passed f At E σ (pre ++ textOf m) (c ++ r) ms rest') :
    Passed f At E σ pre (m ++ (c ++ r)) ms (m ++ rest') where
  text := h.copy hstart
  pass := by
    obtain ⟨w, m₀, rfl⟩ := hopens
    obtain ⟨M, hM, htag⟩ := tagged_append (σ.after pre) (.word w :: m₀) (c ++ r)
    have hpass := h.pass
    rw [Reader.after_append] at hpass
    have hold := htag (c ++ r) (.refl _)
    rw [hold, htag rest' h.alike]
    obtain ⟨x, M₀, rfl⟩ : ∃ x M₀, M = x :: M₀ := by
      cases M with
      | nil => simp at hM
      | cons x M₀ => exact ⟨x, M₀, rfl⟩
    refine .skip (by rw [hM]; exact hat) (map_piece_tagged _ _) ?_ hpass
    have hx : x.region = (σ.after pre).region (.word w) ((m₀ ++ (c ++ r)).head?) := by
      have := congrArg List.head? hold
      simp only [List.cons_append, tagged, List.head?_cons, Option.some.injEq] at this
      rw [← this]
    intro hcode
    rw [hx, region_word] at hcode
    simp [hσ] at hcode
  divided := divided_append_alike hdiv (divided_append.mp hdiv).1 h.divided rfl h.alike
  alike := by
    obtain ⟨w, m₀, rfl⟩ := hopens
    exact .refl _

theorem Rewrites.change (hR : Rewrites p f At out E) {σ : Reader} {pre : List Char} {m c r rest' : List Piece}
    {M : Match} {ms : List Match} (hat : At m c)
    (hM : p.matchAt (pre ++ textOf (m ++ (c ++ r))).toArray pre.length = some M) (hstart : M.start = pre.length)
    (hstop : M.stop = pre.length + (textOf m).length) (hdiv : Divided (m ++ (c ++ r)))
    (hσ : (σ.after pre).inCode = true) (h : Passed f At E σ (pre ++ textOf m) (c ++ r) ms rest') :
    ∃ m', Passed f At E σ pre (m ++ (c ++ r)) (M :: ms) (m' ++ rest') := by
  obtain ⟨m', hout, hf⟩ := hR.writes hM (pieces_textOf hdiv) hat hstop
  have hdiv' := hR.out_divided hat hout (divided_append.mp hdiv).1
  obtain ⟨w, m₀, rfl⟩ := hR.opens hat
  obtain ⟨w', m₀', rfl⟩ := hR.out_opens hat hout
  refine ⟨.word w' :: m₀', ⟨?_, ?_, ?_, .inr ⟨w, w', rfl, rfl⟩⟩⟩
  · obtain ⟨news, hnews, hsplice⟩ := h.text
    have htext : pre ++ textOf (.word w :: m₀) ++ textOf (c ++ r) = pre ++ textOf (.word w :: m₀ ++ (c ++ r)) := by simp
    rw [htext] at hnews hsplice
    refine ⟨_, rewriteAll_cons hf hnews, ?_⟩
    rw [splice, hstop, ← List.length_append, hsplice, hstart]
    simp
  · obtain ⟨x, L, L', hL, hold, hnew, hE⟩ := hR.edits hσ hat hout hdiv hdiv' h.alike
    have hpass := h.pass
    rw [Reader.after_append] at hpass
    rw [hold, hnew]
    refine .change (by rw [hL]; exact hat) (map_piece_tagged _ _) ?_ hE hpass
    have hx : x.region = (σ.after pre).region (.word w) ((m₀ ++ (c ++ r)).head?) := by
      have := congrArg List.head? hold
      simp only [List.cons_append, tagged, List.head?_cons, Option.some.injEq] at this
      rw [← this]
    rw [hx, region_word]
    exact hσ
  · exact divided_append_alike hdiv hdiv' h.divided (hR.out_last hat hout) h.alike

/-- What a reader sees of a text can be passed over. -/
theorem Rewrites.passed (hR : Rewrites p f At out E) {σ : Reader} {pre : List Char} {rest : List Piece} {ms : List Match}
    (h : Visible p At σ pre rest ms) : ∃ rest', Passed f At E σ pre rest ms rest' := by
  induction h with
  | nil => exact ⟨[], ⟨[], rfl, by simp [splice]⟩, .nil, divided_pieces [], .refl _⟩
  | keep hdiv hnot hr ih =>
    obtain ⟨rest', h⟩ := ih
    exact ⟨_, h.keep hnot hdiv hr.start_le⟩
  | skip hdiv hat hσ hr ih =>
    obtain ⟨rest', h⟩ := ih
    exact ⟨_, h.skip hat (hR.opens hat) hdiv hσ hr.start_le⟩
  | hit hdiv hat hσ hM hstart hstop _ ih =>
    obtain ⟨rest', h⟩ := ih
    obtain ⟨m', h'⟩ := hR.change hat hM hstart hstop hdiv hσ h
    exact ⟨_, h'⟩

/-- A replacement in code is one pass over the lexemes of the text. -/
theorem Rewrites.replaceInCode (hR : Rewrites p f At out E) (s : List Char) (skipLiterals : Bool) :
    ∃ s' n, CadenceUplift.replaceInCode p f s skipLiterals = .ok ⟨s', n⟩ ∧
      n = (matchesOutside p s.toArray (skipIndex skipLiterals s)).length ∧
      Pass At E (tagged (readerFor skipLiterals) (pieces s)) (tagged (readerFor skipLiterals) (pieces s')) n := by
  obtain ⟨rest', h⟩ := hR.passed (hR.visible s skipLiterals)
  obtain ⟨news, hnews, hsplice⟩ := h.text
  have hs : [] ++ textOf (pieces s) = s := textOf_pieces s
  rw [hs] at hnews hsplice
  refine ⟨textOf rest', _, ?_, rfl, (pieces_textOf h.divided).symm ▸ h.pass⟩
  rw [CadenceUplift.replaceInCode, ← hsplice]
  change (rewriteAll f s.toArray (matchesOutside p s.toArray (skipIndex skipLiterals s)) >>= _) = _
  rw [hnews]
  rfl

end Passing

section Counting

variable {p : Pattern} {At : List Piece → List Piece → Prop} {State : Type} {B : Scanner State}

theorem hits_keep (hB : B.Finds At) {σ : Reader} {x : Piece} {r : List Piece} (hdiv : Divided (x :: r))
    (hnot : ∀ m c r', x :: r = m ++ (c ++ r') → ¬At m c) :
    hits B Lexeme.piece (tagged σ (x :: r)) = hits B Lexeme.piece (tagged (σ.after x.text) r) := by
  have hacc : B.accepts (x :: r) ≠ true := by
    intro hacc
    obtain ⟨m, c, r', heq, hat⟩ := hB.found hdiv hacc
    exact hnot m c r' heq hat
  rw [tagged, hits_cons, map_piece_tagged]
  simp [hacc]

theorem hits_hit (hB : B.Finds At) {σ : Reader} {m c r : List Piece} (hat : At m c) :
    hits B Lexeme.piece (tagged σ (m ++ (c ++ r))) =
      (if σ.inCode then 1 else 0) + hits B Lexeme.piece (tagged (σ.after (textOf m)) (c ++ r)) := by
  obtain ⟨w, m₀, rfl⟩ := hB.opens hat
  have hacc : B.accepts (.word w :: (m₀ ++ (c ++ r))) = true := hB.accepts hat r
  have hsil := hB.silent hat r
  obtain ⟨M, hM, htag⟩ := tagged_append (σ.after w) m₀ (c ++ r)
  have hrest := htag (c ++ r) (.refl _)
  rw [List.cons_append, tagged, hits_cons, map_piece_tagged]
  change _ + hits B Lexeme.piece (tagged (σ.after w) (m₀ ++ (c ++ r))) = _
  rw [hrest, hits_append (by rw [hM, map_piece_tagged]; exact hsil), textOf_cons, Reader.after_append]
  simp only [region_word, hacc, and_true]
  rfl

/-- What a reader sees of a pattern are the hits of a scanner for its construct. -/
theorem Visible.length_eq_hits (hB : B.Finds At) {σ : Reader} {pre : List Char} {rest : List Piece} {ms : List Match}
    (h : Visible p At σ pre rest ms) : ms.length = hits B Lexeme.piece (tagged (σ.after pre) rest) := by
  induction h with
  | nil => rfl
  | keep hdiv hnot _ ih => rw [hits_keep hB hdiv hnot, ih, Reader.after_append]
  | skip _ hat hσ _ ih => simp [hits_hit hB hat, hσ, ih, Reader.after_append]
  | hit _ hat hσ _ _ _ _ ih => simp [hits_hit hB hat, hσ, ih, Reader.after_append, Nat.add_comm]

/-- Matches outside literals are counted by scanning the lexemes of the text. -/
theorem Reads.length_matchesOutside (hR : Reads p At) (hB : B.Finds At) (s : List Char) (skipLiterals : Bool) :
    (matchesOutside p s.toArray (skipIndex skipLiterals s)).length =
      hits B Lexeme.piece (tagged (readerFor skipLiterals) (pieces s)) :=
  (hR.visible s skipLiterals).length_eq_hits hB

end Counting

end CadenceUplift
