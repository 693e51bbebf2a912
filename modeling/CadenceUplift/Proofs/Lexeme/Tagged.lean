import CadenceUplift.Proofs.Lexeme.Scanner
import CadenceUplift.Proofs.Literal.Reader

namespace CadenceUplift

open Text

/-- Nothing more stands on the line. -/
def endsLine : Option Piece → Bool
  | none => true
  | some (.blank b) => b.head? == some '\n'
  | some _ => false

namespace Reader

/-- The region of a piece, given the one that follows it. -/
def region (σ : Reader) (x : Piece) (following : Option Piece) : Region :=
  match σ with
  | .off => .code
  | .code =>
    if x = .symbol '"' then .quote
    else if x = .symbol '/' ∧ (following = some (.symbol '/') ∨ following = some (.symbol '*')) then .comment
    else .code
  | .slash =>
    if x = .symbol '"' then .quote
    else if x = .symbol '/' ∨ x = .symbol '*' then .comment
    else .code
  | .line | .block _ | .blockSlash _ | .blockStar _ => .comment
  | .string => if x = .symbol '"' then .quote else .string
  | .escape =>
    if x = .symbol '"' ∧ endsLine following = true then .quote else .string

end Reader

/-- Pieces with their regions. -/
def tagged : Reader → List Piece → List Lexeme
  | _, [] => []
  | σ, x :: r => ⟨x, σ.region x r.head?⟩ :: tagged (σ.after x.text) r

/-- A piece that neither opens nor closes a literal in code. -/
def Plain (x : Piece) : Prop := x ≠ .symbol '/' ∧ x ≠ .symbol '*' ∧ x ≠ .symbol '"'

theorem map_piece_tagged (σ : Reader) (xs : List Piece) : (tagged σ xs).map Lexeme.piece = xs := by
  induction xs generalizing σ with
  | nil => rfl
  | cons x xs ih => simp [tagged, ih]

theorem region_word (σ : Reader) (w : List Char) (f : Option Piece) :
    σ.region (.word w) f = .code ↔ σ.inCode = true := by
  cases σ <;> simp [Reader.region, Reader.inCode]

theorem region_plain {σ : Reader} (hσ : σ.inCode = true) {x : Piece} (hx : Plain x) (f : Option Piece) :
    σ.region x f = .code := by
  obtain ⟨h₁, h₂, h₃⟩ := hx
  cases σ <;> simp_all [Reader.region, Reader.inCode]

theorem next_blank {c : Char} (hc : isBlank c = true) {σ : Reader} (hσ : σ.inCode = true) : σ.next c = σ.settle := by
  have hslash : c ≠ '/' := by rintro rfl; exact absurd hc (by decide)
  have hstar : c ≠ '*' := by rintro rfl; exact absurd hc (by decide)
  have hquote : c ≠ '"' := by rintro rfl; exact absurd hc (by decide)
  cases σ <;> simp_all [Reader.settle, Reader.next, Reader.codeNext, Reader.inCode]

theorem textOf_ne_nil {ps : List Piece} (hps : ∀ x ∈ ps, x.Valid) (hne : ps ≠ []) : textOf ps ≠ [] := by
  obtain ⟨x, ps, rfl⟩ := List.exists_cons_of_ne_nil hne
  rw [textOf_cons]
  exact List.append_ne_nil_of_left_ne_nil (hps x List.mem_cons_self).text_ne_nil _

theorem next_plain {σ : Reader} (hσ : σ.inCode = true) {x : Piece} (hx : Plain x) (hv : x.Valid) :
    ∀ c ∈ x.text, σ.next c = σ.settle := by
  cases x with
  | word w => exact fun c hc => next_quiet (quiet_of_isWord (hv.2 c hc)) σ
  | blank b => exact fun c hc => next_blank (hv.2 c hc) hσ
  | symbol c =>
    obtain ⟨h₁, h₂, h₃⟩ := hx
    have h₁ : c ≠ '/' := fun h => h₁ (by rw [h])
    have h₂ : c ≠ '*' := fun h => h₂ (by rw [h])
    have h₃ : c ≠ '"' := fun h => h₃ (by rw [h])
    cases σ <;> simp_all [Piece.text, Reader.settle, Reader.next, Reader.codeNext, Reader.inCode]

theorem next_plains {σ : Reader} (hσ : σ.inCode = true) {ps : List Piece} (hps : ∀ x ∈ ps, Plain x ∧ x.Valid) :
    ∀ c ∈ textOf ps, σ.next c = σ.settle := by
  intro c hc
  obtain ⟨x, hx, hcx⟩ := List.mem_flatMap.mp hc
  obtain ⟨hplain, hvalid⟩ := hps x hx
  exact next_plain hσ hplain hvalid c hcx

theorem after_plains {σ : Reader} (hσ : σ.inCode = true) {ps : List Piece} (hps : ∀ x ∈ ps, Plain x ∧ x.Valid)
    (hne : ps ≠ []) : σ.after (textOf ps) = σ.settle := by
  have hσ' : σ.settle.inCode = true := by rw [Reader.inCode_settle, hσ]
  refine after_eq_settle (textOf_ne_nil (fun x hx => (hps x hx).2) hne) fun c hc => ⟨next_plains hσ hps c hc, ?_⟩
  rw [next_plains hσ' hps c hc, Reader.settle_settle]

theorem plains_stay {ps : List Piece} (hps : ∀ x ∈ ps, Plain x ∧ x.Valid) :
    ∀ c ∈ textOf ps, ∀ τ : Reader, τ.inCode = true → (τ.next c).inCode = true := by
  intro c hc τ hτ
  rw [next_plains hτ hps c hc, Reader.inCode_settle, hτ]

/-- Pieces of one region, each of which the reader settles behind. -/
theorem tagged_settled {σ : Reader} {g : Region} {ps : List Piece} (hne : ps ≠ [])
    (h : ∀ x ∈ ps, ∀ τ : Reader, τ.settle = σ.settle → τ.after x.text = σ.settle ∧ ∀ f, τ.region x f = g)
    (ys : List Piece) : tagged σ (ps ++ ys) = ps.map (⟨·, g⟩) ++ tagged σ.settle ys := by
  induction ps generalizing σ with
  | nil => exact absurd rfl hne
  | cons x ps ih =>
    obtain ⟨hafter, hregion⟩ := h x List.mem_cons_self σ rfl
    rw [List.cons_append, tagged, hregion, hafter]
    cases ps with
    | nil => rfl
    | cons y ps =>
      rw [ih (List.cons_ne_nil y ps), Reader.settle_settle]
      · rfl
      · rw [Reader.settle_settle]
        exact fun z hz => h z (List.mem_cons_of_mem x hz)

/-- Plain pieces in code are in code, and the reader is settled behind them. -/
theorem tagged_plain {σ : Reader} (hσ : σ.inCode = true) {ps : List Piece} (hps : ∀ x ∈ ps, Plain x ∧ x.Valid)
    (hne : ps ≠ []) (ys : List Piece) : tagged σ (ps ++ ys) = inCode ps ++ tagged σ.settle ys := by
  refine tagged_settled hne ?_ ys
  intro x hx τ hτ
  have hcode : τ.inCode = true := by rw [← Reader.inCode_settle, hτ, Reader.inCode_settle, hσ]
  have hafter : τ.after (textOf [x]) = τ.settle :=
    after_plains hcode (by simpa using hps x hx) (List.cons_ne_nil x [])
  rw [textOf_cons, textOf_nil, List.append_nil, hτ] at hafter
  exact ⟨hafter, region_plain hcode (hps x hx).1⟩

/-- A piece that neither opens nor closes a literal anywhere. -/
def Inert (x : Piece) : Prop := (∃ w, x = .word w) ∨ x = .symbol ')' ∨ ∃ b, x = .blank b ∧ '\n' ∉ b

/-- The region of inert pieces. -/
def Reader.ground : Reader → Region
  | .off | .code | .slash => .code
  | .line | .block _ | .blockSlash _ | .blockStar _ => .comment
  | .string | .escape => .string

theorem Reader.ground_settle (σ : Reader) : σ.settle.ground = σ.ground := by
  cases σ <;> rfl

theorem region_inert {x : Piece} (hx : Inert x) (σ : Reader) (f : Option Piece) : σ.region x f = σ.ground := by
  obtain ⟨w, rfl⟩ | rfl | ⟨b, rfl, _⟩ := hx <;> cases σ <;> simp [Reader.region, Reader.ground]

theorem Inert.quiet {x : Piece} (hx : Inert x) (hv : x.Valid) : ∀ c ∈ x.text, Quiet c := by
  obtain ⟨w, rfl⟩ | rfl | ⟨b, rfl, hb⟩ := hx
  · exact fun c hc => quiet_of_isWord (hv.2 c hc)
  · simp [Piece.text, Quiet]
  · intro c hc
    have hline : c ≠ '\n' := fun h => hb (h ▸ hc)
    have hblank : (isBlank c && c != '\n') = true := by simp [hv.2 c hc, hline]
    exact quiet_of (p := fun c => isBlank c && c != '\n') (by decide) hblank

theorem after_inerts {ps : List Piece} (hps : ∀ x ∈ ps, Inert x ∧ x.Valid) (hne : ps ≠ []) (σ : Reader) :
    σ.after (textOf ps) = σ.settle := by
  refine after_quiet (textOf_ne_nil (fun x hx => (hps x hx).2) hne) ?_ σ
  intro c hc
  obtain ⟨x, hx, hcx⟩ := List.mem_flatMap.mp hc
  exact (hps x hx).1.quiet (hps x hx).2 c hcx

/-- Inert pieces are all of one region, and the reader is settled behind them. -/
theorem tagged_inert {ps : List Piece} (hps : ∀ x ∈ ps, Inert x ∧ x.Valid) (hne : ps ≠ []) (σ : Reader)
    (ys : List Piece) : tagged σ (ps ++ ys) = ps.map (⟨·, σ.ground⟩) ++ tagged σ.settle ys := by
  refine tagged_settled hne ?_ ys
  intro x hx τ hτ
  obtain ⟨hinert, hvalid⟩ := hps x hx
  have hground : τ.ground = σ.ground := by rw [← Reader.ground_settle, hτ, Reader.ground_settle]
  rw [after_quiet hvalid.text_ne_nil (hinert.quiet hvalid), ← hground]
  exact ⟨hτ, region_inert hinert τ⟩

/-- What comes next is the same, or a word in both cases. -/
def Alike (x y : Option Piece) : Prop := x = y ∨ ∃ w v, x = some (.word w) ∧ y = some (.word v)

theorem Alike.refl (x : Option Piece) : Alike x x := .inl rfl

theorem Alike.symm {x y : Option Piece} (h : Alike x y) : Alike y x := by
  obtain rfl | ⟨w, v, rfl, rfl⟩ := h
  · exact .inl rfl
  · exact .inr ⟨v, w, rfl, rfl⟩

theorem region_alike (σ : Reader) (x : Piece) {f g : Option Piece} (h : Alike f g) :
    σ.region x f = σ.region x g := by
  obtain rfl | ⟨w, v, rfl, rfl⟩ := h
  · rfl
  · cases σ <;> simp [Reader.region, endsLine]

theorem head?_append_alike (xs : List Piece) {ys zs : List Piece} (h : Alike ys.head? zs.head?) :
    Alike (xs ++ ys).head? (xs ++ zs).head? := by
  cases xs with
  | nil => exact h
  | cons x xs => exact .refl _

/-- The regions of pieces do not depend on what comes after them, but for the kind of the next piece. -/
theorem tagged_append (σ : Reader) (xs ys : List Piece) :
    ∃ m, m.map Lexeme.piece = xs ∧
      ∀ zs, Alike ys.head? zs.head? → tagged σ (xs ++ zs) = m ++ tagged (σ.after (textOf xs)) zs := by
  induction xs generalizing σ with
  | nil => exact ⟨[], rfl, fun zs _ => rfl⟩
  | cons x xs ih =>
    obtain ⟨m, hm, htag⟩ := ih (σ.after x.text)
    refine ⟨⟨x, σ.region x (xs ++ ys).head?⟩ :: m, by simp [hm], ?_⟩
    intro zs hz
    rw [List.cons_append, tagged, htag zs hz, region_alike σ x (head?_append_alike xs hz).symm]
    simp

end CadenceUplift
