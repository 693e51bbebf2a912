import CadenceUplift.Number.Whole
import CadenceUplift.Proofs.Construct.Edits

namespace CadenceUplift

open Text Scanner

/-- A name that opens with a capital letter. -/
def isCapitalised : List Char → Bool
  | [] => false
  | c :: _ => 'A' ≤ c && c ≤ 'Z'

/-- An address of sixteen digits. -/
def isAddress (w : List Char) : Bool :=
  w.take 2 == ['0', 'x'] && (w.drop 2).length == 16 && (w.drop 2).all isHex

/-- An import of a capitalised name from an address. -/
def ImportAt (m c : List Piece) : Prop :=
  c = [] ∧ ∃ a name b d address, isCapitalised name = true ∧ isAddress address = true ∧
    m = [.word Word.importing, .blank a, .word name, .blank b, .word Word.source, .blank d, .word address]

/-- Where a scanner for imports stands. -/
inductive ImportState where
  | opener
  | gap
  | name
  | named
  | source
  | address
deriving DecidableEq, Repr

/-- How the scanner for imports goes on. -/
def importStep : ImportState → Piece → Progress ImportState
  | .opener, .blank _ => .go .gap
  | .gap, .word w => if isCapitalised w then .go .name else .fail
  | .name, .blank _ => .go .named
  | .named, .word w => if w = Word.source then .go .source else .fail
  | .source, .blank _ => .go .address
  | .address, .word w => if isAddress w then .accept else .fail
  | _, _ => .fail

/-- Scans an import from an address. -/
def importScanner : Scanner ImportState where
  first := opensAmong [Word.importing] .opener
  step := importStep

@[simp] theorem importScanner_first : importScanner.first = opensAmong [Word.importing] .opener := rfl

@[simp] theorem importScanner_step : importScanner.step = importStep := rfl

section Finding

variable {xs : List Piece}

/-- A state that waits for blanks. -/
theorem import_feed_blank {q q' : ImportState} (hblank : ∀ b, importStep q (.blank b) = .go q')
    (hword : ∀ w, importStep q (.word w) = .fail) (hsymbol : ∀ c, importStep q (.symbol c) = .fail)
    (h : importScanner.feed (.go q) xs = .accept) :
    ∃ b r, xs = .blank b :: r ∧ importScanner.feed (.go q') r = .accept := by
  obtain ⟨x, r, rfl, hx⟩ := feed_go_eq_accept.mp h
  rw [importScanner_step] at hx
  cases x with
  | word w => simp [hword] at hx
  | symbol c => simp [hsymbol] at hx
  | blank b => exact ⟨b, r, rfl, by rwa [hblank] at hx⟩

/-- A state that waits for a word of some kind. -/
theorem import_feed_word {q : ImportState} {p : List Char → Bool} {v : Progress ImportState}
    (hword : ∀ w, importStep q (.word w) = if p w then v else .fail)
    (hblank : ∀ b, importStep q (.blank b) = .fail) (hsymbol : ∀ c, importStep q (.symbol c) = .fail)
    (h : importScanner.feed (.go q) xs = .accept) :
    ∃ w r, xs = .word w :: r ∧ p w = true ∧ importScanner.feed v r = .accept := by
  obtain ⟨x, r, rfl, hx⟩ := feed_go_eq_accept.mp h
  rw [importScanner_step] at hx
  cases x with
  | blank b => simp [hblank] at hx
  | symbol c => simp [hsymbol] at hx
  | word w =>
    rw [hword] at hx
    cases hp : p w with
    | false => simp [hp] at hx
    | true => exact ⟨w, r, rfl, hp, by simpa [hp] using hx⟩

theorem import_found (h : importScanner.accepts xs = true) : ∃ m c r, xs = m ++ (c ++ r) ∧ ImportAt m c := by
  cases xs with
  | nil => simp [accepts] at h
  | cons x xs =>
    obtain ⟨q, hq, h₀⟩ := accepts_cons.mp h
    obtain ⟨w, hw, rfl, rfl⟩ := opensAmong_eq_some.mp hq
    obtain rfl := List.mem_singleton.mp hw
    obtain ⟨a, r, rfl, h₁⟩ := import_feed_blank (fun _ => rfl) (fun _ => rfl) (fun _ => rfl) h₀
    obtain ⟨name, r, rfl, hname, h₂⟩ :=
      import_feed_word (p := isCapitalised) (fun _ => rfl) (fun _ => rfl) (fun _ => rfl) h₁
    obtain ⟨b, r, rfl, h₃⟩ := import_feed_blank (fun _ => rfl) (fun _ => rfl) (fun _ => rfl) h₂
    obtain ⟨source, r, rfl, hsource, h₄⟩ :=
      import_feed_word (p := (· == Word.source)) (v := .go .source) (by simp [importStep]) (fun _ => rfl)
        (fun _ => rfl) h₃
    obtain ⟨d, r, rfl, h₅⟩ := import_feed_blank (fun _ => rfl) (fun _ => rfl) (fun _ => rfl) h₄
    obtain ⟨address, r, rfl, haddress, _⟩ :=
      import_feed_word (p := isAddress) (fun _ => rfl) (fun _ => rfl) (fun _ => rfl) h₅
    obtain rfl : source = Word.source := by simpa using hsource
    exact ⟨_, [], r, rfl, rfl, a, name, b, d, address, hname, haddress, rfl⟩

theorem capitalised_ne {w : List Char} (h : isCapitalised w = true) : w ≠ Word.importing := by
  rintro rfl
  exact absurd h (by decide)

theorem address_ne {w : List Char} (h : isAddress w = true) : w ≠ Word.importing := by
  rintro rfl
  exact absurd h (by decide)

theorem import_finds : importScanner.Finds ImportAt where
  opens := by
    rintro m c ⟨_, a, name, b, d, address, _, _, rfl⟩
    exact ⟨_, _, rfl⟩
  accepts := by
    rintro m c ⟨rfl, a, name, b, d, address, hname, haddress, rfl⟩ r
    simp [accepts, importStep, opensAmong, hname, haddress, Progress.isAccept]
  found _ := import_found
  silent := by
    rintro x m c ⟨rfl, a, name, b, d, address, hname, haddress, hm⟩ r
    obtain ⟨-, rfl⟩ := List.cons.inj hm
    have hsource : Word.importing ≠ Word.source := by decide
    exact silent_of_words importScanner_first
      (by simp [(capitalised_ne hname).symm, (address_ne haddress).symm, hsource]) _

end Finding

section Edits

theorem import_heedless : Heedless importScanner where
  first_blank _ := rfl
  first_symbol _ := rfl
  step_blank q b := by cases q <;> simp [importStep]
  step_mark q d hd := by rcases hd with rfl | rfl <;> cases q <;> simp [importStep]

/-- Only certain words are part of an import. -/
theorem import_stops {w : List Char} (hw : isCapitalised w = false ∧ w ≠ Word.source ∧ isAddress w = false) :
    importScanner.Stops (.word w) := by
  intro q
  cases q <;> simp [importStep, hw]

/-- Rewrites leave the imports as they are. -/
theorem import_hits_edited (t : Target) {ts ts' : List Lexeme} {n : Nat} (h : Edited t.Edit ts ts' n) :
    hits importScanner Lexeme.piece ts = hits importScanner Lexeme.piece ts' := by
  have hsees : SeesCode Lexeme.piece := fun _ => rfl
  cases t with
  | keyword b =>
    have hblocked : Blocked importScanner Lexeme.piece (KeywordEdit b) := by
      refine blocked_of_stops hsees ?_
      rintro ps _ c hat rfl
      obtain ⟨r, rfl⟩ := keywordAt_cons hat
      exact ⟨_, r, _, _, rfl, rfl, import_stops (by decide), import_stops (by decide)⟩
    refine hits_edited hsees hblocked.unseen ?_ ?_ h
    · rintro ps _ c hat rfl r
      exact silent_of_words importScanner_first (keywordAt_words hat (by cases b <;> decide)) _
    · rintro ps _ c _ rfl r
      exact silent_of_words importScanner_first (by decide) r
  | member a =>
    have hstops : importScanner.Stops (.word Word.account) := import_stops (by decide)
    have hblocked : Blocked importScanner Lexeme.piece (MemberEdit a.name a.isCall a.path) := by
      refine blocked_of_stops hsees ?_
      rintro ps _ c hat rfl
      obtain ⟨r, rfl⟩ := memberAt_cons hat
      exact ⟨_, r, _, _, rfl, rfl, hstops, hstops⟩
    refine hits_edited hsees hblocked.unseen ?_ ?_ h
    · rintro ps _ c ⟨w, hw, rfl, _⟩ rfl r
      rw [List.mem_singleton.mp hw]
      exact silent_of_words importScanner_first (by cases a <;> decide) _
    · rintro ps _ c _ rfl r
      exact silent_of_words importScanner_first (by cases a <;> decide) r
  | conformance => exact import_heedless.hits_edited hsees h

end Edits

end CadenceUplift
