import CadenceUplift.Proofs.Lexeme.Scanner
import CadenceUplift.Proofs.Text.Words

namespace CadenceUplift

open Text Scanner

/-- Where a scanner for a member of an account stands. -/
inductive MemberState where
  | account
  | dot
  | name
deriving DecidableEq, Repr

/-- How the scanner for a member goes on; `call` asks for type arguments or a bracket after it. -/
def memberStep (names : List (List Char)) (call : Bool) : MemberState → Piece → Progress MemberState
  | .account, .symbol c => if c = '.' then .go .dot else .fail
  | .dot, .word w => if names.contains w then if call then .go .name else .accept else .fail
  | .name, .blank _ => .go .name
  | .name, .symbol c => if c = '<' ∨ c = '(' then .accept else .fail
  | _, _ => .fail

/-- Scans one of the given members of an account. -/
def memberScanner (names : List (List Char)) (call : Bool) : Scanner MemberState where
  first := opensAmong [Word.account] .account
  step := memberStep names call

@[simp] theorem memberScanner_first (names : List (List Char)) (call : Bool) :
    (memberScanner names call).first = opensAmong [Word.account] .account := rfl

@[simp] theorem memberScanner_step (names : List (List Char)) (call : Bool) :
    (memberScanner names call).step = memberStep names call := rfl

attribute [local simp] memberStep

/-- The pieces of a member of an account. -/
def memberPieces (w : List Char) : List Piece := [.word Word.account, .symbol '.', .word w]

/-- What opens type arguments or brackets, perhaps after blanks. -/
def OpensCall (c : List Piece) : Prop := ∃ g d, IsGap g ∧ (d = '<' ∨ d = '(') ∧ c = g ++ [.symbol d]

/-- One of the given members of an account. -/
def MemberAt (names : List (List Char)) (call : Bool) (m c : List Piece) : Prop :=
  ∃ w ∈ names, m = memberPieces w ∧ if call then OpensCall c else c = []

theorem member_feed_account {names : List (List Char)} {call : Bool} {xs : List Piece} :
    (memberScanner names call).feed (.go .account) xs = .accept ↔
      ∃ r, xs = .symbol '.' :: r ∧ (memberScanner names call).feed (.go .dot) r = .accept := by
  have hother : ∀ x, x ≠ .symbol '.' → memberStep names call .account x = .fail := by
    intro x hx
    cases x <;> simp_all
  exact feed_expects hother

theorem member_feed_dot {names : List (List Char)} {call : Bool} {xs : List Piece} :
    (memberScanner names call).feed (.go .dot) xs = .accept ↔
      ∃ w r, xs = .word w :: r ∧ w ∈ names ∧
        (call = true → (memberScanner names call).feed (.go .name) r = .accept) := by
  constructor
  · intro h
    obtain ⟨x, r, rfl, hx⟩ := feed_go_eq_accept.mp h
    cases x with
    | blank g => simp at hx
    | symbol c => simp at hx
    | word w =>
      by_cases hw : w ∈ names
      · refine ⟨w, r, rfl, hw, ?_⟩
        rintro rfl
        simpa [hw] using hx
      · simp [hw] at hx
  · rintro ⟨w, r, rfl, hw, hcall⟩
    cases call with
    | false => simp [hw]
    | true => simpa [hw] using hcall rfl

theorem member_found_name {names : List (List Char)} {call : Bool} {xs : List Piece} (hxs : Divided xs)
    (h : (memberScanner names call).feed (.go .name) xs = .accept) : ∃ c r, xs = c ++ r ∧ OpensCall c := by
  obtain ⟨x, r, rfl, hx⟩ := feed_go_eq_accept.mp h
  cases x with
  | word w => simp at hx
  | symbol d =>
    refine ⟨[.symbol d], r, rfl, [], d, .inl rfl, ?_, rfl⟩
    by_contra hd
    simp [hd] at hx
  | blank g =>
    have hr : (memberScanner names call).feed (.go .name) r = .accept := hx
    obtain ⟨y, r₀, rfl, hy⟩ := feed_go_eq_accept.mp hr
    have hap := (divided_cons.mp hxs).2.1 y (by simp)
    cases y with
    | word w => simp at hy
    | blank g' => simp [Piece.Apart] at hap
    | symbol d =>
      refine ⟨[.blank g, .symbol d], r₀, rfl, [.blank g], d, .inr ⟨g, rfl⟩, ?_, rfl⟩
      by_contra hd
      simp [hd] at hy

theorem member_feed_call {names : List (List Char)} {call : Bool} {c : List Piece} (hc : OpensCall c)
    (r : List Piece) : (memberScanner names call).feed (.go .name) (c ++ r) = .accept := by
  obtain ⟨g, d, rfl | ⟨b, rfl⟩, hd, rfl⟩ := hc <;> simp [hd]

theorem member_first (names : List (List Char)) (call : Bool) :
    (memberScanner names call).first (.word Word.account) = some .account := by
  rw [memberScanner_first]
  exact opensAmong_eq_some.mpr ⟨_, List.mem_singleton.mpr rfl, rfl, rfl⟩

theorem member_found {names : List (List Char)} {call : Bool} {xs : List Piece} (hxs : Divided xs)
    (h : (memberScanner names call).accepts xs = true) :
    ∃ m c r, xs = m ++ (c ++ r) ∧ MemberAt names call m c := by
  cases xs with
  | nil => simp [accepts] at h
  | cons x r =>
    obtain ⟨q, hq, hr⟩ := accepts_cons.mp h
    obtain ⟨w, hw, rfl, rfl⟩ := opensAmong_eq_some.mp hq
    obtain rfl := List.mem_singleton.mp hw
    obtain ⟨r, rfl, hr⟩ := member_feed_account.mp hr
    obtain ⟨w, r, rfl, hw, hcall⟩ := member_feed_dot.mp hr
    cases call with
    | false => exact ⟨memberPieces w, [], r, rfl, w, hw, rfl, rfl⟩
    | true =>
      obtain ⟨c, r, rfl, hc⟩ := member_found_name hxs.tail.tail.tail (hcall rfl)
      exact ⟨memberPieces w, c, r, rfl, w, hw, rfl, hc⟩

/-- The members that are looked for must not be called like the account itself. -/
theorem member_finds {names : List (List Char)} (hn : Word.account ∉ names) (call : Bool) :
    (memberScanner names call).Finds (MemberAt names call) where
  opens := by
    rintro m c ⟨w, _, rfl, _⟩
    exact ⟨_, _, rfl⟩
  accepts := by
    rintro m c ⟨w, hw, rfl, hc⟩ r
    refine accepts_cons.mpr ⟨.account, member_first names call, member_feed_account.mpr ⟨_, rfl, ?_⟩⟩
    refine member_feed_dot.mpr ⟨w, c ++ r, rfl, hw, ?_⟩
    rintro rfl
    exact member_feed_call hc r
  found := member_found
  silent := by
    rintro x m c ⟨w, hw, hm, _⟩ r
    have hne : w ≠ Word.account := by
      rintro rfl
      exact hn hw
    have hm : m = (memberPieces w).tail := by rw [← hm]; rfl
    refine silent_of_first ?_
    intro y hy
    refine opensAmong_eq_none ?_
    intro v hv hyv
    rw [hyv, List.mem_singleton.mp hv, hm] at hy
    simp only [memberPieces, List.tail_cons, List.mem_cons, Piece.word.injEq, reduceCtorEq, false_or,
      List.not_mem_nil, or_false] at hy
    exact hne hy.symm

end CadenceUplift
