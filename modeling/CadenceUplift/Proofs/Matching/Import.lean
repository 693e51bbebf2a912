import CadenceUplift.Proofs.Construct.Import
import CadenceUplift.Proofs.Matching.Basic

namespace CadenceUplift

open Text Pattern

namespace Pattern

/-- So many characters of a set, one after another. -/
theorem mem_language_member_pow {cs : CharSet} {n : Nat} {u : List Char} :
    u ∈ (Pattern.member cs).language ^ n ↔ u.length = n ∧ ∀ c ∈ u, cs.holds c = true := by
  induction n generalizing u with
  | zero =>
    rw [pow_zero, Language.mem_one, List.length_eq_zero_iff]
    exact ⟨fun h => ⟨h, by simp [h]⟩, And.left⟩
  | succ n ih =>
    rw [pow_succ', Language.mem_mul]
    constructor
    · rintro ⟨_, ⟨c, hc, rfl⟩, v, hv, rfl⟩
      obtain ⟨hlength, hall⟩ := ih.mp hv
      simpa [hlength, hc] using hall
    · rintro ⟨hlength, hall⟩
      obtain ⟨c, v, rfl⟩ := List.exists_cons_of_length_eq_add_one hlength
      obtain ⟨hc, hv⟩ := List.forall_mem_cons.mp hall
      exact ⟨[c], ⟨c, hc, rfl⟩, v, ih.mpr ⟨by simpa using hlength, hv⟩, rfl⟩

theorem mem_language_exactly {cs : CharSet} {n : Nat} {greedy : Bool} {u : List Char} :
    u ∈ (Pattern.loop (.member cs) n (some n) greedy).language ↔ u.length = n ∧ ∀ c ∈ u, cs.holds c = true := by
  rw [mem_language_loop, ← mem_language_member_pow]
  constructor
  · rintro ⟨k, hle, hge, hu⟩
    rwa [Nat.le_antisymm hle (hge n rfl)]
  · intro hu
    exact ⟨n, Nat.le_refl n, fun _ h => (Option.some.inj h).le, hu⟩

end Pattern

/-- The pattern of an import between its edges. -/
def importRest : List Pattern :=
  Word.importing.map .char ++ (many1 blank :: .member { items := [.range 'A' 'Z'] } :: many word :: many1 blank ::
    (Word.source.map .char ++ (many1 blank :: (['0', 'x'].map .char ++ [.loop Legacy.hexDigit 16 (some 16) true]))))

theorem import_eq : Legacy.importFromAddress = all (edge :: (importRest ++ [edge])) := rfl

theorem importRest_textual : (all importRest).isTextual = true := rfl

theorem isHex_eq (c : Char) :
    ({ items := [.range 'a' 'f', .range 'A' 'F', .range '0' '9'] } : CharSet).holds c = isHex c := by
  rw [Bool.eq_iff_iff]
  simp [CharSet.holds, CharItem.holds, isHex, Char.isDigit, Char.le_def]
  tauto

theorem isWord_of_isHex {c : Char} (h : isHex c = true) : isWord c = true := by
  rw [← isHex_eq] at h
  simp only [CharSet.holds, CharItem.holds, List.any_cons, List.any_nil, Bool.or_false, Bool.or_eq_true,
    Bool.and_eq_true, decide_eq_true_eq, bne_iff_ne, ne_eq, Bool.not_eq_false] at h
  rcases h with ⟨hlow, hhigh⟩ | ⟨hlow, hhigh⟩ | hdigit
  · have hle : 'f' ≤ 'z' := by decide
    exact isWord_of_lower ⟨hlow, Char.le_trans hhigh hle⟩
  · have hle : 'F' ≤ 'Z' := by decide
    exact isWord_of_upper ⟨hlow, Char.le_trans hhigh hle⟩
  · exact isWord_of_digit hdigit

theorem isCapitalised_iff {u : List Char} : isCapitalised u = true ∧ (Piece.word u).Valid ↔
    ∃ c v, u = c :: v ∧ ('A' ≤ c ∧ c ≤ 'Z') ∧ ∀ d ∈ v, isWord d = true := by
  cases u with
  | nil => simp [isCapitalised]
  | cons c v =>
    have hvalid : (Piece.word (c :: v)).Valid ↔ isWord c = true ∧ ∀ d ∈ v, isWord d = true := by
      simp [Piece.Valid]
    rw [hvalid]
    simp only [isCapitalised, Bool.and_eq_true, decide_eq_true_eq, List.cons.injEq]
    constructor
    · rintro ⟨hc, _, hv⟩
      exact ⟨c, v, ⟨rfl, rfl⟩, hc, hv⟩
    · rintro ⟨_, _, ⟨rfl, rfl⟩, hc, hv⟩
      exact ⟨hc, isWord_of_upper hc, hv⟩

theorem isAddress_iff {u : List Char} :
    isAddress u = true ↔ ∃ ds, u = '0' :: 'x' :: ds ∧ ds.length = 16 ∧ ∀ c ∈ ds, isHex c = true := by
  simp only [isAddress, Bool.and_eq_true, beq_iff_eq, List.all_eq_true, and_assoc]
  constructor
  · rintro ⟨hopen, hlength, hall⟩
    have hsplit := List.take_append_drop 2 u
    rw [hopen] at hsplit
    exact ⟨u.drop 2, hsplit.symm, hlength, hall⟩
  · rintro ⟨ds, rfl, hlength, hall⟩
    exact ⟨rfl, hlength, hall⟩

theorem isAddress_valid {u : List Char} (h : isAddress u = true) : (Piece.word u).Valid := by
  obtain ⟨ds, rfl, _, hall⟩ := isAddress_iff.mp h
  refine ⟨by simp, ?_⟩
  intro c hc
  simp only [List.mem_cons] at hc
  rcases hc with rfl | rfl | hc
  · decide
  · decide
  · exact isWord_of_isHex (hall c hc)

theorem mem_language_import {u : List Char} :
    u ∈ (all importRest).language ↔
      ∃ a name b d address, u = Word.importing ++ (a ++ (name ++ (b ++ (Word.source ++ (d ++ address))))) ∧
        (Piece.blank a).Valid ∧ (isCapitalised name = true ∧ (Piece.word name).Valid) ∧ (Piece.blank b).Valid ∧
        (Piece.blank d).Valid ∧ isAddress address = true := by
  have hupper (c : Char) : ({ items := [.range 'A' 'Z'] } : CharSet).holds c = true ↔ 'A' ≤ c ∧ c ≤ 'Z' := by
    simp [CharSet.holds, CharItem.holds]
  simp only [importRest, mem_language_all_append, mem_language_all_cons, mem_language_chars, mem_language_many1_blank,
    mem_language_member, hupper, mem_language_many_word, mem_language_all_nil, Legacy.hexDigit, mem_language_exactly,
    isHex_eq, isCapitalised_iff, isAddress_iff]
  constructor
  · rintro ⟨_, _, rfl, rfl, a, _, rfl, ha, _, _, rfl, ⟨c, hc, rfl⟩, v, _, rfl, hv, b, _, rfl, hb, _, _, rfl, rfl,
      d, _, rfl, hd, _, _, rfl, rfl, ds, _, rfl, ⟨hlength, hall⟩, rfl⟩
    exact ⟨a, c :: v, b, d, '0' :: 'x' :: ds, by simp, ha, ⟨c, v, rfl, hc, hv⟩, hb, hd, ds, rfl, hlength, hall⟩
  · rintro ⟨a, _, b, d, _, rfl, ha, ⟨c, v, rfl, hc, hv⟩, hb, hd, ds, rfl, hlength, hall⟩
    exact ⟨_, _, rfl, rfl, a, _, rfl, ha, [c], _, rfl, ⟨c, hc, rfl⟩, v, _, rfl, hv, b, _, rfl, hb, _, _, rfl, rfl,
      d, _, rfl, hd,
      ['0', 'x'], ds ++ [], by simp, rfl, ds, [], rfl, ⟨hlength, hall⟩, rfl⟩

theorem import_edges {x : List Char} (h : x ∈ (all importRest).language) (a r : List Char) :
    startsWord (x ++ r) = true ∧ endsWord (a ++ x) = true := by
  obtain ⟨b₁, name, b₂, b₃, address, rfl, _, _, _, _, haddress⟩ := mem_language_import.mp h
  refine ⟨rfl, ?_⟩
  have hends := (isAddress_valid haddress).endsWord
    (a ++ (Word.importing ++ (b₁ ++ (name ++ (b₂ ++ (Word.source ++ b₃))))))
  simpa using hends

/-- Where the pattern of imports gets to. -/
theorem reach_import {a u : List Char} {cs : List Capture} {e : Place} :
    Reach (a ++ u).toArray Legacy.importFromAddress ⟨a.length, cs⟩ e ↔
      endsWord a = false ∧ ∃ x r, u = x ++ r ∧ x ∈ (all importRest).language ∧ startsWord r = false ∧
        e = ⟨(a ++ x).length, cs⟩ := by
  rw [import_eq, reach_edge_cons, reach_all_append]
  simp only [reach_textual importRest_textual, reach_all_singleton]
  constructor
  · rintro ⟨hedge, _, ⟨x, r, rfl, hx, rfl⟩, hbehind⟩
    obtain ⟨hstart, hend⟩ := import_edges hx a r
    rw [← List.append_assoc, reach_edge_behind, hend] at hbehind
    rw [hstart] at hedge
    exact ⟨by simpa using hedge, x, r, rfl, hx, by simpa using hbehind.1.symm, hbehind.2⟩
  · rintro ⟨ha, x, r, rfl, hx, hr, rfl⟩
    obtain ⟨hstart, hend⟩ := import_edges hx a r
    refine ⟨by simp [ha, hstart], _, ⟨x, r, rfl, hx, rfl⟩, ?_⟩
    rw [← List.append_assoc, reach_edge_behind, hend, hr]
    exact ⟨by simp, rfl⟩

theorem import_divided {a name b d address : List Char} (ha : (Piece.blank a).Valid) (hname : (Piece.word name).Valid)
    (hb : (Piece.blank b).Valid) (hd : (Piece.blank d).Valid) (haddress : (Piece.word address).Valid) :
    Divided [.word Word.importing, .blank a, .word name, .blank b, .word Word.source, .blank d, .word address] := by
  have himport : (Piece.word Word.importing).Valid := by decide
  have hsource : (Piece.word Word.source).Valid := by decide
  have hnil : Divided [] := divided_pieces []
  simp [divided_cons, Piece.Apart, himport, hsource, ha, hname, hb, hd, haddress, hnil]

theorem import_reads : Reads Legacy.importFromAddress ImportAt := by
  refine .of_reach rfl rfl import_finds.opens ?_ ?_
  · intro a u e h
    obtain ⟨ha, x, r, rfl, hx, hr, rfl⟩ := reach_import.mp h
    obtain ⟨b₁, name, b₂, b₃, address, rfl, h₁, ⟨hcap, hname⟩, h₂, h₃, haddress⟩ := mem_language_import.mp hx
    have hpieces := pieces_textOf_append (import_divided h₁ hname h₂ h₃ (isAddress_valid haddress)) (s := r)
      (by simpa using apart_word_pieces hr address)
    refine ⟨ha, _, [], pieces r, ?_, ⟨rfl, b₁, name, b₂, b₃, address, hcap, haddress, rfl⟩, ?_⟩
    · simpa [Piece.text] using hpieces
    · simp [Piece.text]
  · rintro a m c r ha hdiv ⟨rfl, b₁, name, b₂, b₃, address, hcap, haddress, rfl⟩
    have hvalid := (divided_append.mp hdiv).1.valid
    have hlast : Divided (.word address :: r) := hdiv.tail.tail.tail.tail.tail.tail
    have hr := hlast.startsWord_tail
    have hx : Word.importing ++ (b₁ ++ (name ++ (b₂ ++ (Word.source ++ (b₃ ++ address))))) ∈
        (all importRest).language :=
      mem_language_import.mpr ⟨b₁, name, b₂, b₃, address, rfl, hvalid _ (by simp), ⟨hcap, hvalid _ (by simp)⟩,
        hvalid _ (by simp), hvalid _ (by simp), haddress⟩
    exact ⟨_, reach_import.mpr ⟨ha, _, textOf r, by simp [Piece.text], hx, hr, rfl⟩⟩

end CadenceUplift
