import CadenceUplift.Text.Utf8
import Mathlib.Data.List.Basic
import Mathlib.Tactic.SplitIfs

namespace CadenceUplift.Text

def Begun.next (p : Begun) (b : UInt8) : Begun :=
  { p with bits := p.bits * 64 + (b.toNat - 0x80), read := p.read + 1, owed := p.owed - 1, low := 0x80, high := 0xbf }

/-- The octets that complete a character begun, and its code. -/
inductive Begun.Completed : Begun → List UInt8 → Nat → Prop
  | last {p : Begun} {b : UInt8} : p.owed ≤ 1 → p.low ≤ b.toNat → b.toNat ≤ p.high →
      Completed p [b] (p.bits * 64 + (b.toNat - 0x80))
  | more {p : Begun} {b : UInt8} {tail : List UInt8} {n : Nat} : 1 < p.owed → p.low ≤ b.toNat → b.toNat ≤ p.high →
      Completed (p.next b) tail n → Completed p (b :: tail) n

/-- A character that is completed is read, and decoding goes on behind it. -/
theorem Begun.Completed.decodeFrom_append {p : Begun} {tail : List UInt8} {n : Nat} (h : p.Completed tail n) (i : Nat)
    (r : List UInt8) :
    decodeFrom i (some p) (tail ++ r) = (decodeFrom (i + tail.length) none r).map (Char.ofNat n :: ·) := by
  induction h generalizing i with
  | last howed hlow hhigh =>
    rw [List.singleton_append, decodeFrom, if_pos ⟨hlow, hhigh⟩, if_pos howed]
    rfl
  | @more p b tail n howed hlow hhigh _ ih =>
    have hrest := ih (i + 1)
    rw [List.cons_append, decodeFrom, if_pos ⟨hlow, hhigh⟩, if_neg (by omega), List.length_cons,
      Nat.add_comm tail.length, ← Nat.add_assoc]
    exact hrest

/-- Decoding goes behind a character begun only if it is completed. -/
theorem exists_completed {p : Begun} {bytes : List UInt8} {i : Nat} {s : List Char}
    (h : decodeFrom i (some p) bytes = .ok s) :
    ∃ tail r n s', bytes = tail ++ r ∧ p.Completed tail n ∧ decodeFrom (i + tail.length) none r = .ok s' ∧
      s = Char.ofNat n :: s' := by
  induction bytes generalizing p i with
  | nil =>
    rw [decodeFrom] at h
    cases h
  | cons b bytes ih =>
    rw [decodeFrom] at h
    split at h
    next hbounds =>
      simp only at h
      split at h
      next howed =>
        cases hrest : decodeFrom (i + 1) none bytes with
        | error e =>
          rw [hrest] at h
          cases h
        | ok s' =>
          rw [hrest] at h
          cases h
          exact ⟨[b], bytes, _, s', rfl, .last howed hbounds.1 hbounds.2, hrest, rfl⟩
      next howed =>
        obtain ⟨tail, r, n, s', hbytes, hcompleted, hrest, hs⟩ := ih (p := p.next b) h
        refine ⟨b :: tail, r, n, s', ?_, .more (by omega) hbounds.1 hbounds.2 hcompleted, ?_, hs⟩
        · rw [hbytes, List.cons_append]
        · rwa [List.length_cons, Nat.add_comm tail.length, ← Nat.add_assoc]
    next => cases h

def octetsOf (n : Nat) : List Nat :=
  if n ≤ 0x7f then [n]
  else if n ≤ 0x7ff then [n / 64 + 0xc0, n % 64 + 0x80]
  else if n ≤ 0xffff then [n / 4096 + 0xe0, n / 64 % 64 + 0x80, n % 64 + 0x80]
  else [n / 262144 + 0xf0, n / 4096 % 64 + 0x80, n / 64 % 64 + 0x80, n % 64 + 0x80]

theorem map_toNat_utf8EncodeChar (c : Char) : (String.utf8EncodeChar c).map UInt8.toNat = octetsOf c.toNat := by
  have hvalid : c.toNat < 0x110000 := by
    rcases c.valid with h | h
    · change c.toNat < _ at h
      omega
    · exact h.2
  have hcode : c.val.toNat = c.toNat := rfl
  simp only [String.utf8EncodeChar, octetsOf, hcode]
  split_ifs <;> simp <;> omega

/-- The starts of characters by the number of octets that they ask for. The bounds of the next octet leave out forms
that are too long, halves of pairs and codes beyond the last one. -/
theorem begin?_some {start b : Nat} {p : Begun} (h : begin? start b = some p) :
    (0xc2 ≤ b ∧ b ≤ 0xdf ∧ p.owed = 1 ∧ p.bits + 0xc0 = b ∧ p.low = 0x80 ∧ p.high = 0xbf) ∨
      (0xe0 ≤ b ∧ b ≤ 0xef ∧ p.owed = 2 ∧ p.bits + 0xe0 = b ∧ (b = 0xe0 ∧ p.low = 0xa0 ∨ b ≠ 0xe0 ∧ p.low = 0x80) ∧
        (b = 0xed ∧ p.high = 0x9f ∨ b ≠ 0xed ∧ p.high = 0xbf)) ∨
      (0xf0 ≤ b ∧ b ≤ 0xf4 ∧ p.owed = 3 ∧ p.bits + 0xf0 = b ∧ (b = 0xf0 ∧ p.low = 0x90 ∨ b ≠ 0xf0 ∧ p.low = 0x80) ∧
        (b = 0xf4 ∧ p.high = 0x8f ∨ b ≠ 0xf4 ∧ p.high = 0xbf)) := by
  unfold begin? at h
  split_ifs at h <;> cases h <;> dsimp only <;> omega

theorem exists_begin? (start : Nat) {b : Nat} (hb : 0xc2 ≤ b) (hb' : b ≤ 0xf4) : ∃ p, begin? start b = some p := by
  unfold begin?
  split_ifs <;> first | exact ⟨_, rfl⟩ | omega

section Sizes

variable {p : Begun} {tail : List UInt8} {n : Nat}

theorem Begun.Completed.exists_one (h : p.Completed tail n) (howed : p.owed = 1) :
    ∃ x : UInt8, tail = [x] ∧ p.low ≤ x.toNat ∧ x.toNat ≤ p.high ∧ n = p.bits * 64 + (x.toNat - 0x80) := by
  cases h with
  | last _ hlow hhigh => exact ⟨_, rfl, hlow, hhigh, rfl⟩
  | more hmore => omega

theorem Begun.Completed.exists_two (h : p.Completed tail n) (howed : p.owed = 2) :
    ∃ x y : UInt8, tail = [x, y] ∧ p.low ≤ x.toNat ∧ x.toNat ≤ p.high ∧ 0x80 ≤ y.toNat ∧ y.toNat ≤ 0xbf ∧
      n = (p.bits * 64 + (x.toNat - 0x80)) * 64 + (y.toNat - 0x80) := by
  cases h with
  | last hlast => omega
  | more _ hlow hhigh hrest =>
    obtain ⟨y, rfl, hy, hy', hn⟩ := hrest.exists_one (by simp [next, howed])
    exact ⟨_, y, rfl, hlow, hhigh, hy, hy', hn⟩

theorem Begun.Completed.exists_three (h : p.Completed tail n) (howed : p.owed = 3) :
    ∃ x y z : UInt8, tail = [x, y, z] ∧ p.low ≤ x.toNat ∧ x.toNat ≤ p.high ∧ 0x80 ≤ y.toNat ∧ y.toNat ≤ 0xbf ∧
      0x80 ≤ z.toNat ∧ z.toNat ≤ 0xbf ∧
      n = ((p.bits * 64 + (x.toNat - 0x80)) * 64 + (y.toNat - 0x80)) * 64 + (z.toNat - 0x80) := by
  cases h with
  | last hlast => omega
  | more _ hlow hhigh hrest =>
    obtain ⟨y, z, rfl, hy, hy', hz, hz', hn⟩ := hrest.exists_two (by simp [next, howed])
    exact ⟨_, y, z, rfl, hlow, hhigh, hy, hy', hz, hz', hn⟩

end Sizes

/-- A code that has certain octets is the code of the character in that form. -/
theorem utf8EncodeChar_ofNat {n : Nat} {octets : List UInt8} (hvalid : n.isValidChar)
    (h : octetsOf n = octets.map UInt8.toNat) : String.utf8EncodeChar (Char.ofNat n) = octets := by
  have hinj : Function.Injective UInt8.toNat := fun a b hab => UInt8.toNat_inj.mp hab
  have hcode : (Char.ofNat n).toNat = n := by
    rw [Char.ofNat, dif_pos hvalid]
    rfl
  apply List.map_injective_iff.mpr hinj
  rw [map_toNat_utf8EncodeChar, hcode, h]

/-- What begins a character and completes it is the form of the character. -/
theorem utf8EncodeChar_of_completed {start n : Nat} {b : UInt8} {p : Begun} {tail : List UInt8}
    (hp : begin? start b.toNat = some p) (h : p.Completed tail n) :
    String.utf8EncodeChar (Char.ofNat n) = b :: tail := by
  rcases begin?_some hp with hb | hb | hb
  · obtain ⟨x, rfl, hx, hx', hn⟩ := h.exists_one hb.2.2.1
    have hrange : 0x80 ≤ n ∧ n ≤ 0x7ff := by omega
    apply utf8EncodeChar_ofNat (.inl (by omega))
    simp only [octetsOf, if_neg (show ¬n ≤ 0x7f by omega), if_pos hrange.2, List.map_cons, List.map_nil,
      List.cons.injEq, and_true]
    omega
  · obtain ⟨x, y, rfl, hx, hx', hy, hy', hn⟩ := h.exists_two hb.2.2.1
    have hrange : 0x800 ≤ n ∧ n ≤ 0xffff := by omega
    have hvalid : n < 0xd800 ∨ 0xdfff < n ∧ n < 0x110000 := by omega
    apply utf8EncodeChar_ofNat hvalid
    simp only [octetsOf, if_neg (show ¬n ≤ 0x7f by omega), if_neg (show ¬n ≤ 0x7ff by omega), if_pos hrange.2,
      List.map_cons, List.map_nil, List.cons.injEq, and_true]
    omega
  · obtain ⟨x, y, z, rfl, hx, hx', hy, hy', hz, hz', hn⟩ := h.exists_three hb.2.2.1
    have hrange : 0x10000 ≤ n ∧ n < 0x110000 := by omega
    apply utf8EncodeChar_ofNat (.inr (by omega))
    simp only [octetsOf, if_neg (show ¬n ≤ 0x7f by omega), if_neg (show ¬n ≤ 0x7ff by omega),
      if_neg (show ¬n ≤ 0xffff by omega), List.map_cons, List.map_nil, List.cons.injEq, and_true]
    omega

/-- The form of a character of several octets begins it and completes it. -/
theorem exists_completed_utf8EncodeChar (start : Nat) {c : Char} (hc : 0x80 ≤ c.toNat) :
    ∃ b tail p, String.utf8EncodeChar c = b :: tail ∧ begin? start b.toNat = some p ∧ p.Completed tail c.toNat := by
  have hvalid : c.toNat < 0xd800 ∨ 0xdfff < c.toNat ∧ c.toNat < 0x110000 := c.valid
  have hoctets := map_toNat_utf8EncodeChar c
  rw [octetsOf, if_neg (by omega)] at hoctets
  split_ifs at hoctets
  · obtain ⟨b, _, hform, hb, hrest⟩ := List.map_eq_cons_iff.mp hoctets
    obtain ⟨x, _, rfl, hx, hrest⟩ := List.map_eq_cons_iff.mp hrest
    obtain rfl := List.map_eq_nil_iff.mp hrest
    obtain ⟨p, hp⟩ := exists_begin? start (b := b.toNat) (by omega) (by omega)
    have hbegun := begin?_some hp
    have hcode : c.toNat = p.bits * 64 + (x.toNat - 0x80) := by omega
    refine ⟨b, [x], p, hform, hp, ?_⟩
    rw [hcode]
    exact .last (by omega) (by omega) (by omega)
  · obtain ⟨b, _, hform, hb, hrest⟩ := List.map_eq_cons_iff.mp hoctets
    obtain ⟨x, _, rfl, hx, hrest⟩ := List.map_eq_cons_iff.mp hrest
    obtain ⟨y, _, rfl, hy, hrest⟩ := List.map_eq_cons_iff.mp hrest
    obtain rfl := List.map_eq_nil_iff.mp hrest
    obtain ⟨p, hp⟩ := exists_begin? start (b := b.toNat) (by omega) (by omega)
    have hbegun := begin?_some hp
    have hcode : c.toNat = (p.bits * 64 + (x.toNat - 0x80)) * 64 + (y.toNat - 0x80) := by omega
    refine ⟨b, [x, y], p, hform, hp, ?_⟩
    rw [hcode]
    refine .more (by omega) (by omega) (by omega) (.last ?_ ?_ ?_) <;> dsimp only [Begun.next] <;> omega
  · obtain ⟨b, _, hform, hb, hrest⟩ := List.map_eq_cons_iff.mp hoctets
    obtain ⟨x, _, rfl, hx, hrest⟩ := List.map_eq_cons_iff.mp hrest
    obtain ⟨y, _, rfl, hy, hrest⟩ := List.map_eq_cons_iff.mp hrest
    obtain ⟨z, _, rfl, hz, hrest⟩ := List.map_eq_cons_iff.mp hrest
    obtain rfl := List.map_eq_nil_iff.mp hrest
    obtain ⟨p, hp⟩ := exists_begin? start (b := b.toNat) (by omega) (by omega)
    have hbegun := begin?_some hp
    have hcode : c.toNat = ((p.bits * 64 + (x.toNat - 0x80)) * 64 + (y.toNat - 0x80)) * 64 + (z.toNat - 0x80) := by
      omega
    refine ⟨b, [x, y, z], p, hform, hp, ?_⟩
    rw [hcode]
    refine .more (by omega) (by omega) (by omega) (.more ?_ ?_ ?_ (.last ?_ ?_ ?_)) <;> dsimp only [Begun.next] <;> omega

/-- Decoding reads the form of a character, and goes on behind it. -/
theorem decodeFrom_utf8EncodeChar (c : Char) (i : Nat) (r : List UInt8) :
    decodeFrom i none (String.utf8EncodeChar c ++ r) =
      (decodeFrom (i + (String.utf8EncodeChar c).length) none r).map (c :: ·) := by
  by_cases hc : c.toNat < 0x80
  · have hoctets := map_toNat_utf8EncodeChar c
    rw [octetsOf, if_pos (by omega)] at hoctets
    obtain ⟨b, _, hform, hb, hrest⟩ := List.map_eq_cons_iff.mp hoctets
    obtain rfl := List.map_eq_nil_iff.mp hrest
    rw [hform, List.singleton_append, decodeFrom, hb, if_pos hc, Char.ofNat_toNat]
    rfl
  · obtain ⟨b, tail, p, hform, hp, hcompleted⟩ := exists_completed_utf8EncodeChar i (c := c) (by omega)
    have hb : ¬b.toNat < 0x80 := by
      have hbegun := begin?_some hp
      omega
    rw [hform, List.cons_append, decodeFrom, if_neg hb, hp, List.length_cons, Nat.add_comm tail.length,
      ← Nat.add_assoc]
    simpa only [Char.ofNat_toNat] using hcompleted.decodeFrom_append (i + 1) r

theorem decodeFrom_flatMap (s : List Char) (i : Nat) :
    decodeFrom i none (s.flatMap String.utf8EncodeChar) = .ok s := by
  induction s generalizing i with
  | nil => rw [List.flatMap_nil, decodeFrom]
  | cons c s ih =>
    rw [List.flatMap_cons, decodeFrom_utf8EncodeChar, ih]
    rfl

/-- Only the octets of a text are decoded to it; by induction on how many there are. -/
theorem flatMap_of_decodeFrom {bytes : List UInt8} {i : Nat} {s : List Char} (h : decodeFrom i none bytes = .ok s) :
    s.flatMap String.utf8EncodeChar = bytes := by
  induction hlength : bytes.length using Nat.strongRecOn generalizing bytes i s with
  | _ k ih =>
    cases bytes with
    | nil =>
      rw [decodeFrom] at h
      cases h
      rfl
    | cons b r =>
      rw [List.length_cons] at hlength
      rw [decodeFrom] at h
      split at h
      next hb =>
        cases hrest : decodeFrom (i + 1) none r with
        | error e =>
          rw [hrest] at h
          cases h
        | ok s' =>
          rw [hrest] at h
          cases h
          have hform : String.utf8EncodeChar (Char.ofNat b.toNat) = [b] :=
            utf8EncodeChar_ofNat (.inl (by omega)) (by rw [octetsOf, if_pos (by omega)]; rfl)
          rw [List.flatMap_cons, hform, ih _ (by omega) hrest rfl, List.singleton_append]
      next hb =>
        split at h
        next p hp =>
          obtain ⟨tail, r', n, s', rfl, hcompleted, hrest, rfl⟩ := exists_completed h
          rw [List.length_append] at hlength
          rw [List.flatMap_cons, utf8EncodeChar_of_completed hp hcompleted, ih _ (by omega) hrest rfl,
            List.cons_append]
        next => cases h

theorem encodeUtf8_ofList (s : List Char) : encodeUtf8 (String.ofList s) = s.flatMap String.utf8EncodeChar := by
  rw [encodeUtf8, String.toUTF8_eq_toByteArray, String.toByteArray_ofList, List.utf8Encode,
    List.data_toByteArray]

/-- Octets are decoded to a text exactly if they are its form. -/
theorem decodeUtf8_eq_ok_iff {bytes : List UInt8} {s : List Char} :
    decodeUtf8 bytes = .ok s ↔ encodeUtf8 (String.ofList s) = bytes := by
  rw [encodeUtf8_ofList]
  constructor
  · exact flatMap_of_decodeFrom
  · rintro rfl
    exact decodeFrom_flatMap s 0

/-- The octets of a text are read as that text. -/
theorem decodeUtf8_encodeUtf8 (s : String) : decodeUtf8 (encodeUtf8 s) = .ok s.toList := by
  rw [decodeUtf8_eq_ok_iff, String.ofList_toList]

end CadenceUplift.Text
