import CadenceUplift.Text.Tables

namespace CadenceUplift.Text

/-- White space, which may stand around numbers. -/
def isSpace (c : Char) : Bool :=
  let n := c.toNat
  (9 ≤ n && n ≤ 13) || n == 32 || n == 0x85 || n == 0xa0 || n == 0x1680 ||
    (0x2000 ≤ n && n ≤ 0x200a) || n == 0x2028 || n == 0x2029 || n == 0x202f || n == 0x205f ||
    n == 0x3000

/-- What patterns and trimming treat as blank: white space and the four separators before it. -/
def isBlank (c : Char) : Bool := isSpace c || (28 ≤ c.toNat && c.toNat ≤ 31)

/-- The value of a decimal digit of any script. -/
def digitValue? (c : Char) : Option Nat :=
  (digitZeros.find? fun z => z ≤ c.toNat && c.toNat < z + 10).map (c.toNat - ·)

/-- A decimal digit of any script. -/
def isDecimal (c : Char) : Bool :=
  if c.toNat < 128 then c.isDigit else (digitValue? c).isSome

/-- A letter or a number of any script. -/
def isAlphanumeric (c : Char) : Bool :=
  if c.toNat < 128 then c.isAlphanum else inRanges alphanumericRanges c

/-- A character that may stand in a word: a letter, a number or an underscore. -/
def isWord (c : Char) : Bool := c == '_' || isAlphanumeric c

/-- A character with a visible form, or the plain space. -/
def isVisible (c : Char) : Bool :=
  if c.toNat < 128 then 32 ≤ c.toNat && c.toNat < 127 else !inRanges invisibleRanges c

def trimLeft (s : List Char) : List Char := s.dropWhile isBlank

def trimRight (s : List Char) : List Char := (s.reverse.dropWhile isBlank).reverse

/-- Drops blanks at both ends. -/
def trim (s : List Char) : List Char := trimRight (trimLeft s)

/-- Drops white space at both ends. -/
def trimSpace (s : List Char) : List Char :=
  ((s.dropWhile isSpace).reverse.dropWhile isSpace).reverse

/-- Holds nothing but blanks. -/
def allBlank (s : List Char) : Bool := s.all isBlank

/-- `needle` stands in `s` from its first character on. -/
def startsWith (s needle : List Char) : Bool := needle.isPrefixOf s

def endsWith (s needle : List Char) : Bool := needle.isSuffixOf s

/-- Offset of the first occurrence of `needle`. -/
def indexOf? (needle : List Char) : List Char → Option Nat
  | [] => if needle.isEmpty then some 0 else none
  | c :: r => if startsWith (c :: r) needle then some 0 else (indexOf? needle r).map (· + 1)

def hasText (s needle : List Char) : Bool := (indexOf? needle s).isSome

theorem hasText_iff {s needle : List Char} : hasText s needle = true ↔ needle <:+: s := by
  unfold hasText
  induction s with
  | nil =>
    cases needle with
    | nil => simp [indexOf?]
    | cons c needle => simp [indexOf?]
  | cons c s ih =>
    rw [indexOf?, List.infix_cons_iff, startsWith]
    by_cases hstart : needle.isPrefixOf (c :: s) = true
    · simp [hstart, List.isPrefixOf_iff_prefix.mp hstart]
    · have hnot : ¬needle <+: c :: s := fun hpre => hstart (List.isPrefixOf_iff_prefix.mpr hpre)
      rw [if_neg hstart, Option.isSome_map, ih]
      simp [hnot]

def join (sep : List Char) : List (List Char) → List Char
  | [] => []
  | [s] => s
  | s :: rest => s ++ sep ++ join sep rest

end CadenceUplift.Text
