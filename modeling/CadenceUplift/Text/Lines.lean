import CadenceUplift.Text.Class

namespace CadenceUplift.Text

/-- The lines of a text, without their newlines; there is always at least one. -/
def lines : List Char → List (List Char)
  | [] => [[]]
  | c :: r =>
    if c = '\n' then [] :: lines r
    else
      match lines r with
      | [] => [[c]]
      | l :: ls => (c :: l) :: ls

theorem lines_ne_nil (s : List Char) : lines s ≠ [] := by
  cases s with
  | nil => simp [lines]
  | cons c r =>
    unfold lines
    split
    · simp
    · split <;> simp

/-- Lines put back together, newlines between them. -/
def unlines (ls : List (List Char)) : List Char := join ['\n'] ls

/-- Offsets at which lines after the first begin, for a text that starts at offset `i`. -/
def laterLineStarts (i : Nat) : List Char → List Nat
  | [] => []
  | c :: r => if c = '\n' then (i + 1) :: laterLineStarts (i + 1) r else laterLineStarts (i + 1) r

/-- Offsets at which each line begins. -/
def lineOffsets (s : List Char) : List Nat := 0 :: laterLineStarts 0 s

/-- A 1-based line and column. -/
structure Position where
  line : Nat
  column : Nat
deriving DecidableEq, Repr, Inhabited

/-- Halving search for the end of the entries that are at most `x`, between the bounds `lo` and `hi`;
`fuel` bounds the number of steps. -/
def countBetween (table : Array Nat) (x : Nat) : Nat → Nat → Nat → Nat
  | 0, lo, _ => lo
  | fuel + 1, lo, hi =>
    if lo < hi then
      let mid := (lo + hi) / 2
      if x < table.getD mid 0 then countBetween table x fuel lo mid
      else countBetween table x fuel (mid + 1) hi
    else lo

/-- How many entries of an ascending table are at most `x`. -/
def countUpTo (table : Array Nat) (x : Nat) : Nat := countBetween table x table.size 0 table.size

/-- The position of an offset, given where the lines begin. Offsets past the end belong to the last
line. -/
def positionAt (starts : Array Nat) (offset : Nat) : Position :=
  let index := countUpTo starts offset - 1
  { line := index + 1, column := offset - starts.getD index 0 + 1 }

/-- The line and column of any offset; an offset before the text lies on line 0, and its column counts
from the start of the last line. -/
def placeOf (starts : Array Nat) (offset : Int) : Int × Int :=
  if 0 ≤ offset then
    let p := positionAt starts offset.toNat
    (p.line, p.column)
  else (0, offset - (starts.back?.getD 0 : Nat) + 1)

/-- The line at `index` with `radius` lines either side, as far as they exist. -/
def surroundings (ls : List (List Char)) (index radius : Nat) : List Char :=
  unlines (((ls.take (index + radius + 1)).drop (index - radius)))

/-- How many of `length` items come before an index; an index below zero counts from their end. -/
def countBefore (length : Nat) (index : Int) : Nat :=
  if 0 ≤ index then index.toNat else (length + index).toNat

/-- The lines around any index within any radius; an end below zero counts from the last line. -/
def window (ls : List (List Char)) (index radius : Int) : List Char :=
  let stop := min (ls.length : Int) (index + radius + 1)
  unlines ((ls.take (countBefore ls.length stop)).drop (max 0 (index - radius)).toNat)

end CadenceUplift.Text
