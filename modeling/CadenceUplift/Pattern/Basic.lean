import CadenceUplift.Text.Case
import CadenceUplift.Text.Class

namespace CadenceUplift

/-- One member of a bracketed set of characters. -/
inductive CharItem where
  | single (c : Char)
  | range (lo hi : Char)
  | word
  | nonWord
  | blank
  | nonBlank
  | decimal
  | nonDecimal
  /-- Word characters of ASCII; the negated form takes in everything else. -/
  | asciiWord (negated : Bool)
  | asciiBlank (negated : Bool)
  | asciiDecimal (negated : Bool)
deriving DecidableEq, Repr, Inhabited

def isAsciiWord (c : Char) : Bool := c == '_' || c.isAlphanum

/-- The characters that one member stands for. -/
def CharItem.holds : CharItem → Char → Bool
  | .single a, c => a == c
  | .range lo hi, c => lo ≤ c && c ≤ hi
  | .word, c => Text.isWord c
  | .nonWord, c => !Text.isWord c
  | .blank, c => Text.isBlank c
  | .nonBlank, c => !Text.isBlank c
  | .decimal, c => Text.isDecimal c
  | .nonDecimal, c => !Text.isDecimal c
  | .asciiWord negated, c => isAsciiWord c != negated
  | .asciiBlank negated, c => (decide (c.toNat < 128) && Text.isSpace c) != negated
  | .asciiDecimal negated, c => c.isDigit != negated

/-- Which letters count as the same as their other case. -/
inductive CaseFold where
  | none
  | ascii
  | all
deriving DecidableEq, Repr, Inhabited

namespace CaseFold

/-- The small form of a character, where case is ignored. -/
def small : CaseFold → Char → Char
  | .none, c => c
  | .ascii, c => c.toLower
  | .all, c => Text.small c

/-- The characters that count as the same as a character. -/
def variants : CaseFold → Char → List Char
  | .none, c => [c]
  | .ascii, c => [c, c.toLower, c.toUpper]
  | .all, c => Text.caseVariants c

end CaseFold

/-- A character belongs to a member when case may be ignored: one of its variants does, and for a class
its small form. -/
def CharItem.holdsFolded (fold : CaseFold) (i : CharItem) (c : Char) : Bool :=
  match i with
  | .single a => (fold.variants c).contains a
  | .range lo hi => (fold.variants c).any fun v => lo ≤ v && v ≤ hi
  | i => i.holds (fold.small c)

/-- A set of characters: those of its members, or all others when it is negated. -/
structure CharSet where
  negated : Bool := false
  items : List CharItem
  fold : CaseFold := .none
deriving DecidableEq, Repr, Inhabited

def CharSet.holds (s : CharSet) (c : Char) : Bool :=
  match s.fold with
  | .none => s.items.any (·.holds c) != s.negated
  | fold => s.items.any (·.holdsFolded fold c) != s.negated

/-- A pattern over text. Alternatives are tried in order, repetition is greedy unless marked lazy,
and groups are numbered by their opening bracket from 1. -/
inductive Pattern where
  /-- The empty text. -/
  | empty
  /-- One given character. -/
  | char (c : Char)
  /-- One character of a set. -/
  | member (s : CharSet)
  /-- Any one character but a newline. -/
  | any
  /-- The start of the text. -/
  | textStart
  /-- The end of the text, or the place before a newline that ends it. -/
  | lineEnd
  /-- The very end of the text. -/
  | textEnd
  /-- A place between a word character and something else; `inside` asks for the opposite. There is none
  in an empty text. -/
  | wordEdge (inside ascii : Bool)
  | seq (p q : Pattern)
  | alt (p q : Pattern)
  /-- At least `lo` and at most `hi` copies. -/
  | loop (p : Pattern) (lo : Nat) (hi : Option Nat) (greedy : Bool)
  | group (n : Nat) (p : Pattern)
  /-- The text that a group took, once more. -/
  | sameAs (n : Nat) (fold : CaseFold)
  /-- One of two patterns, the first if a group has taken part. -/
  | ifTaken (n : Nat) (p q : Pattern)
  /-- What follows here matches, or does not, without being taken. -/
  | ahead (negated : Bool) (p : Pattern)
  /-- The `width` characters before this place match, or do not. -/
  | behind (negated : Bool) (width : Nat) (p : Pattern)
  /-- The first way to match, never reconsidered. -/
  | once (p : Pattern)
deriving DecidableEq, Repr, Inhabited

namespace Pattern

/-- Patterns one after another. -/
def all : List Pattern → Pattern
  | [] => .empty
  | [p] => p
  | p :: ps => .seq p (all ps)

/-- The first of several patterns that matches. -/
def oneOf : List Pattern → Pattern
  | [] => .empty
  | [p] => p
  | p :: ps => .alt p (oneOf ps)

def text (s : String) : Pattern := all (s.toList.map .char)

/-- Zero or more copies, as many as possible. -/
def many (p : Pattern) : Pattern := .loop p 0 none true

/-- One or more copies, as many as possible. -/
def many1 (p : Pattern) : Pattern := .loop p 1 none true

/-- One copy if possible. -/
def opt (p : Pattern) : Pattern := .loop p 0 (some 1) true

/-- One blank. -/
def blank : Pattern := .member { items := [.blank] }

/-- One word character. -/
def word : Pattern := .member { items := [.word] }

def edge : Pattern := .wordEdge false false

/-- One of the listed characters. -/
def among (s : String) : Pattern := .member { items := s.toList.map .single }

/-- One character that is not listed. -/
def except (s : String) : Pattern := .member { negated := true, items := s.toList.map .single }

/-- The least and the greatest number of characters that something can span; no upper end when there is
no bound. -/
abbrev Width := Nat × Option Nat

/-- The width of one thing after another. -/
def Width.plus (a b : Width) : Width := (a.1 + b.1, do return (← a.2) + (← b.2))

/-- The width of one of two things. -/
def Width.either (a b : Width) : Width := (min a.1 b.1, do return max (← a.2) (← b.2))

def Width.times (a : Width) (lo : Nat) (hi : Option Nat) : Width :=
  (a.1 * lo, if a.2 = some 0 ∨ hi = some 0 then some 0 else do return (← a.2) * (← hi))

/-- How many characters a pattern can span, given the widths of the groups that it refers to. -/
def width (groups : Nat → Width) : Pattern → Width
  | .empty | .textStart | .lineEnd | .textEnd | .wordEdge .. | .ahead .. | .behind .. => (0, some 0)
  | .char _ | .member _ | .any => (1, some 1)
  | .seq p q => (p.width groups).plus (q.width groups)
  | .alt p q => (p.width groups).either (q.width groups)
  | .ifTaken _ p q => (p.width groups).either (q.width groups)
  | .loop p lo hi _ => (p.width groups).times lo hi
  | .group _ p | .once p => p.width groups
  | .sameAs n _ => groups n

end Pattern

end CadenceUplift
