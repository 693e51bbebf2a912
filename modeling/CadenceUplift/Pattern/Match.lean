import CadenceUplift.Pattern.Basic

namespace CadenceUplift

/-- The stretch of text that a group took, as offsets. -/
structure Capture where
  group : Nat
  start : Nat
  stop : Nat
deriving DecidableEq, Repr, Inhabited

namespace Pattern

/-- A place in the text together with what groups have taken so far, latest first. -/
structure Place where
  pos : Nat
  captures : List Capture
deriving DecidableEq, Repr, Inhabited

/-- What happens after a part has matched. -/
abbrev Next := Place → Option Place

/-- The place after one more character. -/
def Place.advance (s : Place) : Place := { s with pos := s.pos + 1 }

/-- What a group has taken, if it took part. -/
def Place.capture? (s : Place) (n : Nat) : Option Capture := s.captures.find? (·.group == n)

/-- Exactly `n` copies of a step. -/
def runExactly (step : Place → Next → Option Place) : Nat → Place → Next → Option Place
  | 0, s, k => k s
  | n + 1, s, k => step s fun s' => runExactly step n s' k

/-- At most `n` copies of a step, more rather than fewer. -/
def runGreedy (step : Place → Next → Option Place) : Nat → Place → Next → Option Place
  | 0, s, k => k s
  | n + 1, s, k =>
    match step s fun s' => if s'.pos = s.pos then k s' else runGreedy step n s' k with
    | some r => some r
    | none => k s

/-- At most `n` copies of a step, fewer rather than more. -/
def runLazy (step : Place → Next → Option Place) : Nat → Place → Next → Option Place
  | 0, s, k => k s
  | n + 1, s, k =>
    match k s with
    | some r => some r
    | none => step s fun s' => if s'.pos = s.pos then k s' else runLazy step n s' k

def wordAt (ascii : Bool) (t : Array Char) (i : Nat) : Bool :=
  (t[i]?).any (if ascii then isAsciiWord else Text.isWord)

/-- Exactly one of the characters before and after the offset is a word character. -/
def atWordEdge (ascii : Bool) (t : Array Char) (i : Nat) : Bool :=
  (decide (0 < i) && wordAt ascii t (i - 1)) != wordAt ascii t i

/-- The characters of `t` from `lo` up to `hi` stand again at `i`. -/
def repeatsAt (fold : CaseFold) (t : Array Char) (lo hi i : Nat) : Bool :=
  (List.range (hi - lo)).all fun j =>
    decide (i + j < t.size) && (t[lo + j]?).map fold.small == (t[i + j]?).map fold.small

/-- Matches a pattern from a place on and passes each outcome, best first, to `k` until `k` accepts
one. -/
def run (t : Array Char) : Pattern → Place → Next → Option Place
  | .empty, s, k => k s
  | .char c, s, k => if t[s.pos]? = some c then k s.advance else none
  | .member cs, s, k => if (t[s.pos]?).any cs.holds then k s.advance else none
  | .any, s, k => if (t[s.pos]?).any (· != '\n') then k s.advance else none
  | .textStart, s, k => if s.pos = 0 then k s else none
  | .lineEnd, s, k =>
    if s.pos = t.size ∨ (s.pos + 1 = t.size ∧ t[s.pos]? = some '\n') then k s else none
  | .textEnd, s, k => if s.pos = t.size then k s else none
  | .wordEdge inside ascii, s, k =>
    if 0 < t.size ∧ atWordEdge ascii t s.pos ≠ inside then k s else none
  | .seq p q, s, k => p.run t s fun s' => q.run t s' k
  | .alt p q, s, k =>
    match p.run t s k with
    | some r => some r
    | none => q.run t s k
  | .loop p lo hi greedy, s, k =>
    runExactly (fun s' k' => p.run t s' k') lo s fun s' =>
      let budget := match hi with
        | none => t.size - s'.pos + 1
        | some h => h - lo
      if greedy then runGreedy (fun s'' k' => p.run t s'' k') budget s' k
      else runLazy (fun s'' k' => p.run t s'' k') budget s' k
  | .group n p, s, k =>
    p.run t s fun s' => k { s' with captures := ⟨n, s.pos, s'.pos⟩ :: s'.captures }
  | .sameAs n fold, s, k =>
    match s.capture? n with
    | none => none
    | some c =>
      if repeatsAt fold t c.start c.stop s.pos then k { s with pos := s.pos + (c.stop - c.start) } else none
  | .ifTaken n p q, s, k => if (s.capture? n).isSome then p.run t s k else q.run t s k
  | .ahead negated p, s, k =>
    match p.run t s some with
    | some s' => if negated then none else k { s' with pos := s.pos }
    | none => if negated then k s else none
  | .behind negated width p, s, k =>
    let found :=
      if width ≤ s.pos then
        p.run t { s with pos := s.pos - width } fun s' => if s'.pos = s.pos then some s' else none
      else none
    match found with
    | some s' => if negated then none else k s'
    | none => if negated then k s else none
  | .once p, s, k =>
    match p.run t s some with
    | some s' => k s'
    | none => none

end Pattern

/-- A stretch of text that a pattern took, with what its groups took. -/
structure Match where
  start : Nat
  stop : Nat
  captures : List Capture
deriving DecidableEq, Repr, Inhabited

namespace Match

def text (m : Match) (t : Array Char) : List Char := (t.extract m.start m.stop).toList

/-- What a group took; group 0 is the whole match. -/
def capture? (m : Match) (n : Nat) : Option Capture :=
  if n = 0 then some ⟨0, m.start, m.stop⟩ else m.captures.find? (·.group == n)

/-- The text of a group, empty when the group took no part. -/
def groupText (m : Match) (t : Array Char) (n : Nat) : List Char :=
  match m.capture? n with
  | some c => (t.extract c.start c.stop).toList
  | none => []

end Match

namespace Pattern

/-- The best match that starts exactly at `i` and that `ok` accepts by its end. -/
def matchAtWith (p : Pattern) (t : Array Char) (i : Nat) (ok : Nat → Bool) : Option Match :=
  (p.run t ⟨i, []⟩ fun s => if ok s.pos then some s else none).map fun s => ⟨i, s.pos, s.captures⟩

/-- The best match that starts exactly at `i`. -/
def matchAt (p : Pattern) (t : Array Char) (i : Nat) : Option Match := p.matchAtWith t i fun _ => true

def fullMatch (p : Pattern) (t : Array Char) : Option Match := p.matchAtWith t 0 (· == t.size)

/-- The first match among the `n` places from `i` on. -/
def firstFrom (p : Pattern) (t : Array Char) : Nat → Nat → Option Match
  | 0, _ => none
  | n + 1, i =>
    match p.matchAt t i with
    | some m => some m
    | none => firstFrom p t n (i + 1)

/-- The leftmost match that starts at or after `i`; when `fresh` is unset, a match at `i` itself must
not be empty. -/
def find? (p : Pattern) (t : Array Char) (i : Nat) (fresh : Bool) : Option Match :=
  if fresh then p.firstFrom t (t.size + 1 - i) i
  else
    match p.matchAtWith t i (· != i) with
    | some m => some m
    | none => p.firstFrom t (t.size - i) (i + 1)

/-- Successive matches from `i` on; an empty match may directly follow a match that was not empty, and
no two empty matches share a place. `fuel` bounds the number of matches. -/
def matchesFrom (p : Pattern) (t : Array Char) : Nat → Nat → Bool → List Match
  | 0, _, _ => []
  | fuel + 1, i, fresh =>
    match p.find? t i fresh with
    | none => []
    | some m => m :: matchesFrom p t fuel m.stop (m.stop != m.start)

/-- All matches in the text, from left to right, none overlapping. -/
def allMatches (p : Pattern) (t : Array Char) : List Match := p.matchesFrom t (2 * t.size + 2) 0 true

def search (p : Pattern) (t : Array Char) : Option Match := p.find? t 0 true

def occursIn (p : Pattern) (s : List Char) : Bool := (p.search s.toArray).isSome

end Pattern

end CadenceUplift
