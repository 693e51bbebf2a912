import CadenceUplift.Literal.Span
import CadenceUplift.Pattern.Match

namespace CadenceUplift

/-- The text from offset `last` on, with each listed match replaced by the text beside it. -/
def splice (t : Array Char) : Nat → List (Match × List Char) → List Char
  | last, [] => (t.extract last t.size).toList
  | last, (m, new) :: rest => (t.extract last m.start).toList ++ new ++ splice t m.stop rest

/-- A text after replacement and how many replacements it took. -/
structure Replaced where
  text : List Char
  count : Nat
deriving DecidableEq, Repr, Inhabited

/-- The matches of a pattern that are up for replacement: those that do not start in a literal. -/
def matchesOutside (p : Pattern) (t : Array Char) (skip : LiteralIndex) : List Match :=
  (p.allMatches t).filter fun m => !skip.covers m.start

/-- Replaces the matches of `p` by what `f` makes of them; literals are left alone when
`skipLiterals` is set. -/
def replaceInCode {ε : Type} (p : Pattern) (f : Match → Array Char → Except ε (List Char))
    (s : List Char) (skipLiterals : Bool) : Except ε Replaced := do
  let t := s.toArray
  let skip := if skipLiterals then literalIndex s else .ofList []
  let ms := matchesOutside p t skip
  let news ← ms.mapM fun m => return (m, ← f m t)
  return ⟨splice t 0 news, ms.length⟩

end CadenceUplift
