import CadenceUplift.Literal.Span

namespace CadenceUplift

/-- What stands at offset `i` of a literal after blanking: newlines stay, and so do the quotes at both
ends of a string. -/
def Literal.blankAt (l : Literal) (i : Nat) (c : Char) : Char :=
  if c = '\n' then c
  else
    match l.kind with
    | .comment => ' '
    | .string => if i = l.start ∨ (i + 1 = l.stop ∧ c = '"') then c else ' '

/-- Blanks the given literals in the text that starts at offset `i`. -/
def blankFrom : Nat → List Literal → List Char → List Char
  | _, _, [] => []
  | _, [], s => s
  | i, l :: ls, c :: r =>
    if i < l.start then c :: blankFrom (i + 1) (l :: ls) r
    else l.blankAt i c :: blankFrom (i + 1) (if i + 1 < l.stop then l :: ls else ls) r

/-- The text with its comments and the insides of its strings blanked. -/
def codeOnly (s : List Char) : List Char := blankFrom 0 (literals s) s

end CadenceUplift
