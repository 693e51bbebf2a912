import CadenceUplift.Text.Class

namespace CadenceUplift.Guess

/-- The quote characters that may open a string. -/
def quoteChars : List Char := ['"', '\'', '`']

def unescapedCount (quote : Char) : List Char → Nat
  | [] => 0
  | ['\\'] => 0
  | '\\' :: _ :: r => unescapedCount quote r
  | c :: r => (if c = quote then 1 else 0) + unescapedCount quote r

/-- A place lies in a string when an odd number of quotes of one kind stands before it. -/
def inString (line : List Char) (index : Nat) (quotes : List Char) : Bool :=
  quotes.any fun q => unescapedCount q (line.take index) % 2 == 1

/-- Offsets of the double slashes of a line that starts at offset `i`, none overlapping. -/
def doubleSlashes : Nat → List Char → List Nat
  | _, [] => []
  | i, '/' :: '/' :: r => i :: doubleSlashes (i + 2) r
  | i, _ :: r => doubleSlashes (i + 1) r

/-- A place lies in a comment when a double slash outside strings stands before it, or when the line
reads like the body of a block comment. -/
def inComment (line : List Char) (index : Nat) : Bool :=
  let body := Text.trimLeft line
  Text.startsWith body ['/', '*'] || Text.startsWith body ['*'] ||
    (doubleSlashes 0 line).any fun pos => decide (pos < index) && !inString line pos quoteChars

end CadenceUplift.Guess
