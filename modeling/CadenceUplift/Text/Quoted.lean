import CadenceUplift.Text.Class
import CadenceUplift.Text.Half

namespace CadenceUplift.Text

/-- The `width` lowest hexadecimal digits of a number, most significant first. -/
def hexDigits (width n : Nat) : List Char :=
  (List.range width).reverse.map fun i => Nat.digitChar (n / Nat.pow 16 i % 16)

/-- The escape of a character by its code, in the shortest of the three widths. -/
def codeEscape (c : Char) : List Char :=
  let n := codeOf c
  if n < 0x100 then '\\' :: 'x' :: hexDigits 2 n
  else if n < 0x10000 then '\\' :: 'u' :: hexDigits 4 n
  else '\\' :: 'U' :: hexDigits 8 n

/-- One character inside quotes of the given kind. -/
def quoteChar (quote c : Char) : List Char :=
  if c = quote ∨ c = '\\' then ['\\', c]
  else if c = '\n' then ['\\', 'n']
  else if c = '\r' then ['\\', 'r']
  else if c = '\t' then ['\\', 't']
  else if isVisible c then [c]
  else codeEscape c

def quoteFor (s : List Char) : Char := if s.contains '\'' && !s.contains '"' then '"' else '\''

/-- A text as it is written in a message. -/
def quoted (s : List Char) : List Char :=
  let q := quoteFor s
  q :: s.flatMap (quoteChar q) ++ [q]

/-- Octets as they are written in a message: those of visible ASCII characters as these, all others by
their codes. -/
def quotedOctets (bytes : List UInt8) : List Char :=
  let s := bytes.map fun b => Char.ofNat b.toNat
  let q := quoteFor s
  let octet (c : Char) : List Char := if c.toNat < 127 then quoteChar q c else codeEscape c
  'b' :: q :: s.flatMap octet ++ [q]

/-- A text as it is written in a message. -/
def quotedString (s : String) : String := String.ofList (quoted s.toList)

end CadenceUplift.Text
