namespace CadenceUplift.Text

/-- The character that carries the half of the given code. -/
def ofHalf (code : Nat) : Char := Char.ofNat (0x100000 + code)

/-- The code of the half that a character carries. -/
def half? (c : Char) : Option Nat :=
  if 0x10d800 ≤ c.toNat ∧ c.toNat < 0x10e000 then some (c.toNat - 0x100000) else none

def isHalf (c : Char) : Bool := (half? c).isSome

/-- The code of a character, or of the half that it carries. -/
def codeOf (c : Char) : Nat := (half? c).getD c.toNat

/-- The character of a code below 0x110000; a code that belongs to no character is a half. -/
def ofCode (code : Nat) : Char :=
  if 0xd800 ≤ code ∧ code < 0xe000 then ofHalf code else Char.ofNat code

end CadenceUplift.Text
