namespace CadenceUplift

/-- The number `mant * 2 ^ exp`, not negative. -/
structure Binary64 where
  mant : Nat
  exp : Int
deriving DecidableEq, Repr, Inhabited

namespace Binary64

def zero : Binary64 := ⟨0, 0⟩

/-- The quotient rounded to the nearest whole number, an exact tie to the even one. -/
def roundDiv (num den : Nat) : Nat :=
  let q := num / den
  let twice := 2 * (num % den)
  if twice < den then q
  else if den < twice then q + 1
  else q + q % 2

/-- A quotient divided by a power of two, as numerator and denominator. -/
def scaleDown (num den : Nat) (e : Int) : Nat × Nat :=
  if 0 ≤ e then (num, den * Nat.pow 2 e.toNat) else (num * Nat.pow 2 (-e).toNat, den)

/-- The exponent at which `num / den` has a mantissa of 53 bits; not below the least one. -/
def exponentOf (num den : Nat) : Int :=
  let guess : Int := (num.log2 : Int) - den.log2 - 52
  let s := scaleDown num den guess
  max (-1074) (if s.1 / s.2 < Nat.pow 2 52 then guess - 1 else guess)

def nearest (num den : Nat) : Binary64 :=
  if num = 0 then zero
  else
    let e := exponentOf num den
    let s := scaleDown num den e
    let m := roundDiv s.1 s.2
    if m = Nat.pow 2 53 then ⟨Nat.pow 2 52, e + 1⟩ else ⟨m, e⟩

/-- The number as an exact quotient. -/
def quotient (x : Binary64) : Nat × Nat :=
  if 0 ≤ x.exp then (x.mant * Nat.pow 2 x.exp.toNat, 1) else (x.mant, Nat.pow 2 (-x.exp).toNat)

/-- The sum, rounded to the nearest number. -/
def add (x y : Binary64) : Binary64 :=
  let a := x.quotient
  let b := y.quotient
  nearest (a.1 * b.2 + b.1 * a.2) (a.2 * b.2)

/-- The quotient by a whole number, rounded to the nearest number. -/
def divNat (x : Binary64) (n : Nat) : Binary64 :=
  let a := x.quotient
  nearest a.1 (a.2 * n)

/-- The whole number of hundredths nearest to the exact value, a tie to the even one. -/
def hundredths (x : Binary64) : Nat :=
  let a := x.quotient
  roundDiv (100 * a.1) a.2

def truncate (x : Binary64) : Nat :=
  let a := x.quotient
  a.1 / a.2

/-- The numbers beyond the greatest finite one. -/
def overflows (x : Binary64) : Bool := decide (971 < x.exp)

/-- The least number of decimal places that bring a quotient below one up to at least one tenth. -/
def leadingPlaces (num den : Nat) : Nat → Nat → Nat
  | 0, j => j
  | fuel + 1, j => if den ≤ num * Nat.pow 10 (j + 1) then j else leadingPlaces num den fuel (j + 1)

/-- The power of ten just above a positive quotient: the number of digits before the point, or minus
the number of zeros after it. -/
def decimalPoint (num den : Nat) : Int :=
  if den ≤ num then ((Nat.toDigits 10 (num / den)).length : Int)
  else -((leadingPlaces num den 400 0 : Nat) : Int)

/-- Decimal digits and the power of ten of the last one. -/
structure Digits where
  digits : Nat
  power : Int
deriving DecidableEq, Repr, Inhabited

/-- The decimal of `count` digits nearest to the number, if it lies closer to it than to any other
number. -/
def digitsOf? (x : Binary64) (point : Int) (count : Nat) : Option Digits :=
  let low := if x.mant = Nat.pow 2 52 ∧ -1074 < x.exp then 4 * x.mant - 1 else 4 * x.mant - 2
  let high := 4 * x.mant + 2
  let e := x.exp - 2
  let up := if 0 ≤ e then Nat.pow 2 e.toNat else 1
  let down := if 0 ≤ e then 1 else Nat.pow 2 (-e).toNat
  let k : Int := point - count
  let grow := if k < 0 then Nat.pow 10 (-k).toNat else 1
  let unit := down * (if 0 ≤ k then Nat.pow 10 k.toNat else 1)
  let value := 4 * x.mant * up * grow
  let c := roundDiv value unit
  let lo := low * up * grow
  let hi := high * up * grow
  let here := c * unit
  let inside := if x.mant % 2 = 0 then lo ≤ here ∧ here ≤ hi else lo < here ∧ here < hi
  if inside then some ⟨c, k⟩ else none

/-- The fewest decimal digits that read back as the number. -/
def shortest (x : Binary64) : Digits :=
  let a := x.quotient
  let point := decimalPoint a.1 a.2
  match (List.range 17).findSome? fun i => x.digitsOf? point (i + 1) with
  | some d => d
  | none => ⟨0, 0⟩

/-- The digits without trailing zeros and the place of the point counted from their start. -/
def significant (x : Binary64) : List Char × Int :=
  let d := x.shortest
  let all := Nat.toDigits 10 d.digits
  let kept := (all.reverse.dropWhile (· == '0')).reverse
  (kept, (all.length : Int) + d.power)

/-- The text of an exponent: a sign and at least two digits. -/
def exponentText (e : Int) : List Char :=
  let digits := Nat.toDigits 10 e.natAbs
  'e' :: (if e < 0 then '-' else '+') :: (if digits.length < 2 then '0' :: digits else digits)

/-- The text of the number: positional while the point falls between four places before the digits
and the sixteenth digit, with at least one digit after the point, and with an exponent otherwise. -/
def text (x : Binary64) : List Char :=
  if x.mant = 0 then ['0', '.', '0']
  else
    let (digits, point) := x.significant
    if -4 < point ∧ point ≤ 16 then
      if point ≤ 0 then '0' :: '.' :: List.replicate (-point).toNat '0' ++ digits
      else
        let n := point.toNat
        if digits.length ≤ n then digits ++ List.replicate (n - digits.length) '0' ++ ['.', '0']
        else digits.take n ++ '.' :: digits.drop n
    else
      let mantissa := match digits with
        | [d] => [d]
        | d :: rest => d :: '.' :: rest
        | [] => []
      mantissa ++ exponentText (point - 1)

end Binary64

end CadenceUplift
