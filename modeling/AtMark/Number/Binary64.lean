/-!
# `Number.Binary64`: binary floating-point numbers

The finite numbers are m · 2^q with a mantissa of at most 53 bits and an exponent q of at least -1074.  A
decimal is rounded to the nearest of them, a tie to the even mantissa, in exact arithmetic on natural
numbers.
-/

namespace AtMark

/-- A binary floating-point number of 64 bits; the sign is kept at zero, too. -/
inductive Binary64 where
  | finite (negative : Bool) (mantissa : Nat) (exponent : Int)
  | infinite (negative : Bool)
  | notANumber
deriving DecidableEq, Repr

namespace Binary64

/-- The least exponent. -/
def minExponent : Int := -1074

/-- The greatest exponent of a mantissa of 53 bits. -/
def maxExponent : Int := 971

/-- A power of two. -/
def twoTo (n : Nat) : Nat :=
  Nat.pow 2 n

/-- A power of ten. -/
def tenTo (n : Nat) : Nat :=
  Nat.pow 10 n

/-- A ratio of natural numbers times a power of two, as a ratio. -/
def scaleByTwo (num den : Nat) (q : Int) : Nat × Nat :=
  (num * twoTo q.toNat, den * twoTo (-q).toNat)

/-- The integer nearest to a ratio, the even one of two. -/
def roundRatio (num den : Nat) : Nat :=
  let whole := num / den
  let twice := 2 * (num % den)
  if twice < den then whole else if den < twice then whole + 1 else whole + whole % 2

/-- The greatest exponent of a power of two that is not above a positive ratio. -/
def leadingBit (num den : Nat) : Int :=
  let guess : Int := num.log2 - den.log2
  let (a, b) := scaleByTwo num den (-guess)
  if a < b then guess - 1 else guess

/-- The number nearest to a ratio. -/
def ofRatio (negative : Bool) (num den : Nat) : Binary64 :=
  if num = 0 then finite negative 0 minExponent
  else
    let q := max (leadingBit num den - 52) minExponent
    let (a, b) := scaleByTwo num den (-q)
    let m := roundRatio a b
    let (m, q) := if m = twoTo 53 then (twoTo 52, q + 1) else (m, q)
    if maxExponent < q then infinite negative else finite negative m q

/-- How many decimal digits a natural number has. -/
def digitCount (n : Nat) : Nat :=
  (Nat.toDigits 10 n).length

/-- The number nearest to digits · 10^exponent.  Far beyond the greatest number and far below the least one
the answer does not depend on the digits, so no huge power is ever formed. -/
def ofDecimal (negative : Bool) (digits : Nat) (exponent : Int) : Binary64 :=
  let size := digitCount digits + exponent
  if digits = 0 ∨ size < -330 then finite negative 0 minExponent
  else if 310 < size then infinite negative
  else ofRatio negative (digits * tenTo exponent.toNat) (tenTo (-exponent).toNat)

end Binary64
end AtMark
