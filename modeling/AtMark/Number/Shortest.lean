import AtMark.Number.Binary64

/-!
# `Number.Shortest`: the shortest decimal of a number

A number of 64 bits is written with the fewest digits that read back as the same number, and among those
with the digits nearest to it.  On the grid of `k` digits only the two neighbours of the number need a
look; the first grid with one that reads back is taken.
-/

namespace AtMark

/-- The decimal digits · 10^exponent. -/
structure Decimal where
  digits : Nat
  exponent : Int
deriving DecidableEq, Repr

namespace Decimal

/-- A decimal as a ratio. -/
def ratio (d : Decimal) : Nat × Nat :=
  (d.digits * Binary64.tenTo d.exponent.toNat, Binary64.tenTo (-d.exponent).toNat)

/-- A decimal without trailing zeros. -/
def normalize (digits : Nat) (exponent : Int) : Decimal :=
  if 0 < digits ∧ digits % 10 = 0 then normalize (digits / 10) (exponent + 1)
  else ⟨digits, exponent⟩
termination_by digits
decreasing_by omega

end Decimal

namespace Shortest

/-- The sign of the difference of two ratios. -/
def compareRatios (a b : Nat × Nat) : Ordering :=
  compare (a.1 * b.2) (b.1 * a.2)

/-- Does a decimal read back as m · 2^q?  It does inside the interval between the midpoints to the
neighbours, and at the midpoints themselves when m is even.  Below a power of two the neighbour is nearer. -/
def readsBack (m : Nat) (q : Int) (d : Decimal) : Bool :=
  let near : Bool := m == Binary64.twoTo 52 && decide (Binary64.minExponent < q)
  let low := Binary64.scaleByTwo (if near then 4 * m - 1 else 4 * m - 2) 1 (q - 2)
  let high := Binary64.scaleByTwo (4 * m + 2) 1 (q - 2)
  let inside (o : Ordering) : Bool := o == .lt || (m % 2 == 0 && o == .eq)
  inside (compareRatios low d.ratio) && inside (compareRatios d.ratio high)

/-- The greatest exponent of a power of ten that is not above a positive ratio. -/
def leadingDigit (num den : Nat) : Int :=
  if den ≤ num then (Binary64.digitCount (num / den) : Int) - 1
  else -(Binary64.digitCount ((den - 1) / num) : Int)

/-- The decimal of `count` digits that is taken for m · 2^q, if one of them reads back. -/
def candidate? (m : Nat) (q : Int) (count : Nat) : Option Decimal :=
  let (num, den) := Binary64.scaleByTwo m 1 q
  let exponent := leadingDigit num den - (count - 1 : Nat)
  let unit : Nat × Nat := (Binary64.tenTo exponent.toNat, Binary64.tenTo (-exponent).toNat)
  let below := num * unit.2 / (den * unit.1)
  let low : Decimal := ⟨below, exponent⟩
  let high : Decimal := ⟨below + 1, exponent⟩
  match readsBack m q low, readsBack m q high with
  | true, true =>
    match compareRatios (2 * num, den) ((2 * below + 1) * unit.1, unit.2) with
    | .lt => some low
    | .gt => some high
    | .eq => some (if below % 2 = 0 then low else high)
  | true, false => some low
  | false, true => some high
  | false, false => none

/-- The shortest decimal of m · 2^q.  Seventeen digits always suffice. -/
def decimal (m : Nat) (q : Int) : Decimal :=
  match (List.range 17).findSome? fun k => candidate? m q (k + 1) with
  | some d => Decimal.normalize d.digits d.exponent
  | none => ⟨m * Binary64.twoTo q.toNat * Nat.pow 5 (-q).toNat, min q 0⟩

end Shortest
end AtMark
