import AtMark.Number.Shortest
import AtMark.Text.Basic

/-!
# `Number.Layout`: numbers as text

A layout says between which exponents a number is written positionally, with at least one digit on each side
of the point; outside them it is written with an exponent.
-/

namespace AtMark

/-- The decisions that a decimal leaves open: the exponents of the leading digit from which and below which
a number is written positionally, and the least number of digits of a written exponent. -/
structure Layout where
  plainFrom : Int
  plainBelow : Int
  exponentWidth : Nat
deriving DecidableEq, Repr

namespace Layout

/-- A text of digits filled up with zeros in front. -/
def padStart (width : Nat) (s : Text) : Text :=
  List.replicate (width - s.length) '0' ++ s

/-- Digits with the point behind the first `point` of them, which may be none or more than there are. -/
def positional (digits : Text) (point : Int) : Text :=
  if point ≤ 0 then "0." ++ List.replicate (-point).toNat '0' ++ digits
  else if digits.length ≤ point.toNat then
    digits ++ List.replicate (point.toNat - digits.length) '0' ++ ".0"
  else digits.take point.toNat ++ "." ++ digits.drop point.toNat

/-- Digits with the point behind the first one and an exponent. -/
def scientific (l : Layout) (digits : Text) (exponent : Int) : Text :=
  let fraction : Text := if digits.length ≤ 1 then [] else '.' :: digits.drop 1
  let sign : Text := if exponent < 0 then "-" else "+"
  digits.take 1 ++ fraction ++ "e" ++ sign ++ padStart l.exponentWidth (Text.ofNat exponent.natAbs)

/-- A decimal as text. -/
def decimal (l : Layout) (d : Decimal) : Text :=
  let digits := Text.ofNat d.digits
  let exponent := digits.length + d.exponent - 1
  if l.plainFrom ≤ exponent ∧ exponent < l.plainBelow then positional digits (exponent + 1)
  else l.scientific digits exponent

/-- A minus sign for a negative number. -/
def sign (negative : Bool) : Text :=
  if negative then "-" else []

/-- A number as text, with the fewest digits that read back. -/
def render (l : Layout) : Binary64 → Text
  | .finite negative 0 _ => sign negative ++ "0.0"
  | .finite negative m q => sign negative ++ l.decimal (Shortest.decimal m q)
  | .infinite negative => sign negative ++ "inf"
  | .notANumber => "nan"

end Layout
end AtMark
