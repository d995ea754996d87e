/-!
# The fewest digits that read back

A reader of decimal numbers rounds to the nearest number that it can hold, so a whole interval of
decimals reads as the same number. `shortest` finds, for a number given as an interval around it,
a decimal in that interval with the fewest digits, and of those the nearest to the number. Two
decimals at the same distance give the larger.
-/

namespace TypedSSA

/-- The number `digits · 10^exponent`. -/
structure Decimal where
  digits : Nat
  exponent : Int
deriving DecidableEq, Repr

namespace Decimal

/-- A positive number `value / den`, between the ends `low / den` and `high / den` of what reads as
that number. The ends read as it too if `closed`. -/
structure Rounding where
  low : Nat
  value : Nat
  high : Nat
  den : Nat
  closed : Bool
deriving Repr

namespace Rounding

/-- The same numbers in units of `10^j`. -/
def inUnits (r : Rounding) (j : Int) : Rounding :=
  if 0 ≤ j then { r with den := r.den * Nat.pow 10 j.toNat }
  else
    let k := Nat.pow 10 (-j).toNat
    { r with low := r.low * k, value := r.value * k, high := r.high * k }

/-- Whether the integer `d` reads as the number. -/
def contains (r : Rounding) (d : Nat) : Bool :=
  let n := d * r.den
  if r.closed then decide (r.low ≤ n ∧ n ≤ r.high) else decide (r.low < n ∧ n < r.high)

/-- The nearest integer that reads as the number, of the two around it. -/
def nearest? (r : Rounding) : Option Nat :=
  let d := r.value / r.den
  match r.contains d, r.contains (d + 1) with
  | false, false => none
  | true, false => some d
  | false, true => some (d + 1)
  | true, true => if r.den ≤ 2 * (r.value % r.den) then some (d + 1) else some d

/-- Whether the number is at least `10^j`. -/
def atLeast (r : Rounding) (j : Int) : Bool :=
  let s := r.inUnits j
  decide (s.den ≤ s.value)

/-- The `p` with `10^(p - 1) ≤ number < 10^p`. The binary logarithm gives it up to one. -/
def point (r : Rounding) : Int :=
  let guess := (((r.value.log2 : Int) - r.den.log2) * 30103).fdiv 100000
  if r.atLeast (guess + 1) then guess + 2
  else if r.atLeast guess then guess + 1
  else if r.atLeast (guess - 1) then guess
  else guess - 1

end Rounding

/-- Drops the zeros at the end of the digits. -/
def trim (digits : Nat) (exponent : Int) : Decimal :=
  if h : digits ≠ 0 ∧ digits % 10 = 0 then trim (digits / 10) (exponent + 1)
  else ⟨digits, exponent⟩
termination_by digits
decreasing_by omega

/-- The decimal with the fewest digits that reads as the number, and the nearest of those. -/
def shortest (r : Rounding) : Decimal :=
  let p := r.point
  let found := (List.range 17).findSome? fun k =>
    let j := p - (k + 1 : Nat)
    ((r.inUnits j).nearest?).map fun d => trim d j
  found.getD
    (let j := p - 17
     let s := r.inUnits j
     trim (s.value / s.den) j)

/-- Where a decimal is written without an exponent: the number of digits before its point, zero or
less for `0.1`, `0.01` and so on, lies between `first` and `last`. -/
structure Layout where
  first : Int
  last : Int

/-- Writes a positive decimal. Without an exponent there is a digit on both sides of the point. With
one, there is a point only between digits, and a sign only before a negative exponent. -/
def text (l : Layout) (d : Decimal) : String :=
  let ds := Nat.toDigits 10 d.digits
  let p : Int := ds.length + d.exponent
  if l.first ≤ p ∧ p ≤ l.last then
    if p ≤ 0 then
      String.ofList ('0' :: '.' :: (List.replicate (-p).toNat '0' ++ ds))
    else if (ds.length : Int) ≤ p then
      String.ofList (ds ++ List.replicate d.exponent.toNat '0' ++ ['.', '0'])
    else
      String.ofList (ds.take p.toNat ++ '.' :: ds.drop p.toNat)
  else
    let mantissa := match ds with
      | a :: b :: rest => a :: '.' :: b :: rest
      | short => short
    String.ofList mantissa ++ "e" ++ toString (p - 1)

end Decimal

end TypedSSA
