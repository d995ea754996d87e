import TypedSSA.Binary.Double
import TypedSSA.Decimal.Shortest

/-!
# The text of a number

A number is written with the fewest digits that read back (`Double.text`), always with a point or
an exponent. The bits of a number are also written in hexadecimal (`Double.hex`).
-/

namespace TypedSSA

namespace Double

/-- The numbers that read as `x`, a positive finite number: half the way to its neighbours. The one
below a power of two is nearer than the one above, unless the exponent is the least. -/
def rounding (x : Double) : Decimal.Rounding :=
  let m := x.significand
  let below := if x.fraction = 0 ∧ 1 < x.exponent then 1 else 2
  let up := (x.scale - 2).toNat
  { low := (4 * m - below) <<< up
    value := (4 * m) <<< up
    high := (4 * m + 2) <<< up
    den := 1 <<< (2 - x.scale).toNat
    closed := m % 2 == 0 }

/-- Numbers from `0.0001` up to `10^16` are written without an exponent. -/
def layout : Decimal.Layout := ⟨-3, 16⟩

/-- The text of a number. What is not a number has no sign. -/
def text (x : Double) : String :=
  if x.isNaN then "NaN"
  else
    let magnitude :=
      if !x.isFinite then "inf"
      else if x.isZero then "0.0"
      else Decimal.text layout (Decimal.shortest x.rounding)
    if x.negative then "-" ++ magnitude else magnitude

/-- The bits as 16 hexadecimal digits. -/
def hex (x : Double) : String :=
  let ds := Nat.toDigits 16 x.bits.toNat
  String.ofList (List.replicate (16 - ds.length) '0' ++ ds)

end Double

end TypedSSA
