import TypedSSA.Binary.Single

/-!
# Double precision numbers

A binary floating point number of 64 bits, kept as its bits: a sign, an exponent of eleven bits and
a fraction of 52. A number with exponent 0 is `fraction · 2^-1074`, one with exponent `e` between 1
and 2046 is `(2^52 + fraction) · 2^(e - 1075)`, and exponent 2047 is an infinity or not a number.

`Double.toSingle` rounds to the 32 bit format and `Single.toDouble` goes back without loss.
-/

namespace TypedSSA

/-- A number of the 64 bit format. Two are equal when their bits are. -/
structure Double where
  bits : BitVec 64
deriving DecidableEq, Repr

/-- `m / 2^k` rounded to the nearest integer, a half to the even neighbour. -/
def roundShift (m k : Nat) : Nat :=
  let q := m >>> k
  let unit := 1 <<< k
  let twice := 2 * (m % unit)
  if unit < twice ∨ (twice = unit ∧ q % 2 = 1) then q + 1 else q

namespace Double

/-- Whether the sign bit is set. -/
def negative (x : Double) : Bool := x.bits.msb

/-- The bits without the sign. On finite numbers their order is that of absolute values. -/
def magnitude (x : Double) : Nat := x.bits.toNat % 1 <<< 63

def exponent (x : Double) : Nat := x.magnitude >>> 52

def fraction (x : Double) : Nat := x.magnitude % 1 <<< 52

/-- The number with these three fields. -/
def ofFields (negative : Bool) (exponent fraction : Nat) : Double :=
  ⟨BitVec.ofNat 64 (negative.toNat <<< 63 + exponent <<< 52 + fraction)⟩

def isFinite (x : Double) : Bool := x.exponent != 2047

def isNaN (x : Double) : Bool := x.exponent == 2047 && x.fraction != 0

def isZero (x : Double) : Bool := x.magnitude == 0

/-- The integer `m` of a finite number `± m · 2^scale`. -/
def significand (x : Double) : Nat :=
  if x.exponent = 0 then x.fraction else 1 <<< 52 + x.fraction

/-- The power of two of a finite number `± significand · 2^scale`. -/
def scale (x : Double) : Int := (max x.exponent 1 : Nat) - 1075

/-- Equality as numbers: the two zeros are equal, and nothing equals what is not a number. -/
def numEq (x y : Double) : Bool :=
  !x.isNaN && !y.isNaN && (x.bits == y.bits || (x.isZero && y.isZero))

/-- The magnitude of the largest finite number of the 32 bit format, `(2^24 - 1) · 2^104`. -/
def singleMax : Nat := 0x47efffffe0000000

/-- Not finite, or no larger than every number of the 32 bit format. -/
def fitsSingle (x : Double) : Bool := !x.isFinite || decide (x.magnitude ≤ singleMax)

/-- Rounds to the nearest number of the 32 bit format, a half to the even neighbour. What is not a
number stays so, quietly, with the sign and the leading bits of its fraction. -/
def toSingle (x : Double) : Single :=
  if x.isNaN then
    .ofFields x.negative 255 (1 <<< 22 ||| x.fraction >>> 29)
  else if 1023 + 127 < x.exponent then
    .ofFields x.negative 255 0
  else if 1023 - 127 < x.exponent then
    -- The significand's leading bit adds one to the exponent field, and a carry one more.
    .ofFields x.negative (x.exponent - 897) (roundShift x.significand 29)
  else
    .ofFields x.negative 0 (roundShift x.significand (29 + (897 - max x.exponent 1)))

end Double

/-- The same number in the 64 bit format. -/
def Single.toDouble (x : Single) : Double :=
  if x.exponent = 255 then
    .ofFields x.negative 2047 (if x.fraction = 0 then 0 else 1 <<< 51 ||| x.fraction <<< 29)
  else if x.exponent = 0 then
    if x.fraction = 0 then .ofFields x.negative 0 0
    else
      let k := x.fraction.log2
      .ofFields x.negative (k + 874) ((x.fraction - 1 <<< k) <<< (52 - k))
  else .ofFields x.negative (x.exponent + 896) (x.fraction <<< 29)

end TypedSSA
