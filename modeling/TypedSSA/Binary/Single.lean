/-!
# Single precision numbers

A binary floating point number of 32 bits, kept as its bits: a sign, an exponent of eight bits and
a fraction of 23. A number with exponent 0 is `fraction · 2^-149`, one with exponent `e` between 1
and 254 is `(2^23 + fraction) · 2^(e - 150)`, and exponent 255 is an infinity or not a number.
-/

namespace TypedSSA

/-- A number of the 32 bit format. -/
structure Single where
  bits : BitVec 32
deriving DecidableEq, Repr

namespace Single

/-- Whether the sign bit is set. -/
def negative (x : Single) : Bool := x.bits.msb

def exponent (x : Single) : Nat := x.bits.toNat >>> 23 % 256

def fraction (x : Single) : Nat := x.bits.toNat % 1 <<< 23

/-- The number with these three fields. -/
def ofFields (negative : Bool) (exponent fraction : Nat) : Single :=
  ⟨BitVec.ofNat 32 (negative.toNat <<< 31 + exponent <<< 23 + fraction)⟩

def isNaN (x : Single) : Bool := x.exponent == 255 && x.fraction != 0

def isZero (x : Single) : Bool := x.exponent == 0 && x.fraction == 0

/-- Equality as numbers: the two zeros are equal, and nothing equals what is not a number. -/
def numEq (x y : Single) : Bool :=
  !x.isNaN && !y.isNaN && (x.bits == y.bits || (x.isZero && y.isZero))

end Single

end TypedSSA
