import TypedSSA.Binary.Text
import TypedSSA.Scalar

/-!
# Constants

A constant is a truth value, an integer or a number of the 64 bit format, and has no type of its
own. `Const.fits` says of which types it is a value. Floating constants are told apart by their
bits, so `0.0` and `-0.0` are two constants.
-/

namespace TypedSSA

namespace Scalar

/-- The least integer of an integral type. -/
def minInt (t : Scalar) : Int := if t.isSigned then -((1 <<< (t.width - 1) : Nat) : Int) else 0

/-- The greatest integer of an integral type. -/
def maxInt (t : Scalar) : Int :=
  if t.isSigned then ((1 <<< (t.width - 1) : Nat) : Int) - 1 else ((1 <<< t.width : Nat) : Int) - 1

/-- Whether `v` is a value of the integral type `t`. -/
def hasInt (t : Scalar) (v : Int) : Bool :=
  t.isIntegral && decide (t.minInt ≤ v) && decide (v ≤ t.maxInt)

end Scalar

/-- Constant data, without a type. -/
inductive Const where
  | bool (b : Bool)
  | int (v : Int)
  | float (x : Double)
deriving DecidableEq, Repr

namespace Const

/-- Whether the constant can be a value of type `t`. Only the range counts for `f32`: a number
between two of that type fits. -/
def fits : Const → Scalar → Bool
  | bool _, t => t.isBool
  | int v, t => t.hasInt v
  | float x, .f32 => x.fitsSingle
  | float _, .f64 => true
  | float _, _ => false

def text : Const → String
  | bool true => "true"
  | bool false => "false"
  | int v => toString v
  | float x => x.text

end Const

end TypedSSA
