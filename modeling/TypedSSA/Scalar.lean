/-!
# Scalar types

The types of values (`Scalar`), and the types of results (`Ty`), which add `()` for code that
produces nothing. Scalars are ordered by their place in `Scalar.all`, and compared by width with
`Scalar.compareWidth`, which looks at neither sign nor domain.
-/

namespace TypedSSA

/-- The type of a value. -/
inductive Scalar where
  | bool
  | i8
  | i16
  | i32
  | i64
  | u8
  | u16
  | u32
  | u64
  | f32
  | f64
deriving DecidableEq, Repr

namespace Scalar

/-- Every scalar type, in ascending order. -/
def all : List Scalar := [bool, i8, i16, i32, i64, u8, u16, u32, u64, f32, f64]

/-- The place of a type in `all`. -/
def rank : Scalar → Nat
  | bool => 0
  | i8 => 1
  | i16 => 2
  | i32 => 3
  | i64 => 4
  | u8 => 5
  | u16 => 6
  | u32 => 7
  | u64 => 8
  | f32 => 9
  | f64 => 10

/-- The number of bits of a value. -/
def width : Scalar → Nat
  | bool => 1
  | i8 | u8 => 8
  | i16 | u16 => 16
  | i32 | u32 | f32 => 32
  | i64 | u64 | f64 => 64

def isSigned : Scalar → Bool
  | i8 | i16 | i32 | i64 => true
  | _ => false

def isUnsigned : Scalar → Bool
  | u8 | u16 | u32 | u64 => true
  | _ => false

def isIntegral (t : Scalar) : Bool := t.isSigned || t.isUnsigned

def isFloat : Scalar → Bool
  | f32 | f64 => true
  | _ => false

def isBool : Scalar → Bool
  | bool => true
  | _ => false

/-- Integral or floating. -/
def isNum (t : Scalar) : Bool := t.isIntegral || t.isFloat

/-- Compares two types by width alone. -/
def compareWidth (s t : Scalar) : Ordering := compare s.width t.width

instance : Ord Scalar where
  compare s t := compare s.rank t.rank

def name : Scalar → String
  | bool => "bool"
  | i8 => "i8"
  | i16 => "i16"
  | i32 => "i32"
  | i64 => "i64"
  | u8 => "u8"
  | u16 => "u16"
  | u32 => "u32"
  | u64 => "u64"
  | f32 => "f32"
  | f64 => "f64"

/-- The type written `s`. -/
def ofName? (s : String) : Option Scalar := all.find? fun t => t.name == s

theorem mem_all (t : Scalar) : t ∈ all := by cases t <;> decide

end Scalar

/-- The type of a result: a scalar, or nothing. -/
inductive Ty where
  | void
  | scalar (t : Scalar)
deriving DecidableEq, Repr

namespace Ty

def isVoid : Ty → Bool
  | void => true
  | scalar _ => false

def scalar? : Ty → Option Scalar
  | void => none
  | scalar t => some t

/-- Nothing comes before every scalar. -/
protected def compare : Ty → Ty → Ordering
  | void, void => .eq
  | void, scalar _ => .lt
  | scalar _, void => .gt
  | scalar s, scalar t => Ord.compare s t

instance : Ord Ty := ⟨Ty.compare⟩

def name : Ty → String
  | void => "()"
  | scalar t => t.name

/-- The type written `s`. -/
def ofName? (s : String) : Option Ty :=
  if s = "()" then some void else (Scalar.ofName? s).map scalar

end Ty

end TypedSSA
