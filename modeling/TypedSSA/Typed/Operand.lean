import TypedSSA.Binary.Lemmas
import TypedSSA.Value

/-!
# Typed operands

Operands whose type is a parameter of their Lean type, so that code made of them is well typed by
construction. A literal is a number that its type can hold exactly: in particular an `f32` literal
has 32 bits. `Operand.erase` forgets the type, and `Operand.ofValue?` finds it again.
-/

namespace TypedSSA.Typed

/-- A constant of type `t`. -/
inductive Literal : Scalar → Type where
  | bool (b : Bool) : Literal .bool
  | int {t : Scalar} (v : Int) (inRange : t.hasInt v = true) : Literal t
  | single (x : Single) : Literal .f32
  | double (x : Double) : Literal .f64
deriving DecidableEq

namespace Literal

def toConst {t : Scalar} : Literal t → Const
  | bool b => .bool b
  | int v _ => .int v
  | single x => .float x.toDouble
  | double x => .float x

theorem fits_toConst {t : Scalar} (l : Literal t) : l.toConst.fits t = true := by
  cases l with
  | bool b => rfl
  | int v h => exact h
  | single x => exact x.fitsSingle_toDouble
  | double x => rfl

/-- The literal of type `t` for a constant. A number is rounded to the format of `t`. -/
def ofConst? : (t : Scalar) → Const → Option (Literal t)
  | .bool, .bool b => some (bool b)
  | .f32, .float x => some (single x.toSingle)
  | .f64, .float x => some (double x)
  | t, .int v => if h : t.hasInt v = true then some (int v h) else none
  | _, _ => none

/-- Equality as numbers, which is that of constants but for floating types: there the two zeros are
equal, and nothing equals what is not a number. -/
def numEq {t : Scalar} : Literal t → Literal t → Bool
  | single x, single y => x.numEq y
  | double x, double y => x.numEq y
  | x, y => decide (x = y)

end Literal

/-- A local of type `t` that the body with this scope issued. -/
structure Name (t : Scalar) where
  scope : Scope
  loc : LocalName
deriving DecidableEq, Repr

/-- What an instruction reads at type `t`. -/
inductive Operand (t : Scalar) where
  | literal (l : Literal t)
  | name (n : Name t)
deriving DecidableEq

namespace Operand

/-- Forgets the static type. -/
def erase {t : Scalar} : Operand t → Value
  | literal l => .const t l.toConst l.fits_toConst
  | name n => .loc t n.loc (some n.scope)

@[simp] theorem ty_erase {t : Scalar} (o : Operand t) : o.erase.ty = t := by
  cases o <;> rfl

/-- The operand of type `t` for a value: a constant or a scoped local of that type. -/
def ofValue? (t : Scalar) : Value → Option (Operand t)
  | .const ty c _ => if ty = t then (Literal.ofConst? t c).map literal else none
  | .loc ty n (some scope) => if ty = t then some (name ⟨scope, n⟩) else none
  | .loc _ _ none => none

/-- Equality with literals compared as numbers. -/
def numEq {t : Scalar} : Operand t → Operand t → Bool
  | literal x, literal y => x.numEq y
  | name x, name y => decide (x = y)
  | _, _ => false

end Operand

/-- The operands of a call, one for each parameter. -/
inductive Args : List Scalar → Type where
  | nil : Args []
  | cons {p : Scalar} {ps : List Scalar} (a : Operand p) (rest : Args ps) : Args (p :: ps)

namespace Args

/-- The operands as values. -/
def values {ps : List Scalar} : Args ps → List Value
  | nil => []
  | cons a rest => a.erase :: rest.values

/-- The operands for a list of values, if it has one of the right type for each parameter. -/
def ofValues? : (ps : List Scalar) → List Value → Option (Args ps)
  | [], [] => some nil
  | p :: ps, v :: vs => do return cons (← Operand.ofValue? p v) (← ofValues? ps vs)
  | _, _ => none

end Args

end TypedSSA.Typed
