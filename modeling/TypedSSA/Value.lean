import TypedSSA.Fault

/-!
# Values

What an instruction reads: a constant that fits its type, or a local. A local that a function body
issued carries the scope of that body; one written by hand carries none and is matched by its name
alone.
-/

namespace TypedSSA

/-- An operand with its type. -/
inductive Value where
  | const (ty : Scalar) (c : Const) (fits : c.fits ty = true)
  | loc (ty : Scalar) (name : LocalName) (scope : Option Scope)
deriving DecidableEq

namespace Value

/-- A constant of type `ty`, if it fits. -/
def ofConst (ty : Scalar) (c : Const) : Except Fault Value :=
  if h : c.fits ty = true then .ok (const ty c h) else .error (.constantOutOfRange ty c)

def ty : Value → Scalar
  | const ty _ _ => ty
  | loc ty _ _ => ty

/-- The name of a local. -/
def name? : Value → Option LocalName
  | const .. => none
  | loc _ name _ => some name

/-- The scope of a local that has one. -/
def scope? : Value → Option Scope
  | const .. => none
  | loc _ _ scope => scope

end Value

end TypedSSA
