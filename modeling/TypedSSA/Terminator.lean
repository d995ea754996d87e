import TypedSSA.Instr

/-!
# Terminators

The instruction at the end of a block: a return, or a branch to other blocks.
-/

namespace TypedSSA

/-- The instruction that ends a block. -/
inductive Terminator where
  /-- Returns from a function without a result. -/
  | ret
  | retVal (value : Value)
  | br (target : Label)
  | condBr (condition : Value) (ifTrue ifFalse : Label)
  /-- Goes to the block of the case that equals `scrutinee`, or else to `default`. -/
  | switch (scrutinee : Value) (default : Label) (cases : List (Const × Label))
deriving DecidableEq

/-- The first element that stands at an earlier place too. `seen` are elements before the list. -/
def firstRepeat {α : Type} [DecidableEq α] : (seen : List α) → List α → Option α
  | _, [] => none
  | seen, x :: xs => if x ∈ seen then some x else firstRepeat (x :: seen) xs

/-- Refuses a case value that comes twice. -/
def checkDistinctCases (cases : List (Const × Label)) : Except Fault Unit :=
  match firstRepeat [] (cases.map (·.1)) with
  | some value => .error (.duplicateSwitchCase value)
  | none => .ok ()

namespace Terminator

/-- Refuses a terminator that cannot end a block of a function with result type `result`. -/
def check (result : Ty) : Terminator → Except Fault Unit
  | ret => if result = .void then .ok () else .error (.typeMismatch result .void)
  | retVal value =>
    if .scalar value.ty = result then .ok () else .error (.typeMismatch result (.scalar value.ty))
  | br _ => .ok ()
  | condBr condition _ _ => expectType .bool condition.ty
  | switch scrutinee _ cases =>
    let ty := scrutinee.ty
    if ty.isIntegral then
      match cases.find? fun (value, _) => !value.fits ty with
      | some (value, _) => .error (.constantOutOfRange ty value)
      | none => checkDistinctCases cases
    else .error (.unsupportedOperand "switch" ty)

/-- The blocks that control may go to, once for each way to get there. -/
def successors : Terminator → List Label
  | ret | retVal _ => []
  | br target => [target]
  | condBr _ ifTrue ifFalse => [ifTrue, ifFalse]
  | switch _ default cases => default :: cases.map (·.2)

/-- The values read. -/
def operands : Terminator → List Value
  | ret | br _ => []
  | retVal value => [value]
  | condBr condition _ _ => [condition]
  | switch scrutinee _ _ => [scrutinee]

end Terminator

end TypedSSA
