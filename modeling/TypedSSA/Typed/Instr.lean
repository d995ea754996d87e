import TypedSSA.Terminator
import TypedSSA.Typed.Bounds
import TypedSSA.Typed.Operand

/-!
# Typed instructions and terminators

`Typed.Instr t` are the instructions with a result of type `t`, and `Typed.Terminator r` those that
end a block of a function with result type `r`. Each constructor is a typing rule, and asks for the
bounds that the rule puts on its types. `erase` forgets the types; `Instr.ofErased` and
`Terminator.ofErased` find a typed form, or say that there is none.
-/

namespace TypedSSA.Typed

/-- Why there is no typed form: no constructor takes these types, or there is a fault that the
types do not show. -/
inductive Rejection where
  | noForm
  | fault (f : Fault)
deriving DecidableEq, Repr

/-- An instruction with a result of type `t`. -/
inductive Instr : Ty → Type where
  | binary (op : BinOp) {l r : Scalar} (lhs : Operand l) (rhs : Operand r)
      (admits : op.Admits l r) : Instr (.scalar l)
  | cast (op : CastOp) {s : Scalar} (value : Operand s) (t : Scalar) (admits : op.Admits s t) :
      Instr (.scalar t)
  | cmp (predicate : Predicate) {s : Scalar} (lhs rhs : Operand s) : Instr (.scalar .bool)
  | select {t : Scalar} (condition : Operand .bool) (ifTrue ifFalse : Operand t) : Instr (.scalar t)
  | phi {t : Scalar} (incoming : List (Operand t × Label)) (nonempty : incoming ≠ []) :
      Instr (.scalar t)
  | call (callee : Label) {params : List Scalar} {ret : Ty} (args : Args params)
      (attributes : List Attribute) : Instr ret

namespace Instr

/-- Forgets the static type. An attribute that was given twice is kept once. -/
def erase {t : Ty} : Instr t → TypedSSA.Instr
  | binary op lhs rhs _ => .binary op lhs.erase rhs.erase
  | cast op value target _ => .cast op value.erase target
  | cmp predicate lhs rhs => .cmp predicate lhs.erase rhs.erase
  | select condition ifTrue ifFalse => .select condition.erase ifTrue.erase ifFalse.erase
  | @phi t incoming _ => .phi t (incoming.map fun (value, label) => (value.erase, label))
  | @call callee params ret args attributes =>
    .call callee ⟨params, ret⟩ args.values attributes.eraseDups

/-- The operand of type `t` for a value. -/
def operand (t : Scalar) (v : Value) : Except Rejection (Operand t) :=
  (Operand.ofValue? t v).elim (.error .noForm) .ok

/-- The typed form of an instruction, with the type of its result. -/
def ofErased : TypedSSA.Instr → Except Rejection ((t : Ty) × Instr t)
  | .binary op lhs rhs =>
    if h : op.Admits lhs.ty rhs.ty then do
      return ⟨_, binary op (← operand lhs.ty lhs) (← operand rhs.ty rhs) h⟩
    else .error .noForm
  | .cast op value target =>
    if h : op.Admits value.ty target then do
      return ⟨_, cast op (← operand value.ty value) target h⟩
    else .error .noForm
  | .cmp predicate lhs rhs => do
    return ⟨_, cmp predicate (← operand lhs.ty lhs) (← operand lhs.ty rhs)⟩
  | .select condition ifTrue ifFalse => do
    return ⟨_, select (← operand .bool condition) (← operand ifTrue.ty ifTrue)
      (← operand ifTrue.ty ifFalse)⟩
  | .phi ty incoming => do
    let typed ← incoming.mapM fun (value, label) => do return (← operand ty value, label)
    if h : typed ≠ [] then return ⟨_, phi typed h⟩ else .error (.fault .emptyPhi)
  | .call callee type args attributes =>
    match Args.ofValues? type.params args with
    | some typed => .ok ⟨type.ret, call callee typed attributes⟩
    | none => .error .noForm

end Instr

/-- The end of a block in a function with result type `r`. -/
inductive Terminator : Ty → Type where
  | ret : Terminator .void
  | retVal {t : Scalar} (value : Operand t) : Terminator (.scalar t)
  | br {r : Ty} (target : Label) : Terminator r
  | condBr {r : Ty} (condition : Operand .bool) (ifTrue ifFalse : Label) : Terminator r
  | switch {r : Ty} {s : Scalar} (integral : IsIntegral s) (scrutinee : Operand s)
      (default : Label) (cases : List (Literal s × Label))
      (distinct : firstRepeat [] (cases.map fun c => c.1.toConst) = none) : Terminator r

namespace Terminator

/-- Forgets the static type. -/
def erase {r : Ty} : Terminator r → TypedSSA.Terminator
  | ret => .ret
  | retVal value => .retVal value.erase
  | br target => .br target
  | condBr condition ifTrue ifFalse => .condBr condition.erase ifTrue ifFalse
  | switch _ scrutinee default cases _ =>
    .switch scrutinee.erase default (cases.map fun (value, label) => (value.toConst, label))

/-- The typed form of a terminator for functions with result type `r`. -/
def ofErased (r : Ty) : TypedSSA.Terminator → Except Rejection (Terminator r)
  | .ret =>
    match r with
    | .void => .ok ret
    | .scalar _ => .error .noForm
  | .retVal value =>
    match r with
    | .void => .error .noForm
    | .scalar t => do return retVal (← Instr.operand t value)
  | .br target => .ok (br target)
  | .condBr condition ifTrue ifFalse => do
    return condBr (← Instr.operand .bool condition) ifTrue ifFalse
  | .switch scrutinee default cases =>
    if h : IsIntegral scrutinee.ty then do
      let typed ← Instr.operand scrutinee.ty scrutinee
      let literals ← cases.mapM fun (value, label) =>
        ((Literal.ofConst? scrutinee.ty value).elim (.error .noForm)
          fun l => .ok (l, label) : Except Rejection (Literal scrutinee.ty × Label))
      match d : firstRepeat [] (literals.map fun c => c.1.toConst) with
      | some value => .error (.fault (.duplicateSwitchCase value))
      | none => return switch h typed default literals d
    else .error .noForm

end Terminator

end TypedSSA.Typed
