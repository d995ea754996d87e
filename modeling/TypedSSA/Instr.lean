import TypedSSA.Value

/-!
# Instructions

The operations that compute, and how they are checked. `Instr.check` gives the type of the result
or the first fault.
-/

namespace TypedSSA

/-- An operation on two operands. -/
inductive BinOp where
  | add
  | sub
  | mul
  /-- Integer division, toward zero. -/
  | quot
  /-- Integer remainder, with the sign of the dividend. -/
  | rem
  /-- Floating division. -/
  | div
  | shl
  | lshr
  | ashr
  | and
  | or
  | xor
deriving DecidableEq, Repr

namespace BinOp

def all : List BinOp := [add, sub, mul, quot, rem, div, shl, lshr, ashr, and, or, xor]

def name : BinOp → String
  | add => "add"
  | sub => "sub"
  | mul => "mul"
  | quot => "quot"
  | rem => "rem"
  | div => "div"
  | shl => "shl"
  | lshr => "lshr"
  | ashr => "ashr"
  | and => "and"
  | or => "or"
  | xor => "xor"

/-- The operation written `s`. -/
def ofName? (s : String) : Option BinOp := all.find? fun op => op.name == s

def isShift : BinOp → Bool
  | shl | lshr | ashr => true
  | _ => false

/-- Whether operands of type `t` make sense, whatever stands on the right. -/
def supports : BinOp → Scalar → Bool
  | add, t | sub, t | mul, t => t.isNum
  | div, t => t.isFloat
  | _, t => t.isIntegral

end BinOp

/-- Refuses a type that is not the expected one. -/
def expectType (expected found : Scalar) : Except Fault Unit :=
  if expected = found then .ok () else .error (.typeMismatch (.scalar expected) (.scalar found))

namespace BinOp

/-- The type of the result. The amount of a shift is a `u64`; other operands have one type. -/
def check (op : BinOp) (lhs rhs : Scalar) : Except Fault Scalar :=
  if op.isShift then
    if op.supports lhs then do
      expectType .u64 rhs
      return lhs
    else .error (.unsupportedOperand op.name lhs)
  else do
    expectType lhs rhs
    if op.supports lhs then return lhs else .error (.unsupportedOperand op.name lhs)

end BinOp

/-- A conversion between types. -/
inductive CastOp where
  | trunc
  | fptrunc
  /-- Extends the sign of signed integers and adds zeros to others. -/
  | ext
  | fpext
  | fptoint
  | inttofp
  | bitcast
deriving DecidableEq, Repr

namespace CastOp

def all : List CastOp := [trunc, fptrunc, ext, fpext, fptoint, inttofp, bitcast]

def name : CastOp → String
  | trunc => "trunc"
  | fptrunc => "fptrunc"
  | ext => "ext"
  | fpext => "fpext"
  | fptoint => "fptoint"
  | inttofp => "inttofp"
  | bitcast => "bitcast"

/-- The conversion written `s`. -/
def ofName? (s : String) : Option CastOp := all.find? fun op => op.name == s

/-- Refuses a conversion between types whose domains or widths do not fit it. -/
def check (op : CastOp) (source target : Scalar) : Except Fault Unit :=
  let width := source.compareWidth target
  let legal := match op with
    | trunc => source.isIntegral && target.isIntegral && width.isGT
    | fptrunc => source.isFloat && target.isFloat && width.isGT
    | ext => source.isIntegral && target.isIntegral && width.isLT
    | fpext => source.isFloat && target.isFloat && width.isLT
    | fptoint => source.isFloat && target.isIntegral
    | inttofp => source.isIntegral && target.isFloat
    | bitcast => width.isEq
  if legal then .ok () else .error (.invalidCast op.name source target)

end CastOp

/-- A comparison. -/
inductive Predicate where
  | eq
  | ne
  | lt
  | le
  | gt
  | ge
deriving DecidableEq, Repr

namespace Predicate

def all : List Predicate := [eq, ne, lt, le, gt, ge]

def name : Predicate → String
  | eq => "eq"
  | ne => "ne"
  | lt => "lt"
  | le => "le"
  | gt => "gt"
  | ge => "ge"

/-- The comparison written `s`. -/
def ofName? (s : String) : Option Predicate := all.find? fun p => p.name == s

end Predicate

/-- What the caller promises about a call. Nothing checks it. -/
inductive Attribute where
  | noReturn
  | noUnwind
  | readOnly
  | readNone
deriving DecidableEq, Repr

namespace Attribute

def all : List Attribute := [noReturn, noUnwind, readOnly, readNone]

def name : Attribute → String
  | noReturn => "noreturn"
  | noUnwind => "nounwind"
  | readOnly => "readonly"
  | readNone => "readnone"

/-- The attribute written `s`. -/
def ofName? (s : String) : Option Attribute := all.find? fun a => a.name == s

end Attribute

/-- Refuses arguments that are not one per parameter, each of its type, starting to count at
`index`. -/
def checkArgs (callee : Label) : (index : Nat) → List Scalar → List Value → Except Fault Unit
  | index, p :: ps, a :: as =>
    if a.ty = p then checkArgs callee (index + 1) ps as
    else .error (.callArgumentMismatch callee index a.ty p)
  | _, _, _ => .ok ()

/-- Refuses a call of a function of type `f` with these arguments. Their number is looked at
first. -/
def FuncType.checkArguments (f : FuncType) (callee : Label) (args : List Value) :
    Except Fault Unit :=
  if args.length = f.params.length then checkArgs callee 0 f.params args
  else .error (.callArityMismatch callee args.length f.params.length)

/-- An instruction that does not end a block. -/
inductive Instr where
  | binary (op : BinOp) (lhs rhs : Value)
  | cast (op : CastOp) (value : Value) (target : Scalar)
  | cmp (predicate : Predicate) (lhs rhs : Value)
  | select (condition ifTrue ifFalse : Value)
  | phi (ty : Scalar) (incoming : List (Value × Label))
  | call (callee : Label) (type : FuncType) (args : List Value) (attributes : List Attribute)
deriving DecidableEq

namespace Instr

/-- The type of the result, or the first fault. -/
def check : Instr → Except Fault Ty
  | binary op lhs rhs => do return .scalar (← op.check lhs.ty rhs.ty)
  | cast op value target => do
    op.check value.ty target
    return .scalar target
  | cmp _ lhs rhs => do
    expectType lhs.ty rhs.ty
    return .scalar .bool
  | select condition ifTrue ifFalse => do
    expectType .bool condition.ty
    expectType ifTrue.ty ifFalse.ty
    return .scalar ifTrue.ty
  | phi _ [] => .error .emptyPhi
  | phi ty incoming => do
    incoming.forM fun (value, _) => expectType ty value.ty
    return .scalar ty
  | call callee type args _ => do
    type.checkArguments callee args
    return type.ret

def isPhi : Instr → Bool
  | phi .. => true
  | _ => false

/-- The values read, in order. -/
def operands : Instr → List Value
  | binary _ lhs rhs | cmp _ lhs rhs => [lhs, rhs]
  | cast _ value _ => [value]
  | select condition ifTrue ifFalse => [condition, ifTrue, ifFalse]
  | phi _ incoming => incoming.map (·.1)
  | call _ _ args _ => args

/-- The labels that values of a phi arrive from. -/
def incomingLabels : Instr → List Label
  | phi _ incoming => incoming.map (·.2)
  | _ => []

end Instr

end TypedSSA
