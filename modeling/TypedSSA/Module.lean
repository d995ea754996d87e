import TypedSSA.Func

/-!
# Modules

A module collects functions that are defined in it and functions that are only declared, for one
target. Its symbol table gives the type of each. A symbol keeps its type for good: declaring or
defining it at another is refused. A definition takes the place of an earlier declaration.
-/

namespace TypedSSA

/-- What a module needs to know of the machine that it is for. -/
structure TargetDesc where
  triple : String
  dataLayout : String
deriving DecidableEq, Repr

def TargetDesc.text (t : TargetDesc) : String := t.triple ++ " (" ++ t.dataLayout ++ ")"

/-- The callee of a call, and the type that it is called at. -/
def Instr.callee? : Instr → Option (Label × FuncType)
  | .call callee type _ _ => some (callee, type)
  | _ => none

/-- The calls of a function, in order. -/
def Func.calls (f : Func) : List (Label × FuncType) :=
  f.blocks.flatMap fun b => b.body.filterMap fun n => n.instr.callee?

/-- A compilation unit. -/
structure Module where
  name : String
  target : TargetDesc
  definitions : List Func
  /-- Functions that are declared and not defined. -/
  declarations : List (Label × FuncType)
  /-- The types of all functions, defined or declared. -/
  symbols : List (Label × FuncType)
deriving DecidableEq

namespace Module

/-- A module without functions. -/
def new (name : String) (target : TargetDesc) : Module := ⟨name, target, [], [], []⟩

/-- The type of a function that is defined or declared. -/
def lookup (m : Module) (symbol : Label) : Option FuncType := m.symbols.lookup symbol

/-- Declares a function. It may be declared or defined already at the same type. -/
def declare (m : Module) (symbol : Label) (type : FuncType) : Except Fault Unit × Module :=
  match m.lookup symbol with
  | some known =>
    if known = type then (.ok (), m) else (.error (.signatureMismatch symbol known type), m)
  | none =>
    (.ok (), { m with
      symbols := (symbol, type) :: m.symbols
      declarations := m.declarations ++ [(symbol, type)] })

/-- Defines a function, which must not be defined already. -/
def define (m : Module) (f : Func) : Except Fault Unit × Module :=
  if m.definitions.any fun g => g.label = f.label then (.error (.duplicateSymbol f.label), m)
  else
    match m.lookup f.label with
    | some known =>
      if known = f.type then
        (.ok (), { m with
          declarations := m.declarations.filter fun d => d.1 ≠ f.label
          definitions := m.definitions ++ [f] })
      else (.error (.signatureMismatch f.label known f.type), m)
    | none =>
      (.ok (), { m with
        symbols := (f.label, f.type) :: m.symbols
        definitions := m.definitions ++ [f] })

/-- Refuses a call of a function that is not known, or is known at another type. -/
def callFault? (m : Module) (call : Label × FuncType) : Option Fault :=
  match m.lookup call.1 with
  | none => some (.unknownFunction call.1)
  | some known =>
    if known = call.2 then none else some (.signatureMismatch call.1 known call.2)

/-- Refuses a module with a call that does not agree with its symbol table. -/
def validate (m : Module) : Except Fault Unit :=
  match (m.definitions.flatMap Func.calls).findSome? m.callFault? with
  | some f => .error f
  | none => .ok ()

end Module

end TypedSSA
