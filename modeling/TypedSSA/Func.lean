import TypedSSA.Terminator

/-!
# Functions

A function is a list of blocks, the first of which is its entry. A block is a list of
instructions, each with a name for its result or with no result, and a terminator.
-/

namespace TypedSSA

/-- An instruction in a block. -/
inductive Named where
  /-- The result, of type `ty`, is called `name`. -/
  | bind (name : LocalName) (ty : Scalar) (instr : Instr)
  /-- There is no result. -/
  | discard (instr : Instr)
deriving DecidableEq

namespace Instr

/-- The type of a name for the result, which there must be. -/
def checkBind (i : Instr) : Except Fault Scalar := do
  match ← i.check with
  | .void => .error .bindUnit
  | .scalar ty => return ty

/-- Refuses an instruction with a result. -/
def checkDiscard (i : Instr) : Except Fault Unit := do
  match ← i.check with
  | .void => return ()
  | .scalar ty => .error (.discardValue ty)

end Instr

namespace Named

/-- Calls the result of an instruction `name`, if it is well typed and has one. -/
def checkedBind (name : LocalName) (i : Instr) : Except Fault Named := do
  return bind name (← i.checkBind) i

/-- Keeps an instruction for its effect, if it is well typed and has no result. -/
def checkedDiscard (i : Instr) : Except Fault Named := do
  i.checkDiscard
  return discard i

def instr : Named → Instr
  | bind _ _ i => i
  | discard i => i

def name? : Named → Option LocalName
  | bind name _ _ => some name
  | discard _ => none

/-- The name of the result and its type. -/
def binding? : Named → Option (LocalName × Scalar)
  | bind name ty _ => some (name, ty)
  | discard _ => none

def resultType : Named → Ty
  | bind _ ty _ => .scalar ty
  | discard _ => .void

end Named

/-- A sequence of instructions and the terminator after them. -/
structure Block where
  label : Label
  body : List Named
  terminator : Terminator
deriving DecidableEq

namespace Block

/-- The names bound in the block with their types, in order. -/
def bindings (b : Block) : List (LocalName × Scalar) := b.body.filterMap Named.binding?

end Block

/-- A finished function. -/
structure Func where
  label : Label
  type : FuncType
  params : List LocalName
  blocks : List Block
deriving DecidableEq

end TypedSSA
