import TypedSSA.Builder
import TypedSSA.Flow.Cfg

/-!
# Finishing a function

`Builder.finish` accepts a body that is well-formed: no block is open, every local read is bound in
this body at the type it is read at (`Builder.scopeFault?`), every label names a block, no branch
goes back to the entry, every phi has one value for each predecessor of its block, and where control
can get, every local is bound before it is read (`Builder.flowFault?`). A value of a phi is read at
the end of the block that it arrives from.
-/

namespace TypedSSA

/-- Refuses a local of another body, one that is not bound, and one read at another type. -/
def valueFault? (function : Label) (scope : Scope) (bound : List (LocalName × Scalar)) :
    Value → Option Fault
  | .const .. => none
  | .loc ty name own =>
    if own.any fun s => s ≠ scope then some (.unboundName function name)
    else
      match bound.lookup name with
      | none => some (.unboundName function name)
      | some expected =>
        if expected = ty then none else some (.typeMismatch (.scalar expected) (.scalar ty))

/-- Refuses a label that is not among `labels`. -/
def labelFault? (function : Label) (labels : List Label) (target : Label) : Option Fault :=
  if target ∈ labels then none else some (.undefinedLabel function target)

/-- Where a name is bound: the block, and the place in its body. -/
def definition? (blocks : List Block) (name : LocalName) : Option (Fin blocks.length × Nat) :=
  (List.finRange blocks.length).findSome? fun i =>
    ((blocks.get i).body.findIdx? fun n => n.name? = some name).map fun place => (i, place)

/-- Puts a label in its place among labels in ascending order. -/
def insertLabel (label : Label) : List Label → List Label
  | [] => [label]
  | next :: rest =>
    if label ≤ next then label :: next :: rest else next :: insertLabel label rest

/-- Labels in ascending order. -/
def sortLabels (labels : List Label) : List Label := labels.foldr insertLabel []

section Flow

variable (function : Label) (blocks : List Block) (cfg : Cfg blocks.length)

/-- Refuses a branch to the entry. -/
def branchFault? : Option Fault :=
  blocks.findSome? fun block =>
    if entryLabel ∈ block.terminator.successors then some (.branchToEntry function block.label)
    else none

/-- Refuses a local read at this place of a block if it is bound, but not before on every path. -/
def useFault? (block : Fin blocks.length) (place : Nat) (v : Value) : Option Fault :=
  v.name?.bind fun name =>
    let available := match definition? blocks name with
      | none => true
      | some (home, bound) =>
        if home = block then decide (bound < place) else cfg.dominates home block
    if available then none else some (.useNotDominated function (blocks.get block).label name)

/-- The labels of the blocks with an edge to this one, sorted and each once. -/
def predecessorLabels (block : Fin blocks.length) : List Label :=
  (sortLabels ((cfg.pred block).map fun i => (blocks.get i).label)).eraseReps

/-- Refuses a phi whose labels are not those of the predecessors, and one with a value that is not
bound at the end of the block it arrives from. -/
def phiFault? (block : Fin blocks.length) (incoming : List (Value × Label)) : Option Fault :=
  let expected := predecessorLabels blocks cfg block
  let found := sortLabels (incoming.map (·.2))
  if found ≠ expected then some (.phiPredecessorMismatch (blocks.get block).label expected found)
  else
    incoming.findSome? fun (value, label) =>
      (blockIndex? blocks label).bind fun source =>
        if cfg.isReachable block && cfg.isReachable source then
          useFault? function blocks cfg source (blocks.get source).body.length value
        else none

/-- The first fault of the instruction at this place of a block. -/
def instrFault? (block : Fin blocks.length) (place : Nat) : Instr → Option Fault
  | .phi _ incoming => phiFault? function blocks cfg block incoming
  | instr =>
    if cfg.isReachable block then
      instr.operands.findSome? (useFault? function blocks cfg block place)
    else none

/-- The first fault of a block, in order. -/
def blockFault? (block : Fin blocks.length) : Option Fault :=
  let b := blocks.get block
  (b.body.zipIdx.findSome? fun (n, place) => instrFault? function blocks cfg block place n.instr).or
    (if cfg.isReachable block then
      b.terminator.operands.findSome? (useFault? function blocks cfg block b.body.length)
    else none)

end Flow

namespace Builder

variable {type : FuncType}

/-- Every name that is bound, with its type: the parameters, and what the blocks bind. -/
def bindings (b : Builder type) : List (LocalName × Scalar) :=
  b.params.zip type.params ++ b.blocks.flatMap Block.bindings

/-- The first name or label that is not known as it is used. -/
def scopeFault? (b : Builder type) : Option Fault :=
  let value := valueFault? b.label b.names.scope b.bindings
  let label := labelFault? b.label b.labels
  b.blocks.findSome? fun block =>
    (block.body.findSome? fun n =>
      (n.instr.operands.findSome? value).or (n.instr.incomingLabels.findSome? label)).or
    ((block.terminator.operands.findSome? value).or
      (block.terminator.successors.findSome? label))

/-- The first branch, phi or use that control flow does not allow. -/
def flowFault? (b : Builder type) : Option Fault :=
  let cfg := Cfg.ofBlocks b.blocks
  (branchFault? b.label b.blocks).or
    ((List.finRange b.blocks.length).findSome? (blockFault? b.label b.blocks cfg))

/-- The function, if its body is well-formed. -/
def finish (b : Builder type) : Except Fault Func :=
  match b.current with
  | some block => .error (.unterminatedBlock block.label)
  | none =>
    match b.scopeFault? with
    | some f => .error f
    | none =>
      match b.flowFault? with
      | some f => .error f
      | none => .ok ⟨b.label, type, b.params, b.blocks⟩

end Builder

end TypedSSA
