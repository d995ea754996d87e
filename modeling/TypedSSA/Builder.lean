import TypedSSA.Func
import TypedSSA.Supply
import TypedSSA.Typed.Instr

/-!
# Builders

A builder assembles the body of a function, one block at a time. The entry block is open from the
start. Instructions go to the end of the open block until it is terminated, and then another block
must be started.

Every operation gives its outcome and the builder after it, also when it fails: a name that was
issued for an instruction that was then refused is not issued again. The operations come in pairs.
`bind`, `bindAs`, `discard` and `terminate` take typed code, which needs no check; `tryBind`,
`tryDiscard` and `tryTerminate` take erased code and check it.
-/

namespace TypedSSA

/-- The label of the first block of every function. -/
def entryLabel : Label := "entry"

/-- A block without a terminator yet. -/
structure OpenBlock where
  label : Label
  body : List Named
deriving DecidableEq

/-- A function of type `type` in the making. -/
structure Builder (type : FuncType) where
  label : Label
  names : Supply
  params : List LocalName
  /-- The blocks that have their terminators. -/
  blocks : List Block
  /-- The labels of all blocks started so far. -/
  labels : List Label
  current : Option OpenBlock
deriving DecidableEq

/-- Names for parameters of these types, from a supply. -/
def Supply.params (s : Supply) : (types : List Scalar) → Typed.Args types × Supply
  | [] => (.nil, s)
  | _ :: ps =>
    let (name, later) := s.fresh
    let (rest, left) := later.params ps
    (.cons (.name ⟨s.scope, name⟩) rest, left)

namespace Builder

variable {type : FuncType}

/-- Starts a function, and gives the operands for its parameters. -/
def new (type : FuncType) (scope : Scope) (label : Label) :
    Builder type × Typed.Args type.params :=
  let (params, names) := (Supply.new scope).params type.params
  ({ label := label
     names := names
     params := (List.range type.params.length).map .number
     blocks := []
     labels := [entryLabel]
     current := some ⟨entryLabel, []⟩ }, params)

/-- The label of the open block. -/
def currentLabel? (b : Builder type) : Option Label := b.current.map OpenBlock.label

/-- A label that starts with `hint` and was not issued before. -/
def newLabel (b : Builder type) (hint : String) : Label × Builder type :=
  let (label, names) := b.names.label hint
  (label, { b with names := names })

/-- Puts an instruction at the end of the open block. Phis come first in a block, and the entry
block has none. -/
def push (b : Builder type) (n : Named) : Except Fault Unit × Builder type :=
  match b.current with
  | none => (.error .noOpenBlock, b)
  | some block =>
    if n.instr.isPhi && block.body.any fun m => !m.instr.isPhi then
      (.error (.phiNotAtBlockEntry block.label), b)
    else if n.instr.isPhi && block.label == entryLabel then
      (.error (.phiInEntryBlock b.label), b)
    else (.ok (), { b with current := some { block with body := block.body ++ [n] } })

/-- Puts an instruction at the end of the open block and gives its result a number. -/
def bind (b : Builder type) {t : Scalar} (i : Typed.Instr (.scalar t)) :
    Except Fault (Typed.Name t) × Builder type :=
  let (name, names) := b.names.fresh
  let (outcome, b) := { b with names := names }.push (.bind name t i.erase)
  (outcome.map fun _ => ⟨b.names.scope, name⟩, b)

/-- Puts an instruction at the end of the open block and calls its result `symbol`. -/
def bindAs (b : Builder type) (symbol : String) {t : Scalar} (i : Typed.Instr (.scalar t)) :
    Except Fault (Typed.Name t) × Builder type :=
  match b.names.symbol symbol with
  | (.error f, names) => (.error f, { b with names := names })
  | (.ok name, names) =>
    let (outcome, b) := { b with names := names }.push (.bind name t i.erase)
    (outcome.map fun _ => ⟨b.names.scope, name⟩, b)

/-- Puts an instruction without a result at the end of the open block. -/
def discard (b : Builder type) (i : Typed.Instr .void) : Except Fault Unit × Builder type :=
  b.push (.discard i.erase)

/-- Checks an instruction and does as `bind`. -/
def tryBind (b : Builder type) (i : Instr) : Except Fault Value × Builder type :=
  let (name, names) := b.names.fresh
  let b := { b with names := names }
  match i.checkBind with
  | .error f => (.error f, b)
  | .ok ty =>
    let (outcome, b) := b.push (.bind name ty i)
    (outcome.map fun _ => .loc ty name (some b.names.scope), b)

/-- Checks an instruction and does as `discard`. -/
def tryDiscard (b : Builder type) (i : Instr) : Except Fault Unit × Builder type :=
  match i.checkDiscard with
  | .error f => (.error f, b)
  | .ok () => b.push (.discard i)

/-- Ends the open block. -/
def close (b : Builder type) (t : Terminator) : Except Fault Unit × Builder type :=
  match b.current with
  | none => (.error .noOpenBlock, b)
  | some block =>
    (.ok (), { b with
      blocks := b.blocks ++ [⟨block.label, block.body, t⟩]
      current := none })

def terminate (b : Builder type) (t : Typed.Terminator type.ret) :
    Except Fault Unit × Builder type :=
  b.close t.erase

/-- Checks a terminator and does as `terminate`. -/
def tryTerminate (b : Builder type) (t : Terminator) : Except Fault Unit × Builder type :=
  match t.check type.ret with
  | .error f => (.error f, b)
  | .ok () => b.close t

/-- Opens a block with a label that no other block has. -/
def startBlock (b : Builder type) (label : Label) : Except Fault Unit × Builder type :=
  match b.current with
  | some block => (.error (.unterminatedBlock block.label), b)
  | none =>
    if label ∈ b.labels then (.error (.duplicateLabel label), b)
    else (.ok (), { b with labels := label :: b.labels, current := some ⟨label, []⟩ })

end Builder

end TypedSSA
