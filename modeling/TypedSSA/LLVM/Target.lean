import TypedSSA.LLVM.Lowering

/-!
# The LLVM target

A target generates code for the host or for a given triple. It asks LLVM for a description of the
machine once (`Target.describe`) and keeps the answer, also a failure. `Target.compile` lowers a
module, has it verified and optimized, and gives it to an execution engine; `Jit.drop` lets go of
what is left then.
-/

namespace TypedSSA.LLVM

/-- A target, with the description of its machine once that has been asked for. -/
structure Target where
  options : Options
  description : Option (Except CodegenError TargetDesc)

/-- Machine code in memory. -/
structure Jit where
  engine : Nat
  context : Nat
  addresses : List (String × Nat)
deriving DecidableEq, Repr

namespace Jit

/-- Where the machine code of a function is. -/
def address (j : Jit) (symbol : String) : Except CodegenError Nat :=
  match j.addresses.lookup symbol with
  | some a => .ok a
  | none => .error (.symbolNotFound symbol)

/-- Disposes of the engine and its context. -/
def drop (j : Jit) : Emit Unit := do
  Emit.call (.disposeEngine j.engine)
  Emit.call (.contextDispose j.context)

end Jit

/-- The triple, the processor and the features of the machine that code is for. -/
def chooseMachine (options : Options) : Emit (String × String × String) :=
  match options.triple with
  | some triple => pure (triple, "generic", "")
  | none => do
    let r ← Emit.replies
    Emit.call (.host .triple)
    Emit.call (.host .cpu)
    Emit.call (.host .features)
    return (r.triple, r.cpu, r.features)

/-- Asks LLVM for a description of the machine. -/
def queryDescription (options : Options) : Lower TargetDesc := do
  Emit.setUp
  let r ← Emit.replies
  let (triple, cpu, features) ← chooseMachine options
  Lower.checkText triple
  Lower.checkText cpu
  Lower.checkText features
  Emit.call (.getTargetFromTriple triple)
  Lower.failOn r.targetError
  let machine ← Emit.create (·.machines) (fun c => { c with machines := c.machines + 1 })
    (.createTargetMachine triple cpu features options.level)
  let data ← Emit.create (·.targetDatas) (fun c => { c with targetDatas := c.targetDatas + 1 })
    (.createTargetData machine)
  Emit.call (.copyTargetData data)
  Emit.call (.disposeTargetData data)
  Emit.call (.disposeTargetMachine machine)
  return ⟨triple, r.dataLayout⟩

/-- Has a module verified, and optimized at this level. -/
def optimize (level : OptLevel) (module : Nat) : Lower Unit := do
  let r ← Emit.replies
  Emit.call (.verifyModule module)
  Lower.failOn r.verifyError
  let options ← Emit.create (·.passOptions)
    (fun c => { c with passOptions := c.passOptions + 1 }) .createPassOptions
  let passes := "default<O" ++ toString level.number ++ ">"
  Emit.call (.runPasses module passes options)
  Emit.call (.disposePassOptions options)
  Lower.failOn r.passesError

/-- Gives a module to an execution engine. -/
def createEngine (level : OptLevel) (module : Nat) : Lower Nat := do
  let r ← Emit.replies
  match r.engineError with
  | some message => do
    Emit.call (.createEngine module level none)
    Lower.fail message
  | none =>
    Emit.create (·.engines) (fun c => { c with engines := c.engines + 1 })
      (fun engine => .createEngine module level (some engine))

/-- Asks an engine where a function is. -/
def findAddress (engine : Nat) (f : Func) : Lower (String × Nat) := do
  Lower.checkText f.label
  let r ← Emit.replies
  Emit.call (.getFunctionAddress engine f.label)
  if r.address f.label = 0 then throw (.symbolNotFound f.label)
  return (f.label, r.address f.label)

/-- Compiles a module that has been checked. -/
def compileModule (level : OptLevel) (m : Module) : Lower Jit := do
  let context ← Emit.create (·.contexts) (fun c => { c with contexts := c.contexts + 1 })
    .contextCreate
  let dispose := Emit.call (.contextDispose context)
  let module ← Lower.onFailure (lowerModule context m) dispose
  Lower.onFailure (optimize level module) do
    Emit.call (.disposeModule module)
    dispose
  let engine ← Lower.onFailure (createEngine level module) dispose
  let addresses ← Lower.onFailure (m.definitions.mapM (findAddress engine))
    (Jit.drop ⟨engine, context, []⟩)
  return ⟨engine, context, addresses⟩

namespace Target

def new (options : Options) : Target := ⟨options, none⟩

/-- The description of the machine. LLVM is asked the first time. -/
def describe (t : Target) : Emit (Except CodegenError TargetDesc × Target) :=
  match t.description with
  | some d => pure (d, t)
  | none => do
    let d ← (queryDescription t.options).run
    return (d, { t with description := some d })

/-- A module without functions for this target. -/
def newModule (t : Target) (name : String) : Emit (Except CodegenError Module × Target) := do
  let (d, t) ← t.describe
  return (d.map (Module.new name), t)

/-- Compiles a module for this target. -/
def compile (t : Target) (m : Module) : Emit (Except CodegenError Jit × Target) := do
  let (d, t) ← t.describe
  match d.bind m.checkFor with
  | .error e => return (.error e, t)
  | .ok () =>
    let outcome ← (compileModule t.options.level m).run
    return (outcome, t)

end Target

end TypedSSA.LLVM
