import TypedSSA.Proofs.Function.Places
import TypedSSA.Proofs.LLVM.Opcodes
import TypedSSA.Proofs.Module.Table

/-!
# What lowering is to emit

The calls that stand for a function, said without the computation that makes them. A `Valuation`
gives the LLVM value that each local stands for, from the first call of a function to the last.
Under it, each instruction has its calls (`InstrCalls`), and so has each of the steps that a
function is lowered in (`StepCalls`): entering a block, an instruction, a terminator, and at the end
the values of the phis. `Lowered` puts steps one after the other, and reads no local before the
step that binds it.

An `Emission` is what has been emitted for a function, and a `Rendering` for a module. They are
`Valid` at any point where lowering may stop, and `Complete` if nothing is left to do.
-/

namespace TypedSSA

/-- The name of a phi and what is to arrive at it. -/
def Named.phi? : Named → Option (LocalName × List (Value × Label))
  | .bind name _ (.phi _ incoming) => some (name, incoming)
  | _ => none

/-- The number of edges from the block called `source` to the block called `target`. -/
def edges (blocks : List Block) (source target : Label) : Nat :=
  (blocks.flatMap fun b => if b.label = source then b.terminator.successors else []).count target

namespace LLVM

/-- The LLVM values that locals stand for. -/
abbrev Valuation := LocalName → Val

namespace Valuation

/-- The LLVM value that an operand stands for. -/
def value (ρ : Valuation) : Value → Val
  | .const ty c _ => constVal ty c
  | .loc _ name _ => ρ name

/-- The locals have the values given for them. -/
def Agrees (ρ : Valuation) (locals : Locals) : Prop := ∀ p ∈ locals, ρ p.1 = p.2

end Valuation

/-! ## Calls -/

/-- The calls that build an instruction, and the value of its result. -/
inductive InstrCalls (builder : Nat) (ρ : Valuation) : Instr → List Call → Val → Prop where
  | binary {op : BinOp} {opcode : BinaryOpcode} {lhs rhs : Value} {result : Val}
      (performs : opcode.Performs op lhs.ty) (wide : op.isShift = true → lhs.ty.width = 64) :
      InstrCalls builder ρ (.binary op lhs rhs)
        [.build builder (.binary opcode (ρ.value lhs) (ρ.value rhs) result)] result
  /-- The amount of a shift is cut to the width of the value that is shifted. -/
  | shift {op : BinOp} {opcode : BinaryOpcode} {lhs rhs : Value} {amount result : Val}
      (performs : opcode.Performs op lhs.ty) (isShift : op.isShift = true)
      (narrow : lhs.ty.width < 64) :
      InstrCalls builder ρ (.binary op lhs rhs)
        [.build builder (.cast .trunc (ρ.value rhs) (.ofScalar lhs.ty) amount),
          .build builder (.binary opcode (ρ.value lhs) amount result)] result
  | cast {op : CastOp} {opcode : CastOpcode} {value : Value} {target : Scalar} {result : Val}
      (performs : opcode.Performs op value.ty target) :
      InstrCalls builder ρ (.cast op value target)
        [.build builder (.cast opcode (ρ.value value) (.ofScalar target) result)] result
  | icmp {predicate : Predicate} {p : IntPredicate} {lhs rhs : Value} {result : Val}
      (notFloat : lhs.ty.isFloat = false) (decides : p.Decides predicate lhs.ty) :
      InstrCalls builder ρ (.cmp predicate lhs rhs)
        [.build builder (.icmp p (ρ.value lhs) (ρ.value rhs) result)] result
  | fcmp {predicate : Predicate} {p : RealPredicate} {lhs rhs : Value} {result : Val}
      (float : lhs.ty.isFloat = true) (decides : p.Decides predicate) :
      InstrCalls builder ρ (.cmp predicate lhs rhs)
        [.build builder (.fcmp p (ρ.value lhs) (ρ.value rhs) result)] result
  | select {condition ifTrue ifFalse : Value} {result : Val} :
      InstrCalls builder ρ (.select condition ifTrue ifFalse)
        [.build builder
          (.select (ρ.value condition) (ρ.value ifTrue) (ρ.value ifFalse) result)] result
  | phi {ty : Scalar} {incoming : List (Value × Label)} {result : Val} :
      InstrCalls builder ρ (.phi ty incoming)
        [.build builder (.phi (.ofScalar ty) result)] result
  | call {callee : Label} {type : TypedSSA.FuncType} {args : List Value}
      {attributes : List Attribute} {result : Val} :
      InstrCalls builder ρ (.call callee type args attributes)
        (.build builder (.call (.ofFuncType type) callee (args.map ρ.value) result) ::
          attributes.map fun a => .addCallSiteAttribute result (enumAttribute a)) result

/-- The calls that build a terminator of `function`. -/
def terminatorCalls (function : Label) (builder : Nat) (ρ : Valuation) : Terminator → List Call
  | .ret => [.build builder .retVoid]
  | .retVal value => [.build builder (.ret (ρ.value value))]
  | .br target => [.build builder (.br ⟨function, target⟩)]
  | .condBr condition ifTrue ifFalse =>
    [.build builder (.condBr (ρ.value condition) ⟨function, ifTrue⟩ ⟨function, ifFalse⟩)]
  | .switch scrutinee default cases =>
    .build builder (.switch (ρ.value scrutinee) ⟨function, default⟩ cases.length) ::
      cases.map fun c => .addCase (constVal scrutinee.ty c.1) ⟨function, c.2⟩

/-! ## Steps -/

/-- What is done at a time when a function is lowered. -/
inductive Step where
  /-- Goes to the end of a block. -/
  | enter (label : Label)
  /-- Builds an instruction. -/
  | instr (n : Named)
  /-- Builds a terminator. -/
  | leave (t : Terminator)
  /-- Adds the values of a phi of block `target`. -/
  | merge (target : Label) (name : LocalName) (incoming : List (Value × Label))

namespace Step

/-- The values read. Those of a phi are read when they are added. -/
def operands : Step → List Value
  | enter _ => []
  | instr n => if n.instr.isPhi then [] else n.instr.operands
  | leave t => t.operands
  | merge _ _ incoming => incoming.map (·.1)

/-- The local that is bound. -/
def name? : Step → Option LocalName
  | instr n => n.name?
  | _ => none

end Step

/-- The calls of a step. -/
inductive StepCalls (f : Func) (builder : Nat) (ρ : Valuation) : Step → List Call → Prop where
  | enter (label : Label) :
      StepCalls f builder ρ (.enter label) [.build builder (.positionAtEnd ⟨f.label, label⟩)]
  /-- The local that is bound stands for the result. -/
  | instr {n : Named} {calls : List Call} {result : Val}
      (calls_eq : InstrCalls builder ρ n.instr calls result)
      (names : ∀ name, n.name? = some name → ρ name = result) :
      StepCalls f builder ρ (.instr n) calls
  | leave (t : Terminator) :
      StepCalls f builder ρ (.leave t) (terminatorCalls f.label builder ρ t)
  /-- A value is added once for each edge that it arrives by. -/
  | merge (target : Label) (name : LocalName) (incoming : List (Value × Label)) :
      StepCalls f builder ρ (.merge target name incoming)
        [.addIncoming (ρ name) (incoming.flatMap fun p =>
          List.replicate (edges f.blocks p.2 target) (ρ.value p.1, ⟨f.label, p.2⟩))]

/-- These calls do the steps in order. Each reads only locals that are known from the start or have
been bound before. -/
inductive Lowered (f : Func) (builder : Nat) (ρ : Valuation) :
    (known : List LocalName) → List Step → List Call → Prop where
  | nil {known : List LocalName} : Lowered f builder ρ known [] []
  | cons {known : List LocalName} {s : Step} {steps : List Step} {calls later : List Call}
      (reads : ∀ v ∈ s.operands, ∀ name, v.name? = some name → name ∈ known)
      (calls_eq : StepCalls f builder ρ s calls)
      (rest : Lowered f builder ρ (s.name?.toList ++ known) steps later) :
      Lowered f builder ρ known (s :: steps) (calls ++ later)

namespace Lowered

variable {f : Func} {builder : Nat} {ρ : Valuation} {known : List LocalName}
  {steps steps' : List Step} {calls calls' : List Call}

theorem single {s : Step} (reads : ∀ v ∈ s.operands, ∀ name, v.name? = some name → name ∈ known)
    (calls_eq : StepCalls f builder ρ s calls) : Lowered f builder ρ known [s] calls := by
  have hcons := Lowered.cons reads calls_eq .nil
  rwa [List.append_nil] at hcons

theorem mono (h : Lowered f builder ρ known steps calls) {known' : List LocalName}
    (hsub : known ⊆ known') : Lowered f builder ρ known' steps calls := by
  induction h generalizing known' with
  | nil => exact .nil
  | cons reads calls_eq rest ih =>
    exact .cons (fun v hv name hname => hsub (reads v hv name hname)) calls_eq
      (ih (List.append_subset.mpr ⟨List.subset_append_left _ _,
        List.Subset.trans hsub (List.subset_append_right _ _)⟩))

/-- Steps that are done one after the other are done, if the later ones read only what the earlier
ones have bound, or what was known before. -/
theorem append (h : Lowered f builder ρ known steps calls)
    (h' : Lowered f builder ρ ((steps.filterMap Step.name?).reverse ++ known) steps' calls') :
    Lowered f builder ρ known (steps ++ steps') (calls ++ calls') := by
  induction h with
  | nil => exact h'
  | @cons known s steps calls later reads calls_eq rest ih =>
    rw [List.append_assoc]
    refine .cons reads calls_eq (ih ?_)
    cases hs : s.name? <;> simpa [hs] using h'

end Lowered

end LLVM

/-! ## Functions and modules -/

namespace Block

open LLVM (Step)

/-- The phis of a block. -/
def phis (b : Block) : List (LocalName × List (Value × Label)) := b.body.filterMap Named.phi?

/-- The steps for a block, without the values of its phis. -/
def steps (b : Block) : List Step :=
  .enter b.label :: (b.body.map .instr ++ [.leave b.terminator])

/-- The steps for the values of the phis. -/
def merges (b : Block) : List Step := b.phis.map fun p => .merge b.label p.1 p.2

/-- The steps of a block bind the names that the block binds, in the same order. -/
theorem names_steps (b : Block) : b.steps.filterMap Step.name? = b.names := by
  simp only [steps, names, List.filterMap_cons, List.filterMap_append, List.filterMap_map,
    List.filterMap_nil, Step.name?, List.append_nil]
  rfl

end Block

namespace LLVM

/-- All that is to be done for the blocks in this order. -/
def script (order : List Block) : List Step :=
  order.flatMap Block.steps ++ order.flatMap Block.merges

/-- The step is one for a block of the function. -/
inductive Step.Of (f : Func) : Step → Prop where
  | enter {b : Block} (block : b ∈ f.blocks) : Of f (.enter b.label)
  | instr {b : Block} {n : Named} (block : b ∈ f.blocks) (instr : n ∈ b.body) : Of f (.instr n)
  | leave {b : Block} (block : b ∈ f.blocks) : Of f (.leave b.terminator)
  | merge {b : Block} {name : LocalName} {ty s : Scalar} {incoming : List (Value × Label)}
      (block : b ∈ f.blocks) (phi : .bind name ty (.phi s incoming) ∈ b.body) :
      Of f (.merge b.label name incoming)

/-- Every step of a script belongs to the function that its blocks are from. -/
theorem Step.of_mem_script {f : Func} {order : List Block} (horder : ∀ b ∈ order, b ∈ f.blocks)
    {s : Step} (hs : s ∈ script order) : s.Of f := by
  rcases List.mem_append.mp hs with hs | hs
  · obtain ⟨b, hb, hs⟩ := List.mem_flatMap.mp hs
    rcases List.mem_cons.mp hs with rfl | hs
    · exact .enter (horder b hb)
    · rcases List.mem_append.mp hs with hs | hs
      · obtain ⟨n, hn, rfl⟩ := List.mem_map.mp hs
        exact .instr (horder b hb) hn
      · rw [List.mem_singleton.mp hs]
        exact .leave (horder b hb)
  · obtain ⟨b, hb, hs⟩ := List.mem_flatMap.mp hs
    obtain ⟨p, hp, rfl⟩ := List.mem_map.mp hs
    obtain ⟨n, hn, hphi⟩ := List.mem_filterMap.mp hp
    unfold Named.phi? at hphi
    split at hphi
    · cases hphi
      exact .merge (horder b hb) hn
    · cases hphi

/-- What has been emitted for a function. -/
structure Emission where
  func : Func
  builder : Nat
  values : Valuation
  /-- The blocks that have been appended, without their code. -/
  appended : List Block
  steps : List Step
  /-- The calls of the steps. -/
  body : List Call

namespace Emission

/-- The calls before there is any code. -/
def opening (context : Nat) (e : Emission) : List Call :=
  .createBuilder context e.builder ::
    e.appended.map fun b => .appendBasicBlock context ⟨e.func.label, b.label⟩

def calls (context : Nat) (e : Emission) : List Call :=
  e.opening context ++ e.body ++ [.disposeBuilder e.builder]

/-- Parameters stand for the parameters of the LLVM function, and the body does the steps. -/
structure Traced (e : Emission) : Prop where
  params (k : Nat) (name : LocalName) :
    e.func.params[k]? = some name → e.values name = .param e.func.label k
  body : Lowered e.func e.builder e.values e.func.params e.steps e.body

/-- What has been emitted is the beginning of what is to be: the blocks are appended in their order,
and when all are, lowered in some order. -/
structure Valid (e : Emission) : Prop extends Traced e where
  appended : e.appended <+: e.func.blocks
  all_appended : e.steps ≠ [] → e.appended = e.func.blocks
  steps : ∃ order : List Block, order.Perm e.func.blocks ∧ e.steps <+: script order

/-- All blocks have been appended in their order, and lowered in some order. -/
structure Complete (e : Emission) : Prop extends Traced e where
  appended : e.appended = e.func.blocks
  steps : ∃ order : List Block, order.Perm e.func.blocks ∧ e.steps = script order

theorem Complete.valid {e : Emission} (h : e.Complete) : e.Valid := by
  obtain ⟨order, hperm, hsteps⟩ := h.steps
  exact ⟨h.toTraced, h.appended ▸ List.prefix_rfl, fun _ => h.appended,
    order, hperm, hsteps ▸ List.prefix_rfl⟩

theorem Valid.of_mem_steps {e : Emission} (h : e.Valid) {s : Step} (hs : s ∈ e.steps) :
    s.Of e.func := by
  obtain ⟨order, hperm, hsteps⟩ := h.steps
  exact Step.of_mem_script (fun b hb => hperm.mem_iff.mp hb) (hsteps.subset hs)

end Emission

/-- What has been emitted for a module. -/
structure Rendering where
  module : Nat
  /-- The functions that have been added, without their bodies. -/
  added : List (Label × TypedSSA.FuncType)
  bodies : List Emission

namespace Rendering

/-- The calls for the functions. -/
def content (context : Nat) (r : Rendering) : List Call :=
  (r.added.map fun p => .addFunction r.module p.1 (.ofFuncType p.2)) ++
    r.bodies.flatMap (Emission.calls context)

def calls (context : Nat) (m : Module) (r : Rendering) : List Call :=
  [.moduleCreate m.name context r.module, .setTarget r.module m.target.triple,
    .setDataLayout r.module m.target.dataLayout] ++ r.content context

/-- What has been emitted is the beginning of what is to be: the functions are added in their order,
and when all are, the bodies of those defined are emitted. -/
structure Valid (m : Module) (r : Rendering) : Prop where
  added : r.added <+: m.functions
  all_added : r.bodies ≠ [] → r.added = m.functions
  bodies : r.bodies.map Emission.func <+: m.definitions
  valid (e : Emission) : e ∈ r.bodies → e.Valid

/-- All functions have been added, and all bodies emitted. -/
structure Complete (m : Module) (r : Rendering) : Prop where
  added : r.added = m.functions
  bodies : r.bodies.map Emission.func = m.definitions
  complete (e : Emission) : e ∈ r.bodies → e.Complete

theorem Complete.valid {m : Module} {r : Rendering} (h : r.Complete m) : r.Valid m :=
  ⟨h.added ▸ List.prefix_rfl, fun _ => h.added, h.bodies ▸ List.prefix_rfl,
    fun e he => (h.complete e he).valid⟩

end Rendering

end LLVM

end TypedSSA
