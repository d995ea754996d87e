import TypedSSA.Module

/-!
# Runs of a module

A declaration or a definition (`Module.Op`) may succeed or fail, and in each case leaves a module
(`Module.perform`). What it can do is said once, by `Module.Effect`. What holds of every module that
can come about (`Module.Reachable`) is shown of the cases there.
-/

namespace TypedSSA.Module

/-- A declaration or a definition. -/
inductive Op where
  | declare (symbol : Label) (type : FuncType)
  | define (f : Func)
deriving DecidableEq

namespace Op

def symbol : Op → Label
  | declare symbol _ => symbol
  | define f => f.label

def type : Op → FuncType
  | declare _ type => type
  | define f => f.type

/-- The function that is defined, if one is. -/
def func? : Op → Option Func
  | declare .. => none
  | define f => some f

end Op

variable {P : Func → Prop} {m : Module} {op : Op} {r : Except Fault Unit × Module}

/-- The outcome of an operation, and the module after it. -/
def perform (m : Module) : Op → Except Fault Unit × Module
  | .declare symbol type => m.declare symbol type
  | .define f => m.define f

/-- The module after these operations, in order. -/
def performAll (m : Module) (ops : List Op) : Module :=
  ops.foldl (fun m op => (m.perform op).2) m

/-- The outcomes of these operations, in order, each performed on the module that those before it
leave. -/
def outcomes (m : Module) : List Op → List (Except Fault Unit)
  | [] => []
  | op :: ops => (m.perform op).1 :: (m.perform op).2.outcomes ops

/-! ## One operation -/

/-- What an operation can give, and the module that it leaves then. -/
inductive Effect (m : Module) : Op → Except Fault Unit × Module → Prop where
  | duplicate (f : Func) (isDefined : f.label ∈ m.definitions.map Func.label) :
      Effect m (.define f) (.error (.duplicateSymbol f.label), m)
  | mismatch (op : Op) (known : FuncType) (isKnown : m.lookup op.symbol = some known)
      (isOther : known ≠ op.type) :
      Effect m op (.error (.signatureMismatch op.symbol known op.type), m)
  /-- A declaration says nothing new of a function that is known. -/
  | redeclare (symbol : Label) (type : FuncType) (isKnown : m.lookup symbol = some type) :
      Effect m (.declare symbol type) (.ok (), m)
  | declare (symbol : Label) (type : FuncType) (isNew : m.lookup symbol = none) :
      Effect m (.declare symbol type) (.ok (), { m with
        symbols := (symbol, type) :: m.symbols
        declarations := m.declarations ++ [(symbol, type)] })
  | define (f : Func) (isUndefined : f.label ∉ m.definitions.map Func.label)
      (isNew : m.lookup f.label = none) :
      Effect m (.define f) (.ok (), { m with
        symbols := (f.label, f.type) :: m.symbols
        definitions := m.definitions ++ [f] })
  /-- A function that is known and not defined takes the place of its declaration. -/
  | complete (f : Func) (isUndefined : f.label ∉ m.definitions.map Func.label)
      (isKnown : m.lookup f.label = some f.type) :
      Effect m (.define f) (.ok (), { m with
        declarations := m.declarations.filter fun d => d.1 ≠ f.label
        definitions := m.definitions ++ [f] })

theorem effect_declare (m : Module) (symbol : Label) (type : FuncType) :
    Effect m (.declare symbol type) (m.declare symbol type) := by
  unfold Module.declare
  cases hknown : m.lookup symbol with
  | none => exact .declare symbol type hknown
  | some known =>
    dsimp only
    by_cases heq : known = type
    · rw [if_pos heq]
      exact .redeclare symbol type (heq ▸ hknown)
    · rw [if_neg heq]
      exact .mismatch (.declare symbol type) known hknown heq

theorem effect_define (m : Module) (f : Func) : Effect m (.define f) (m.define f) := by
  have hany : (m.definitions.any fun g => decide (g.label = f.label)) = true ↔
      f.label ∈ m.definitions.map Func.label := by
    simp
  unfold Module.define
  by_cases hdefined : f.label ∈ m.definitions.map Func.label
  · rw [if_pos (hany.mpr hdefined)]
    exact .duplicate f hdefined
  · rw [if_neg fun h => hdefined (hany.mp h)]
    cases hknown : m.lookup f.label with
    | none => exact .define f hdefined hknown
    | some known =>
      dsimp only
      by_cases heq : known = f.type
      · rw [if_pos heq]
        exact .complete f hdefined (heq ▸ hknown)
      · rw [if_neg heq]
        exact .mismatch (.define f) known hknown heq

theorem effect_perform (m : Module) (op : Op) : Effect m op (m.perform op) := by
  cases op with
  | declare symbol type => exact m.effect_declare symbol type
  | define f => exact m.effect_define f

theorem Effect.target (h : Effect m op r) : r.2.target = m.target := by
  cases h <;> rfl

/-- No function is defined but by its definition. -/
theorem Effect.of_mem_definitions (h : Effect m op r) {f : Func} (hf : f ∈ r.2.definitions) :
    f ∈ m.definitions ∨ op.func? = some f := by
  have hconcat : ∀ {g : Func}, f ∈ m.definitions ++ [g] → f ∈ m.definitions ∨ some g = some f := by
    intro g hmem
    rw [List.mem_append, List.mem_singleton] at hmem
    exact hmem.imp_right fun h => congrArg some h.symm
  cases h with
  | duplicate | mismatch | redeclare | declare => exact .inl hf
  | define => exact hconcat hf
  | complete => exact hconcat hf

/-! ## Runs -/

/-- The modules that declarations and definitions, of functions with `P`, make of a new one. -/
inductive Reachable (P : Func → Prop) : Module → Prop where
  | new (name : String) (target : TargetDesc) : Reachable P (new name target)
  | declare {m : Module} (before : Reachable P m) (symbol : Label) (type : FuncType) :
      Reachable P (m.declare symbol type).2
  | define {m : Module} (before : Reachable P m) (f : Func) (defined : P f) :
      Reachable P (m.define f).2

theorem Reachable.of_mem_definitions (h : m.Reachable P) {f : Func} (hf : f ∈ m.definitions) :
    P f := by
  induction h with
  | new => cases hf
  | @declare m _ symbol type ih =>
    rcases (m.effect_declare symbol type).of_mem_definitions hf with hf | hf
    · exact ih hf
    · cases hf
  | @define m _ g hg ih =>
    rcases (m.effect_define g).of_mem_definitions hf with hf | hf
    · exact ih hf
    · exact Option.some.inj hf ▸ hg

/-- In a module that passes validation, a function is called at the type that its symbol has. -/
theorem lookup_of_call (hv : m.validate = .ok ()) {f : Func} (hf : f ∈ m.definitions)
    {call : Label × FuncType} (hc : call ∈ f.calls) : m.lookup call.1 = some call.2 := by
  have hnone : (m.definitions.flatMap Func.calls).findSome? m.callFault? = none := by
    unfold validate at hv
    split at hv
    · cases hv
    · assumption
  have hfault := List.findSome?_eq_none_iff.mp hnone call (List.mem_flatMap.mpr ⟨f, hf, hc⟩)
  unfold callFault? at hfault
  split at hfault
  · cases hfault
  · rename_i known hknown
    split at hfault
    · rename_i heq
      rw [hknown, heq]
    · cases hfault

end TypedSSA.Module
