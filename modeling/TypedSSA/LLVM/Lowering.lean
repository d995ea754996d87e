import TypedSSA.Flow.Cfg
import TypedSSA.LLVM.Emit

/-!
# Lowering

Turns a module into calls that build it in LLVM. Blocks are lowered in an order that puts a block
after those that dominate it, so a local is lowered before it is read. The values of phis are added
when all blocks are lowered: once for each edge from the block that they arrive from.
-/

namespace TypedSSA.LLVM

/-- The opcode for operands of type `t`. -/
def binaryOpcode (op : BinOp) (t : Scalar) : BinaryOpcode :=
  match op with
  | .add => if t.isFloat then .fadd else .add
  | .sub => if t.isFloat then .fsub else .sub
  | .mul => if t.isFloat then .fmul else .mul
  | .quot => if t.isSigned then .sdiv else .udiv
  | .rem => if t.isSigned then .srem else .urem
  | .div => .fdiv
  | .shl => .shl
  | .lshr => .lshr
  | .ashr => .ashr
  | .and => .and
  | .or => .or
  | .xor => .xor

/-- The opcode for a conversion between these types. -/
def castOpcode (op : CastOp) (source target : Scalar) : CastOpcode :=
  match op with
  | .trunc => .trunc
  | .fptrunc => .fptrunc
  | .ext => if source.isSigned then .sext else .zext
  | .fpext => .fpext
  | .fptoint => if target.isSigned then .fptosi else .fptoui
  | .inttofp => if source.isSigned then .sitofp else .uitofp
  | .bitcast => .bitcast

def intPredicate (p : Predicate) (signed : Bool) : IntPredicate :=
  match p with
  | .eq => .eq
  | .ne => .ne
  | .lt => if signed then .slt else .ult
  | .le => if signed then .sle else .ule
  | .gt => if signed then .sgt else .ugt
  | .ge => if signed then .sge else .uge

/-- Comparisons are false of what is not a number, but for `ne`, which is true. -/
def realPredicate : Predicate → RealPredicate
  | .eq => .oeq
  | .ne => .une
  | .lt => .olt
  | .le => .ole
  | .gt => .ogt
  | .ge => .oge

/-- Read only functions read all three kinds of memory and write none. -/
def enumAttribute : Attribute → EnumAttribute
  | .noReturn => ⟨Attribute.noReturn.name, 0⟩
  | .noUnwind => ⟨Attribute.noUnwind.name, 0⟩
  | .readOnly => ⟨"memory", 0b010101⟩
  | .readNone => ⟨"memory", 0⟩

/-- A constant of type `t`. An integer is handed over as the low 64 bits of its two's complement. -/
def constVal (t : Scalar) : Const → Val
  | .bool b => .int (Ty.ofScalar t) (if b then 1 else 0)
  | .int v => .int (Ty.ofScalar t) (BitVec.ofInt 64 v)
  | .float x => .real (Ty.ofScalar t) x

/-- The values that locals have been lowered to, the latest first. -/
abbrev Locals := List (LocalName × Val)

/-- What lowering a function's body works with. -/
structure Site where
  /-- The function. -/
  function : Label
  /-- The LLVM builder in use. -/
  builder : Nat
  /-- The labels of the function's blocks. -/
  labels : List Label
  /-- The functions that can be called. -/
  callees : List (Label × FuncType)

/-- A phi whose values are still to be added. -/
structure PendingPhi (n : Nat) where
  phi : Val
  block : Fin n
  incoming : List (Value × Label)

def lowerValue (locals : Locals) : Value → Lower Val
  | .const ty c _ => pure (constVal ty c)
  | .loc _ name _ =>
    match locals.lookup name with
    | some v => pure v
    | none => Lower.fail ("use of " ++ name.text ++ " before its definition")

namespace Site

def block (site : Site) (label : Label) : Lower BlockRef :=
  if label ∈ site.labels then pure ⟨site.function, label⟩
  else Lower.fail ("unknown block " ++ label)

/-- Asks the builder for an instruction with a result. -/
def build (site : Site) (instruction : Val → Build) : Lower Val :=
  liftM (Emit.buildVal site.builder instruction)

/-- Asks the builder for an instruction without a result. -/
def finish (site : Site) (instruction : Build) : Lower Unit :=
  liftM (Emit.build site.builder instruction)

/-- Lowers an operation. LLVM wants the amount of a shift to be as wide as the value shifted. -/
def lowerBinary (site : Site) (locals : Locals) (op : BinOp) (lhs rhs : Value) : Lower Val := do
  let t := lhs.ty
  let l ← lowerValue locals lhs
  let r ← lowerValue locals rhs
  let r ←
    if op.isShift && decide (t.width < rhs.ty.width) then
      site.build (.cast .trunc r (Ty.ofScalar t))
    else pure r
  site.build (.binary (binaryOpcode op t) l r)

/-- Lowers an instruction to the value of its result. A phi gets no values yet. -/
def lowerInstr (site : Site) (locals : Locals) : Instr → Lower Val
  | .binary op lhs rhs => site.lowerBinary locals op lhs rhs
  | .cast op value target => do
    let v ← lowerValue locals value
    site.build (.cast (castOpcode op value.ty target) v (Ty.ofScalar target))
  | .cmp predicate lhs rhs => do
    let l ← lowerValue locals lhs
    let r ← lowerValue locals rhs
    if lhs.ty.isFloat then site.build (.fcmp (realPredicate predicate) l r)
    else site.build (.icmp (intPredicate predicate lhs.ty.isSigned) l r)
  | .select condition ifTrue ifFalse => do
    let c ← lowerValue locals condition
    let t ← lowerValue locals ifTrue
    let f ← lowerValue locals ifFalse
    site.build (.select c t f)
  | .phi ty _ => site.build (.phi (Ty.ofScalar ty))
  | .call callee _ args attributes => do
    match site.callees.lookup callee with
    | none => Lower.fail ("call to undeclared function " ++ callee)
    | some type =>
      let vs ← args.mapM (lowerValue locals)
      let result ← site.build (.call type callee vs)
      attributes.forM fun a => Emit.call (.addCallSiteAttribute result (enumAttribute a))
      return result

/-- Lowers the instructions of block `block` in turn. Gives the locals after them, and the phis
among them. -/
def lowerBody (site : Site) {n : Nat} (block : Fin n) :
    List Named → Locals → Lower (Locals × List (PendingPhi n))
  | [], locals => pure (locals, [])
  | named :: rest, locals => do
    let v ← site.lowerInstr locals named.instr
    let here := match named.instr with
      | .phi _ incoming => [⟨v, block, incoming⟩]
      | _ => []
    let locals := match named.name? with
      | some name => (name, v) :: locals
      | none => locals
    let (locals, later) ← site.lowerBody block rest locals
    return (locals, here ++ later)

def lowerTerminator (site : Site) (locals : Locals) : Terminator → Lower Unit
  | .ret => site.finish .retVoid
  | .retVal value => do
    let v ← lowerValue locals value
    site.finish (.ret v)
  | .br target => do
    let b ← site.block target
    site.finish (.br b)
  | .condBr condition ifTrue ifFalse => do
    let c ← lowerValue locals condition
    let t ← site.block ifTrue
    let f ← site.block ifFalse
    site.finish (.condBr c t f)
  | .switch scrutinee default cases => do
    let v ← lowerValue locals scrutinee
    let d ← site.block default
    site.finish (.switch v d cases.length)
    cases.forM fun (c, target) => do
      let b ← site.block target
      Emit.call (.addCase (constVal scrutinee.ty c) b)

/-- Lowers a block. -/
def lowerBlock (site : Site) {n : Nat} (index : Fin n) (b : Block) (locals : Locals) :
    Lower (Locals × List (PendingPhi n)) := do
  let ref ← site.block b.label
  site.finish (.positionAtEnd ref)
  let (locals, phis) ← site.lowerBody index b.body locals
  site.lowerTerminator locals b.terminator
  return (locals, phis)

/-- Lowers blocks in this order. -/
def lowerBlocks (site : Site) (blocks : List Block) :
    List (Fin blocks.length) → Locals → Lower (Locals × List (PendingPhi blocks.length))
  | [], locals => pure (locals, [])
  | i :: rest, locals => do
    let (locals, here) ← site.lowerBlock i (blocks.get i) locals
    let (locals, later) ← site.lowerBlocks blocks rest locals
    return (locals, here ++ later)

/-- Adds the values of a phi. -/
def resolvePhi (site : Site) (blocks : List Block) (cfg : Cfg blocks.length) (locals : Locals)
    (p : PendingPhi blocks.length) : Lower Unit := do
  let entries ← p.incoming.mapM fun (value, label) => do
    let edges := (cfg.pred p.block).filter fun i => some i = blockIndex? blocks label
    let v ← lowerValue locals value
    let b ← site.block label
    return edges.map fun _ => (v, b)
  Emit.call (.addIncoming p.phi entries.flatten)

end Site

/-- The parameters of a function as locals. -/
def paramLocals (f : Func) : Locals :=
  (f.params.zipIdx.map fun (name, index) => (name, .param f.label index)).reverse

/-- Lowers a function that has been added to the LLVM module. -/
def lowerFunc (context : Nat) (callees : List (Label × FuncType)) (f : Func) : Lower Unit := do
  let builder ← Emit.create (·.builders) (fun c => { c with builders := c.builders + 1 })
    (.createBuilder context)
  Lower.ensuring (do
    f.blocks.forM fun b => do
      Lower.checkText b.label
      Emit.call (.appendBasicBlock context ⟨f.label, b.label⟩)
    let cfg := Cfg.ofBlocks f.blocks
    let site : Site := ⟨f.label, builder, f.blocks.map Block.label, callees⟩
    let (locals, phis) ← site.lowerBlocks f.blocks cfg.emissionOrder (paramLocals f)
    phis.forM (site.resolvePhi f.blocks cfg locals))
    (Emit.call (.disposeBuilder builder))

/-- Adds a function to the LLVM module, without a body. -/
def addFunc (module : Nat) (symbol : Label) (type : TypedSSA.FuncType) : Lower Unit := do
  Lower.checkText symbol
  Emit.call (.addFunction module symbol (FuncType.ofFuncType type))

/-- The functions of a module, as LLVM knows them. -/
def callees (m : Module) : List (Label × FuncType) :=
  (m.declarations ++ m.definitions.map fun f => (f.label, f.type)).map fun (symbol, type) =>
    (symbol, FuncType.ofFuncType type)

/-- Lowers a module into a new LLVM module, and gives its number. -/
def lowerModule (context : Nat) (m : Module) : Lower Nat := do
  Lower.checkText m.name
  Lower.checkText m.target.triple
  Lower.checkText m.target.dataLayout
  let module ← Emit.create (·.modules) (fun c => { c with modules := c.modules + 1 })
    (.moduleCreate m.name context)
  Emit.call (.setTarget module m.target.triple)
  Emit.call (.setDataLayout module m.target.dataLayout)
  Lower.onFailure (do
    m.declarations.forM fun (symbol, type) => addFunc module symbol type
    m.definitions.forM fun f => addFunc module f.label f.type
    m.definitions.forM (lowerFunc context (callees m)))
    (Emit.call (.disposeModule module))
  return module

end TypedSSA.LLVM
