import TypedSSA.Instr
import TypedSSA.Options

/-!
# Calls to LLVM

Code is generated by calls to the LLVM C API, and a compilation is the list of calls that it makes.
Objects that LLVM creates are numbered, each kind by itself. `Call.record?` is the line that a call
leaves in a log; calls that only ask, and those on target machines, target data and pass options,
leave none.
-/

namespace TypedSSA.LLVM

/-- A type of LLVM. It has one integer type for each width, signed or not. -/
inductive Ty where
  | void
  | int (width : Nat)
  | float
  | double
deriving DecidableEq, Repr

namespace Ty

def text : Ty → String
  | void => "void"
  | int width => "i" ++ toString width
  | float => "float"
  | double => "double"

def ofScalar (t : Scalar) : Ty :=
  match t with
  | .f32 => float
  | .f64 => double
  | t => int t.width

def ofTy : TypedSSA.Ty → Ty
  | .void => void
  | .scalar t => ofScalar t

end Ty

/-- The type of an LLVM function. -/
structure FuncType where
  params : List Ty
  ret : Ty
deriving DecidableEq, Repr

namespace FuncType

def text (f : FuncType) : String :=
  f.ret.text ++ " (" ++ ", ".intercalate (f.params.map Ty.text) ++ ")"

def ofFuncType (f : TypedSSA.FuncType) : FuncType := ⟨f.params.map Ty.ofScalar, Ty.ofTy f.ret⟩

end FuncType

/-- An LLVM value. -/
inductive Val where
  /-- The integer constant made from a word. -/
  | int (ty : Ty) (word : BitVec 64)
  | real (ty : Ty) (x : Double)
  | param (function : String) (index : Nat)
  /-- The result of the instruction with this number. -/
  | result (n : Nat)
deriving DecidableEq, Repr

def Val.text : Val → String
  | int ty word => ty.text ++ " " ++ toString word.toNat
  | real ty x => ty.text ++ " " ++ x.hex
  | param function index => "@" ++ function ++ "#" ++ toString index
  | result n => "%" ++ toString n

/-- A basic block of an LLVM function. -/
structure BlockRef where
  function : String
  label : String
deriving DecidableEq, Repr

def BlockRef.text (b : BlockRef) : String := "^" ++ b.label

/-- An instruction of two operands. -/
inductive BinaryOpcode where
  | add
  | fadd
  | sub
  | fsub
  | mul
  | fmul
  | sdiv
  | udiv
  | srem
  | urem
  | fdiv
  | shl
  | lshr
  | ashr
  | and
  | or
  | xor
deriving DecidableEq, Repr

def BinaryOpcode.name : BinaryOpcode → String
  | add => "Add"
  | fadd => "FAdd"
  | sub => "Sub"
  | fsub => "FSub"
  | mul => "Mul"
  | fmul => "FMul"
  | sdiv => "SDiv"
  | udiv => "UDiv"
  | srem => "SRem"
  | urem => "URem"
  | fdiv => "FDiv"
  | shl => "Shl"
  | lshr => "LShr"
  | ashr => "AShr"
  | and => "And"
  | or => "Or"
  | xor => "Xor"

/-- A conversion instruction. -/
inductive CastOpcode where
  | trunc
  | fptrunc
  | sext
  | zext
  | fpext
  | fptosi
  | fptoui
  | sitofp
  | uitofp
  | bitcast
deriving DecidableEq, Repr

def CastOpcode.name : CastOpcode → String
  | trunc => "Trunc"
  | fptrunc => "FPTrunc"
  | sext => "SExt"
  | zext => "ZExt"
  | fpext => "FPExt"
  | fptosi => "FPToSI"
  | fptoui => "FPToUI"
  | sitofp => "SIToFP"
  | uitofp => "UIToFP"
  | bitcast => "BitCast"

/-- A comparison of integers. -/
inductive IntPredicate where
  | eq
  | ne
  | slt
  | ult
  | sle
  | ule
  | sgt
  | ugt
  | sge
  | uge
deriving DecidableEq, Repr

def IntPredicate.name : IntPredicate → String
  | eq => "LLVMIntEQ"
  | ne => "LLVMIntNE"
  | slt => "LLVMIntSLT"
  | ult => "LLVMIntULT"
  | sle => "LLVMIntSLE"
  | ule => "LLVMIntULE"
  | sgt => "LLVMIntSGT"
  | ugt => "LLVMIntUGT"
  | sge => "LLVMIntSGE"
  | uge => "LLVMIntUGE"

/-- A comparison of floating numbers. -/
inductive RealPredicate where
  | oeq
  | une
  | olt
  | ole
  | ogt
  | oge
deriving DecidableEq, Repr

def RealPredicate.name : RealPredicate → String
  | oeq => "LLVMRealOEQ"
  | une => "LLVMRealUNE"
  | olt => "LLVMRealOLT"
  | ole => "LLVMRealOLE"
  | ogt => "LLVMRealOGT"
  | oge => "LLVMRealOGE"

/-- An attribute of a call, a kind and a value. -/
structure EnumAttribute where
  kind : String
  value : Nat
deriving DecidableEq, Repr

def EnumAttribute.text (a : EnumAttribute) : String := a.kind ++ "=" ++ toString a.value

/-- What a builder is asked to do at the place where it stands. -/
inductive Build where
  | positionAtEnd (block : BlockRef)
  | binary (op : BinaryOpcode) (lhs rhs result : Val)
  | cast (op : CastOpcode) (value : Val) (ty : Ty) (result : Val)
  | icmp (predicate : IntPredicate) (lhs rhs result : Val)
  | fcmp (predicate : RealPredicate) (lhs rhs result : Val)
  | select (condition ifTrue ifFalse result : Val)
  | phi (ty : Ty) (result : Val)
  | call (type : FuncType) (function : String) (args : List Val) (result : Val)
  | retVoid
  | ret (value : Val)
  | br (target : BlockRef)
  | condBr (condition : Val) (ifTrue ifFalse : BlockRef)
  | switch (value : Val) (default : BlockRef) (cases : Nat)
deriving DecidableEq, Repr

/-- What is set up once before anything else. -/
inductive Setup where
  | targets
  | targetInfos
  | targetMCs
  | asmPrinters
  | linkInMCJIT
deriving DecidableEq, Repr

/-- What can be asked of the host. -/
inductive HostFact where
  | triple
  | cpu
  | features
deriving DecidableEq, Repr

/-- A call to LLVM, with the number of the object that it created if it did. -/
inductive Call where
  | setup (part : Setup)
  | host (fact : HostFact)
  | getTargetFromTriple (triple : String)
  | createTargetMachine (triple cpu features : String) (level : OptLevel) (machine : Nat)
  | createTargetData (machine data : Nat)
  | copyTargetData (data : Nat)
  | disposeTargetData (data : Nat)
  | disposeTargetMachine (machine : Nat)
  | contextCreate (context : Nat)
  | contextDispose (context : Nat)
  | moduleCreate (name : String) (context module : Nat)
  | disposeModule (module : Nat)
  | setTarget (module : Nat) (triple : String)
  | setDataLayout (module : Nat) (layout : String)
  | addFunction (module : Nat) (name : String) (type : FuncType)
  | createBuilder (context builder : Nat)
  | disposeBuilder (builder : Nat)
  | appendBasicBlock (context : Nat) (block : BlockRef)
  | build (builder : Nat) (instruction : Build)
  | addIncoming (phi : Val) (incoming : List (Val × BlockRef))
  | addCallSiteAttribute (call : Val) (attr : EnumAttribute)
  | addCase (value : Val) (target : BlockRef)
  | verifyModule (module : Nat)
  | createPassOptions (passOptions : Nat)
  | runPasses (module : Nat) (passes : String) (passOptions : Nat)
  | disposePassOptions (passOptions : Nat)
  /-- Takes the module, whether an engine is created or not. -/
  | createEngine (module : Nat) (level : OptLevel) (engine : Option Nat)
  | getFunctionAddress (engine : Nat) (name : String)
  | disposeEngine (engine : Nat)
deriving DecidableEq, Repr

/-- A field of a line in the log. -/
inductive Field where
  | text (s : String)
  | texts (ss : List String)
  | number (n : Nat)
deriving DecidableEq, Repr

/-- The place of attributes of the function called, of all places that a call has. -/
def functionIndex : Nat := 0xffffffff

namespace Build

def record : Build → List Field
  | positionAtEnd block => [.text "PositionAtEnd", .text block.text]
  | binary op lhs rhs result =>
    [.text ("Build" ++ op.name), .text lhs.text, .text rhs.text, .text result.text]
  | cast op value ty result =>
    [.text ("Build" ++ op.name), .text value.text, .text ty.text, .text result.text]
  | icmp predicate lhs rhs result =>
    [.text "BuildICmp", .text predicate.name, .text lhs.text, .text rhs.text, .text result.text]
  | fcmp predicate lhs rhs result =>
    [.text "BuildFCmp", .text predicate.name, .text lhs.text, .text rhs.text, .text result.text]
  | select condition ifTrue ifFalse result =>
    [.text "BuildSelect", .text condition.text, .text ifTrue.text, .text ifFalse.text,
      .text result.text]
  | phi ty result => [.text "BuildPhi", .text ty.text, .text result.text]
  | call type function args result =>
    [.text "BuildCall", .text type.text, .text ("@" ++ function), .texts (args.map Val.text),
      .text result.text]
  | retVoid => [.text "BuildRetVoid"]
  | ret value => [.text "BuildRet", .text value.text]
  | br target => [.text "BuildBr", .text target.text]
  | condBr condition ifTrue ifFalse =>
    [.text "BuildCondBr", .text condition.text, .text ifTrue.text, .text ifFalse.text]
  | switch value default cases =>
    [.text "BuildSwitch", .text value.text, .text default.text, .number cases]

end Build

namespace Call

/-- An object in the log: its kind and number. -/
def object (kind : String) (n : Nat) : Field := .text (kind ++ toString n)

def record? : Call → Option (List Field)
  | getTargetFromTriple triple => some [.text "GetTargetFromTriple", .text triple]
  | createTargetMachine triple cpu features level _ =>
    some [.text "CreateTargetMachine", .text triple, .text cpu, .text features,
      .text ("LLVMCodeGenLevel" ++ level.name), .text "LLVMRelocDefault",
      .text "LLVMCodeModelJITDefault"]
  | contextCreate context => some [.text "ContextCreate", object "context" context]
  | contextDispose context => some [.text "ContextDispose", object "context" context]
  | moduleCreate name context module =>
    some [.text "ModuleCreate", .text name, object "context" context, object "module" module]
  | disposeModule module => some [.text "DisposeModule", object "module" module]
  | setTarget module triple => some [.text "SetTarget", object "module" module, .text triple]
  | setDataLayout module layout =>
    some [.text "SetDataLayout", object "module" module, .text layout]
  | addFunction _ name type => some [.text "AddFunction", .text ("@" ++ name), .text type.text]
  | createBuilder _ builder => some [.text "CreateBuilder", object "builder" builder]
  | disposeBuilder builder => some [.text "DisposeBuilder", object "builder" builder]
  | appendBasicBlock _ block =>
    some [.text "AppendBasicBlock", .text ("@" ++ block.function), .text block.text]
  | build _ instruction => some instruction.record
  | addIncoming phi incoming =>
    some [.text "AddIncoming", .text phi.text, .texts (incoming.map fun e => e.1.text),
      .texts (incoming.map fun e => e.2.text)]
  | addCallSiteAttribute call attr =>
    some [.text "AddCallSiteAttribute", .text call.text, .number functionIndex,
      .text attr.text]
  | addCase value target => some [.text "AddCase", .text value.text, .text target.text]
  | verifyModule module => some [.text "VerifyModule", object "module" module]
  | runPasses module passes _ => some [.text "RunPasses", object "module" module, .text passes]
  | createEngine module level _ =>
    some [.text "CreateMCJITCompiler", object "module" module, .number level.number]
  | getFunctionAddress _ name => some [.text "GetFunctionAddress", .text name]
  | disposeEngine engine => some [.text "DisposeExecutionEngine", object "engine" engine]
  | setup _ | host _ | createTargetData .. | copyTargetData _ | disposeTargetData _
  | disposeTargetMachine _ | createPassOptions _ | disposePassOptions _ => none

end Call

end TypedSSA.LLVM
