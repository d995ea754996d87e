import TypedSSA.Module

/-!
# Code generation

What every code generator does before it generates: it describes its target, and refuses a module
for another target or with calls that do not agree.
-/

namespace TypedSSA

/-- Why no code is generated. -/
inductive CodegenError where
  | llvm (message : String)
  | targetMismatch (module target : String)
  | symbolNotFound (symbol : String)
  | illTyped (fault : Fault)
deriving DecidableEq, Repr

def CodegenError.message : CodegenError → String
  | llvm message => "llvm compile error: " ++ message
  | targetMismatch module target =>
    "module targets " ++ module ++ ", the code generator targets " ++ target
  | symbolNotFound symbol => "symbol " ++ symbol ++ " not found in compiled code"
  | illTyped fault => fault.message

namespace Module

/-- Refuses a module that is not for the target described. -/
def checkTarget (m : Module) (target : TargetDesc) : Except CodegenError Unit :=
  if m.target = target then .ok () else .error (.targetMismatch m.target.triple target.triple)

/-- Refuses a module that is not for the target described, or with calls that do not agree. -/
def checkFor (m : Module) (target : TargetDesc) : Except CodegenError Unit := do
  m.checkTarget target
  m.validate.mapError .illTyped

end Module

end TypedSSA
