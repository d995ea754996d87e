import TypedSSA.Typed.Operand

/-!
# Typed signatures

A signature lists the parameters of a function, each with the operand that stands for it, and ends
in the function's label.
-/

namespace TypedSSA.Typed

/-- The signature of a function with these parameters' types and this result type. -/
inductive Signature : List Scalar → Ty → Type where
  | body {ret : Ty} (label : Label) : Signature [] ret
  | param {p : Scalar} {ps : List Scalar} {ret : Ty} (operand : Operand p)
      (rest : Signature ps ret) : Signature (p :: ps) ret

namespace Signature

def label {ps : List Scalar} {ret : Ty} : Signature ps ret → Label
  | body label => label
  | param _ rest => rest.label

def type {ps : List Scalar} {ret : Ty} (_ : Signature ps ret) : FuncType := ⟨ps, ret⟩

/-- The parameters' operands, as operands of a call. -/
def args {ps : List Scalar} {ret : Ty} : Signature ps ret → Args ps
  | body _ => .nil
  | param operand rest => .cons operand rest.args

end Signature

end TypedSSA.Typed
