import TypedSSA.Const
import TypedSSA.Name
import TypedSSA.Text.Quoted

/-!
# Faults

Why a piece of code is refused. `Fault.message` says so in words.
-/

namespace TypedSSA

/-- The type of a function: its parameters' types and the type of its result. -/
structure FuncType where
  params : List Scalar
  ret : Ty
deriving DecidableEq, Repr

def FuncType.text (f : FuncType) : String :=
  "fn(" ++ ", ".intercalate (f.params.map Scalar.name) ++ ") -> " ++ f.ret.name

/-- Why a piece of code is refused. -/
inductive Fault where
  | typeMismatch (expected found : Ty)
  | unsupportedOperand (op : String) (ty : Scalar)
  | invalidCast (op : String) (source target : Scalar)
  | constantOutOfRange (ty : Scalar) (value : Const)
  | callArityMismatch (callee : Label) (found needs : Nat)
  | callArgumentMismatch (callee : Label) (index : Nat) (found needs : Scalar)
  | emptyPhi
  | phiNotAtBlockEntry (block : Label)
  | phiInEntryBlock (function : Label)
  | phiPredecessorMismatch (block : Label) (expected found : List Label)
  | duplicateSwitchCase (value : Const)
  | bindUnit
  | discardValue (ty : Scalar)
  | duplicateName (name : LocalName)
  | invalidSymbol (symbol : String)
  | unboundName (function : Label) (name : LocalName)
  | duplicateLabel (label : Label)
  | undefinedLabel (function target : Label)
  | branchToEntry (function source : Label)
  | useNotDominated (function block : Label) (name : LocalName)
  | unterminatedBlock (label : Label)
  | noOpenBlock
  | duplicateSymbol (symbol : Label)
  | unknownFunction (callee : Label)
  | signatureMismatch (symbol : Label) (expected found : FuncType)
deriving DecidableEq, Repr

namespace Fault

def message : Fault → String
  | typeMismatch expected found =>
    "expected a value of type " ++ expected.name ++ ", found " ++ found.name
  | unsupportedOperand op ty => op ++ " is not defined for operands of type " ++ ty.name
  | invalidCast op source target => op ++ " cannot convert " ++ source.name ++ " to " ++ target.name
  | constantOutOfRange ty value => "constant " ++ value.text ++ " does not fit in " ++ ty.name
  | callArityMismatch callee found needs =>
    "call to " ++ callee ++ " has " ++ toString found ++ " arguments, needs " ++ toString needs
  | callArgumentMismatch callee index found needs =>
    "argument " ++ toString index ++ " of call to " ++ callee ++ " has type " ++ found.name ++
      ", needs " ++ needs.name
  | emptyPhi => "phi node has no incoming values"
  | phiNotAtBlockEntry block => "phi node in block " ++ block ++ " follows a non-phi instruction"
  | phiInEntryBlock function =>
    "phi node in the entry block of " ++ function ++ ", which has no predecessors"
  | phiPredecessorMismatch block expected found =>
    "phi node in " ++ block ++ " has incoming blocks [" ++ ", ".intercalate found ++
      "], its predecessors are [" ++ ", ".intercalate expected ++ "]"
  | duplicateSwitchCase value => "switch case " ++ value.text ++ " appears more than once"
  | bindUnit => "cannot bind a name to an instruction producing no value"
  | discardValue ty => "cannot discard the " ++ ty.name ++ " result of an instruction"
  | duplicateName name => "name " ++ name.text ++ " is already bound"
  | invalidSymbol symbol =>
    Text.quoted symbol ++
      " is not a valid symbolic name, it must not be empty or start with a digit"
  | unboundName function name => "use of unbound name " ++ name.text ++ " in " ++ function
  | duplicateLabel label => "block " ++ label ++ " is defined more than once"
  | undefinedLabel function target => "branch to undefined block " ++ target ++ " in " ++ function
  | branchToEntry function source =>
    "branch to the entry block of " ++ function ++ " from " ++ source
  | useNotDominated function block name =>
    name.text ++ " is used in " ++ block ++ " of " ++ function ++
      ", where its definition does not dominate the use"
  | unterminatedBlock label => "block " ++ label ++ " has no terminator"
  | noOpenBlock => "no open block to append to, start one after a terminator"
  | duplicateSymbol symbol => "symbol " ++ symbol ++ " is defined more than once"
  | unknownFunction callee => "call to unknown function " ++ callee
  | signatureMismatch symbol expected found =>
    symbol ++ " is known as " ++ expected.text ++ ", used as " ++ found.text

end Fault

end TypedSSA
