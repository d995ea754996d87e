import TypedSSA.Binary.Double
import TypedSSA.Binary.Lemmas
import TypedSSA.Binary.Single
import TypedSSA.Binary.Text
import TypedSSA.Builder
import TypedSSA.Codegen
import TypedSSA.CommandLine
import TypedSSA.Config
import TypedSSA.Const
import TypedSSA.Decimal.Shortest
import TypedSSA.Demo
import TypedSSA.Fault
import TypedSSA.Finish
import TypedSSA.Flow.Cfg
import TypedSSA.Flow.Dominators
import TypedSSA.Flow.Graph
import TypedSSA.Flow.Order
import TypedSSA.Func
import TypedSSA.Instr
import TypedSSA.LLVM.Call
import TypedSSA.LLVM.Emit
import TypedSSA.LLVM.Lowering
import TypedSSA.LLVM.Target
import TypedSSA.Main
import TypedSSA.Module
import TypedSSA.Name
import TypedSSA.Options
import TypedSSA.Proofs.Builder.Consistent
import TypedSSA.Proofs.Builder.Failures
import TypedSSA.Proofs.Builder.Given
import TypedSSA.Proofs.Builder.Interchange
import TypedSSA.Proofs.Builder.Outcomes
import TypedSSA.Proofs.Builder.Runs
import TypedSSA.Proofs.Builder.Supply
import TypedSSA.Proofs.Builder.Workshop
import TypedSSA.Proofs.Flow.Cfg
import TypedSSA.Proofs.Flow.Dominators
import TypedSSA.Proofs.Flow.Iteration
import TypedSSA.Proofs.Flow.Order
import TypedSSA.Proofs.Flow.Paths
import TypedSSA.Proofs.Function.Execution
import TypedSSA.Proofs.Function.Places
import TypedSSA.Proofs.Function.Typing
import TypedSSA.Proofs.Function.WellFormed
import TypedSSA.Proofs.LLVM.Constants
import TypedSSA.Proofs.LLVM.Emits
import TypedSSA.Proofs.LLVM.Faithful
import TypedSSA.Proofs.LLVM.InTurn
import TypedSSA.Proofs.LLVM.Lowering
import TypedSSA.Proofs.LLVM.Module
import TypedSSA.Proofs.LLVM.Opcodes
import TypedSSA.Proofs.LLVM.Outcome
import TypedSSA.Proofs.LLVM.Ownership
import TypedSSA.Proofs.LLVM.Phis
import TypedSSA.Proofs.LLVM.Rules
import TypedSSA.Proofs.LLVM.Session
import TypedSSA.Proofs.LLVM.Target
import TypedSSA.Proofs.LLVM.Trace
import TypedSSA.Proofs.LLVM.Translation
import TypedSSA.Proofs.LLVM.Triple
import TypedSSA.Proofs.LLVM.Typing
import TypedSSA.Proofs.Module.Assembly
import TypedSSA.Proofs.Module.Operations
import TypedSSA.Proofs.Module.Runs
import TypedSSA.Proofs.Module.Table
import TypedSSA.Proofs.Typed.Agreement
import TypedSSA.Proofs.Typed.Bounds
import TypedSSA.Proofs.Typed.Erasure
import TypedSSA.Scalar
import TypedSSA.Supply
import TypedSSA.Terminator
import TypedSSA.Text.Extending
import TypedSSA.Text.Quoted
import TypedSSA.Text.Range
import TypedSSA.Text.Unprintable
import TypedSSA.Toml.Document
import TypedSSA.Toml.Numbers
import TypedSSA.Toml.Scanner
import TypedSSA.Toml.Strings
import TypedSSA.Toml.Value
import TypedSSA.Typed.Bounds
import TypedSSA.Typed.Instr
import TypedSSA.Typed.Operand
import TypedSSA.Typed.Signature
import TypedSSA.Value
