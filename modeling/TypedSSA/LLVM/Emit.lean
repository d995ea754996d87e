import TypedSSA.Codegen
import TypedSSA.LLVM.Call

/-!
# Emission

A computation that makes calls to LLVM (`Emit`): what it gives depends on what LLVM replies and on
how many objects there are already, and it leaves the list of its calls. `Lower` is one that can
also fail; the calls made until then stay made.
-/

namespace TypedSSA.LLVM

/-- What LLVM answers where the answer is not for the caller to foresee. A text for an error means
that the request fails with it. -/
structure Replies where
  triple : String := ""
  cpu : String := ""
  features : String := ""
  dataLayout : String := ""
  targetError : Option String := none
  verifyError : Option String := none
  passesError : Option String := none
  engineError : Option String := none
  /-- Where the machine code of a function is, `0` if nowhere. -/
  address : String → Nat := fun _ => 4096

/-- How many objects of each kind have been created, and whether LLVM has been set up. -/
structure Counters where
  isSetUp : Bool := false
  machines : Nat := 0
  targetDatas : Nat := 0
  contexts : Nat := 0
  modules : Nat := 0
  builders : Nat := 0
  results : Nat := 0
  passOptions : Nat := 0
  engines : Nat := 0
deriving DecidableEq, Repr

/-- What a computation gives, and what it leaves behind. -/
structure Emitted (α : Type) where
  value : α
  counters : Counters
  calls : List Call

/-- A computation that makes calls to LLVM. -/
def Emit (α : Type) := Replies → Counters → Emitted α

namespace Emit

protected def pure {α : Type} (a : α) : Emit α := fun _ c => ⟨a, c, []⟩

protected def bind {α β : Type} (x : Emit α) (f : α → Emit β) : Emit β := fun r c =>
  let first := x r c
  let second := f first.value r first.counters
  ⟨second.value, second.counters, first.calls ++ second.calls⟩

instance : Monad Emit where
  pure := Emit.pure
  bind := Emit.bind

/-- What LLVM replies. -/
def replies : Emit Replies := fun r c => ⟨r, c, []⟩

/-- Makes a call. -/
def call (c : Call) : Emit Unit := fun _ counters => ⟨(), counters, [c]⟩

/-- Makes a call for a new object, which gets the next number. -/
def create (count : Counters → Nat) (next : Counters → Counters) (c : Nat → Call) : Emit Nat :=
  fun _ counters => ⟨count counters, next counters, [c (count counters)]⟩

/-- Asks a builder for an instruction with a result, which gets the next number. -/
def buildVal (builder : Nat) (instruction : Val → Build) : Emit Val := fun _ c =>
  let result := Val.result c.results
  ⟨result, { c with results := c.results + 1 }, [.build builder (instruction result)]⟩

/-- Asks a builder for an instruction without a result. -/
def build (builder : Nat) (instruction : Build) : Emit Unit := call (.build builder instruction)

/-- Sets LLVM up, unless it is. -/
def setUp : Emit Unit := fun _ c =>
  if c.isSetUp then ⟨(), c, []⟩
  else
    ⟨(), { c with isSetUp := true }, [.setup .targets, .setup .targetInfos, .setup .targetMCs,
      .setup .asmPrinters, .setup .linkInMCJIT]⟩

end Emit

/-- A computation that makes calls to LLVM and can fail. -/
abbrev Lower := ExceptT CodegenError Emit

namespace Lower

/-- Fails with what LLVM says. -/
def fail {α : Type} (message : String) : Lower α := throw (.llvm message)

/-- Fails if the reply to a request is an error. -/
def failOn (error? : Option String) : Lower Unit :=
  match error? with
  | some message => fail message
  | none => pure ()

/-- Does `cleanup` after `x`, also if `x` fails. -/
def ensuring {α : Type} (x : Lower α) (cleanup : Emit Unit) : Lower α :=
  ExceptT.mk do
    let outcome ← x.run
    cleanup
    return outcome

/-- Does `cleanup` after `x` if `x` fails. -/
def onFailure {α : Type} (x : Lower α) (cleanup : Emit Unit) : Lower α :=
  ExceptT.mk do
    match ← x.run with
    | .ok a => return .ok a
    | .error e =>
      cleanup
      return .error e

/-- Refuses a text that cannot be handed to LLVM, since a nul would end it. -/
def checkText (s : String) : Lower Unit :=
  if s.toList.contains '\x00' then fail (Text.quoted s ++ " contains a nul byte") else pure ()

end Lower

end TypedSSA.LLVM
