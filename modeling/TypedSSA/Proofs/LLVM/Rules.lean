import TypedSSA.Proofs.LLVM.Emits
import TypedSSA.Proofs.LLVM.Opcodes

/-!
# The typing rules of LLVM

What LLVM asks of the calls made to it. A list of calls gives types to values (`HasType`): a
constant has the type it was made with, a parameter that of the function as it was added, and a
result that of the instruction, which is taken for granted of LLVM. Each call has a rule
(`Call.WellTyped`), which depends on the calls before it and on no other: values must have got their
types by then, a return is looked at in the function that the builder stands in, and a case together
with the last switch. `Accepted` goes through the calls in order.

Values have one type (`HasType.unique`), and the instructions that lowering picks for operands of a
type can be used on the LLVM type of it (`BinaryOpcode.Performs.takes`,
`CastOpcode.Performs.converts`).
-/

namespace TypedSSA

theorem Scalar.eq_of_isFloat {t : Scalar} (h : t.isFloat = true) : t = .f32 ∨ t = .f64 := by
  cases t <;> first | exact .inl rfl | exact .inr rfl | cases h

namespace LLVM

/-! ## Instructions and types -/

namespace Ty

def isInt : Ty → Bool
  | int _ => true
  | _ => false

def isFloat : Ty → Bool
  | float | double => true
  | _ => false

/-- The number of bits of a value. -/
def bits? : Ty → Option Nat
  | void => none
  | int width => some width
  | float => some 32
  | double => some 64

theorem ofScalar_of_not_isFloat {t : Scalar} (h : t.isFloat = false) :
    ofScalar t = int t.width := by
  cases t <;> first | rfl | cases h

theorem ofScalar_of_isIntegral {t : Scalar} (h : t.isIntegral = true) :
    ofScalar t = int t.width := by
  refine ofScalar_of_not_isFloat ?_
  cases t <;> first | rfl | cases h

theorem isFloat_ofScalar {t : Scalar} (h : t.isFloat = true) : (ofScalar t).isFloat = true := by
  cases t <;> first | rfl | cases h

/-- The type that a scalar is lowered to has its number of bits, be it an integer or a float. -/
theorem bits?_ofScalar (t : Scalar) : (ofScalar t).bits? = some t.width := by
  cases t <;> rfl

theorem ofScalar_ne_void (t : Scalar) : ofScalar t ≠ void := by
  cases t <;> exact Ty.noConfusion

end Ty

/-- Whether the instruction is one on floating numbers. -/
def BinaryOpcode.isFloat : BinaryOpcode → Bool
  | fadd | fsub | fmul | fdiv => true
  | _ => false

/-- The instruction can be used on operands of type `t`. -/
def BinaryOpcode.Takes (op : BinaryOpcode) (t : Ty) : Prop :=
  if op.isFloat then t.isFloat = true else t.isInt = true

/-- The instruction can be used to convert from one type to the other. -/
inductive CastOpcode.Converts : CastOpcode → Ty → Ty → Prop where
  | trunc {v w : Nat} (narrower : w < v) : Converts .trunc (.int v) (.int w)
  | fptrunc : Converts .fptrunc .double .float
  | sext {v w : Nat} (wider : v < w) : Converts .sext (.int v) (.int w)
  | zext {v w : Nat} (wider : v < w) : Converts .zext (.int v) (.int w)
  | fpext : Converts .fpext .float .double
  | fptosi {s : Ty} {w : Nat} (float : s.isFloat = true) : Converts .fptosi s (.int w)
  | fptoui {s : Ty} {w : Nat} (float : s.isFloat = true) : Converts .fptoui s (.int w)
  | sitofp {v : Nat} {t : Ty} (float : t.isFloat = true) : Converts .sitofp (.int v) t
  | uitofp {v : Nat} {t : Ty} (float : t.isFloat = true) : Converts .uitofp (.int v) t
  | bitcast {s t : Ty} {n : Nat} (source : s.bits? = some n) (target : t.bits? = some n) :
      Converts .bitcast s t

/-- LLVM takes operands of the type that an operation is performed at, if the opcode is one that
performs it. -/
theorem BinaryOpcode.Performs.takes {opcode : BinaryOpcode} {op : BinOp} {t : Scalar}
    (h : opcode.Performs op t) : opcode.Takes (Ty.ofScalar t) := by
  have hint : t.isIntegral = true → (Ty.ofScalar t).isInt = true := fun hi => by
    rw [Ty.ofScalar_of_isIntegral hi]
    rfl
  cases h with
  | fadd float | fsub float | fmul float | fdiv float => exact Ty.isFloat_ofScalar float
  | sdiv signed | srem signed => exact hint (by rw [Scalar.isIntegral, signed, Bool.true_or])
  | udiv unsigned | urem unsigned => exact hint (by rw [Scalar.isIntegral, unsigned, Bool.or_true])
  | add integral | sub integral | mul integral | shl integral | lshr integral | ashr integral
  | and integral | or integral | xor integral => exact hint integral

/-- LLVM converts between the types of a conversion, if the opcode is one that performs it. In
particular widths are in the order that the opcode asks for. -/
theorem CastOpcode.Performs.converts {opcode : CastOpcode} {op : CastOp} {s t : Scalar}
    (h : opcode.Performs op s t) : opcode.Converts (Ty.ofScalar s) (Ty.ofScalar t) := by
  have hsigned : ∀ {u : Scalar}, u.isSigned = true → Ty.ofScalar u = .int u.width := fun hu =>
    Ty.ofScalar_of_isIntegral (by rw [Scalar.isIntegral, hu, Bool.true_or])
  have hunsigned : ∀ {u : Scalar}, u.isUnsigned = true → Ty.ofScalar u = .int u.width := fun hu =>
    Ty.ofScalar_of_isIntegral (by rw [Scalar.isIntegral, hu, Bool.or_true])
  cases h with
  | trunc source target narrower =>
    rw [Ty.ofScalar_of_isIntegral source, Ty.ofScalar_of_isIntegral target]
    exact .trunc narrower
  | sext source target wider =>
    rw [hsigned source, Ty.ofScalar_of_isIntegral target]
    exact .sext wider
  | zext source target wider =>
    rw [hunsigned source, Ty.ofScalar_of_isIntegral target]
    exact .zext wider
  | fptrunc source target narrower =>
    -- there are only two floating types, so the widths say which is which
    rcases Scalar.eq_of_isFloat source with rfl | rfl <;>
      rcases Scalar.eq_of_isFloat target with rfl | rfl
    · exact absurd narrower (by decide)
    · exact absurd narrower (by decide)
    · exact .fptrunc
    · exact absurd narrower (by decide)
  | fpext source target wider =>
    rcases Scalar.eq_of_isFloat source with rfl | rfl <;>
      rcases Scalar.eq_of_isFloat target with rfl | rfl
    · exact absurd wider (by decide)
    · exact .fpext
    · exact absurd wider (by decide)
    · exact absurd wider (by decide)
  | fptosi source target =>
    rw [hsigned target]
    exact .fptosi (Ty.isFloat_ofScalar source)
  | fptoui source target =>
    rw [hunsigned target]
    exact .fptoui (Ty.isFloat_ofScalar source)
  | sitofp source target =>
    rw [hsigned source]
    exact .sitofp (Ty.isFloat_ofScalar target)
  | uitofp source target =>
    rw [hunsigned source]
    exact .uitofp (Ty.isFloat_ofScalar target)
  | bitcast same => exact .bitcast (Ty.bits?_ofScalar s) (same ▸ Ty.bits?_ofScalar t)

/-! ## Values -/

/-- The type of a value, when these calls are made. -/
inductive HasType (calls : List Call) : Val → Ty → Prop where
  | int {width : Nat} (word : BitVec 64) : HasType calls (.int (.int width) word) (.int width)
  | real {t : Ty} (x : Double) (float : t.isFloat = true) : HasType calls (.real t x) t
  | param {module : Nat} {name : String} {type : FuncType} {k : Nat} {t : Ty}
      (added : .addFunction module name type ∈ calls) (param : type.params[k]? = some t) :
      HasType calls (.param name k) t
  | binary {builder n : Nat} {op : BinaryOpcode} {lhs rhs : Val} {t : Ty}
      (built : .build builder (.binary op lhs rhs (.result n)) ∈ calls)
      (operand : HasType calls lhs t) : HasType calls (.result n) t
  | cast {builder n : Nat} {op : CastOpcode} {value : Val} {t : Ty}
      (built : .build builder (.cast op value t (.result n)) ∈ calls) :
      HasType calls (.result n) t
  | icmp {builder n : Nat} {p : IntPredicate} {lhs rhs : Val}
      (built : .build builder (.icmp p lhs rhs (.result n)) ∈ calls) :
      HasType calls (.result n) (.int 1)
  | fcmp {builder n : Nat} {p : RealPredicate} {lhs rhs : Val}
      (built : .build builder (.fcmp p lhs rhs (.result n)) ∈ calls) :
      HasType calls (.result n) (.int 1)
  | select {builder n : Nat} {condition ifTrue ifFalse : Val} {t : Ty}
      (built : .build builder (.select condition ifTrue ifFalse (.result n)) ∈ calls)
      (operand : HasType calls ifTrue t) : HasType calls (.result n) t
  | phi {builder n : Nat} {t : Ty} (built : .build builder (.phi t (.result n)) ∈ calls) :
      HasType calls (.result n) t
  | call {builder n : Nat} {type : FuncType} {function : String} {args : List Val}
      (built : .build builder (.call type function args (.result n)) ∈ calls) :
      HasType calls (.result n) type.ret

/-- The instruction that gives a result is the only one to do so. -/
theorem eq_of_result? {calls : List Call} (hnodup : (calls.filterMap Call.result?).Nodup)
    {c d : Call} (hc : c ∈ calls) (hd : d ∈ calls) {v : Val} (hcv : c.result? = some v)
    (hdv : d.result? = some v) : c = d := by
  induction calls with
  | nil => cases hc
  | cons b calls ih =>
    have hlater : ∀ e ∈ calls, e.result? = some v → b.result? = some v → False := by
      intro e he hev hbv
      rw [List.filterMap_cons_some hbv, List.nodup_cons] at hnodup
      exact hnodup.1 (List.mem_filterMap.mpr ⟨e, he, hev⟩)
    rcases List.mem_cons.mp hc with rfl | hc'
    · rcases List.mem_cons.mp hd with rfl | hd'
      · rfl
      · exact (hlater d hd' hdv hcv).elim
    · rcases List.mem_cons.mp hd with rfl | hd'
      · exact (hlater c hc' hcv hdv).elim
      · exact ih (hnodup.sublist ((List.sublist_cons_self b calls).filterMap _)) hc' hd'

/-- A value has one type, if no two instructions have one result and no function is added at two
types. -/
theorem HasType.unique {calls : List Call} (hresults : (calls.filterMap Call.result?).Nodup)
    (hadded : ∀ {module module' : Nat} {name : String} {type type' : FuncType},
      .addFunction module name type ∈ calls → .addFunction module' name type' ∈ calls →
        type = type') {v : Val} {s t : Ty} (hs : HasType calls v s) (ht : HasType calls v t) :
    s = t := by
  induction hs generalizing t with
  | int word =>
    cases ht
    rfl
  | real x float =>
    cases ht
    rfl
  | param added param =>
    cases ht with
    | param added' param' =>
      rw [hadded added added'] at param
      exact Option.some.inj (param.symm.trans param')
  | binary built operand ih =>
    cases ht with
    | binary built' operand' =>
      cases eq_of_result? hresults built built' rfl rfl
      exact ih operand'
    | cast built' | icmp built' | fcmp built' | select built' | phi built' | call built' =>
      cases eq_of_result? hresults built built' rfl rfl
  | select built operand ih =>
    cases ht with
    | select built' operand' =>
      cases eq_of_result? hresults built built' rfl rfl
      exact ih operand'
    | binary built' | cast built' | icmp built' | fcmp built' | phi built' | call built' =>
      cases eq_of_result? hresults built built' rfl rfl
  | cast built | icmp built | fcmp built | phi built | call built =>
    cases ht with
    | binary built' | cast built' | icmp built' | fcmp built' | select built' | phi built'
    | call built' =>
      cases eq_of_result? hresults built built' rfl rfl
      all_goals rfl

/-! ## Calls -/

/-- The block that the builder is put at the end of. -/
def Call.position? (builder : Nat) : Call → Option BlockRef
  | build b (.positionAtEnd block) => if b = builder then some block else none
  | _ => none

/-- What a switch is on. -/
def Call.scrutinee? : Call → Option Val
  | build _ (.switch value _ _) => some value
  | _ => none

/-- The block that a builder was last put at the end of. -/
def standsAt (builder : Nat) (before : List Call) : Option BlockRef :=
  (before.filterMap (Call.position? builder)).getLast?

/-- What the last switch was on. -/
def lastSwitch (before : List Call) : Option Val := (before.filterMap Call.scrutinee?).getLast?

/-- A builder stays where it is until it is positioned again. -/
theorem standsAt_append {builder : Nat} {l : List Call} (h : ∀ c ∈ l, c.position? builder = none)
    (before : List Call) : standsAt builder (before ++ l) = standsAt builder before := by
  rw [standsAt, List.filterMap_append, List.filterMap_eq_nil_iff.mpr h, List.append_nil]
  rfl

theorem standsAt_position (builder : Nat) (block : BlockRef) (before : List Call) :
    standsAt builder (before ++ [.build builder (.positionAtEnd block)]) = some block := by
  simp [standsAt, Call.position?]

/-- Cases are added to the switch built last, as long as no other is. -/
theorem lastSwitch_append {builder n : Nat} {v : Val} {default : BlockRef} {l : List Call}
    (h : ∀ c ∈ l, c.scrutinee? = none) (before : List Call) :
    lastSwitch (before ++ .build builder (.switch v default n) :: l) = some v := by
  have hswitch : (Call.build builder (.switch v default n)).scrutinee? = some v := rfl
  rw [lastSwitch, List.filterMap_append, List.filterMap_cons_some hswitch,
    List.filterMap_eq_nil_iff.mpr h, List.getLast?_append, List.getLast?_singleton, Option.some_or]

/-- A block has been appended to its function. -/
def Appended (before : List Call) (block : BlockRef) : Prop :=
  ∃ context, .appendBasicBlock context block ∈ before

/-- The block `here` is of a function that returns `t`. -/
def ReturnsFrom (before : List Call) (here : Option BlockRef) (t : Ty) : Prop :=
  ∃ block module type, here = some block ∧ .addFunction module block.function type ∈ before ∧
    type.ret = t

/-- The block `target` is of the same function as `here`. -/
def BranchesTo (before : List Call) (here : Option BlockRef) (target : BlockRef) : Prop :=
  ∃ block, here = some block ∧ target.function = block.function ∧ Appended before target

/-- The rule of an instruction at the end of the block `here`, after the calls `before`. -/
def Build.WellTyped (before : List Call) (here : Option BlockRef) : Build → Prop
  | positionAtEnd block => Appended before block
  | binary op lhs rhs _ => ∃ t, HasType before lhs t ∧ HasType before rhs t ∧ op.Takes t
  | cast op value t _ => ∃ s, HasType before value s ∧ op.Converts s t
  | icmp _ lhs rhs _ => ∃ w, HasType before lhs (.int w) ∧ HasType before rhs (.int w)
  | fcmp _ lhs rhs _ => ∃ t, HasType before lhs t ∧ HasType before rhs t ∧ t.isFloat = true
  | select condition ifTrue ifFalse _ =>
    HasType before condition (.int 1) ∧
      ∃ t, HasType before ifTrue t ∧ HasType before ifFalse t ∧ t ≠ .void
  | phi t _ => t ≠ .void
  | call type function args _ =>
    (∃ module, .addFunction module function type ∈ before) ∧
      List.Forall₂ (HasType before) args type.params
  | retVoid => ReturnsFrom before here .void
  | ret value => ∃ t, ReturnsFrom before here t ∧ HasType before value t
  | br target => BranchesTo before here target
  | condBr condition ifTrue ifFalse =>
    HasType before condition (.int 1) ∧
      BranchesTo before here ifTrue ∧ BranchesTo before here ifFalse
  | switch value default _ =>
    (∃ w, HasType before value (.int w)) ∧ BranchesTo before here default

/-- The rule of a call after the calls `before`. Calls that hand over neither values nor types have
none. -/
def Call.WellTyped (before : List Call) : Call → Prop
  | addFunction _ _ type => ∀ t ∈ type.params, t ≠ .void
  | build builder instruction => instruction.WellTyped before (standsAt builder before)
  | addIncoming phi incoming =>
    ∃ builder t, .build builder (.phi t phi) ∈ before ∧
      ∀ e ∈ incoming, HasType before e.1 t ∧ Appended before e.2
  | addCallSiteAttribute call _ =>
    ∃ builder type function args, .build builder (.call type function args call) ∈ before
  | addCase value target =>
    ∃ scrutinee w, lastSwitch before = some scrutinee ∧ HasType before scrutinee (.int w) ∧
      HasType before value (.int w) ∧ Appended before target
  | _ => True

/-- Each of the calls keeps to its rule, after those before it and the calls `before`. -/
def Accepted (before : List Call) : List Call → Prop
  | [] => True
  | c :: rest => c.WellTyped before ∧ Accepted (before ++ [c]) rest

section Accepted

variable {before l l' : List Call} {c : Call}

/-- Calls are accepted one after the other, each in view of those before it. -/
theorem accepted_append :
    Accepted before (l ++ l') ↔ Accepted before l ∧ Accepted (before ++ l) l' := by
  induction l generalizing before with
  | nil => simp [Accepted]
  | cons c l ih => simp [Accepted, ih, and_assoc]

theorem accepted_singleton : Accepted before [c] ↔ c.WellTyped before :=
  iff_of_eq (and_true _)

/-- Each of the calls keeps to its rule. -/
theorem accepted_iff :
    Accepted before l ↔ ∀ l₁ c l₂, l = l₁ ++ c :: l₂ → c.WellTyped (before ++ l₁) := by
  refine ⟨?_, fun h => ?_⟩
  · rintro h l₁ c l₂ rfl
    exact (accepted_append.mp h).2.1
  · induction l generalizing before with
    | nil => trivial
    | cons c l ih =>
      refine ⟨by simpa using h [] c l rfl, ih fun l₁ d l₂ hl => ?_⟩
      have hd := h (c :: l₁) d l₂ (by rw [hl]; rfl)
      rwa [List.append_cons] at hd

/-- Calls whose rules hold whatever comes before. -/
theorem accepted_of_forall (h : ∀ c ∈ l, ∀ before, c.WellTyped before) : Accepted before l :=
  accepted_iff.mpr fun _ c _ hl => h c (by simp [hl]) _

end Accepted

/-- A value keeps its type when more calls are made. -/
theorem HasType.mono {calls calls' : List Call} (hsub : calls ⊆ calls') {v : Val} {t : Ty}
    (h : HasType calls v t) : HasType calls' v t := by
  induction h with
  | int word => exact .int word
  | real x float => exact .real x float
  | param added param => exact .param (hsub added) param
  | binary built _ ih => exact .binary (hsub built) ih
  | cast built => exact .cast (hsub built)
  | icmp built => exact .icmp (hsub built)
  | fcmp built => exact .fcmp (hsub built)
  | select built _ ih => exact .select (hsub built) ih
  | phi built => exact .phi (hsub built)
  | call built => exact .call (hsub built)

theorem Appended.mono {calls calls' : List Call} (hsub : calls ⊆ calls') {block : BlockRef}
    (h : Appended calls block) : Appended calls' block := by
  obtain ⟨context, h⟩ := h
  exact ⟨context, hsub h⟩

end LLVM

end TypedSSA
