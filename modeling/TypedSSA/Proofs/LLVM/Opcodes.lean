import TypedSSA.LLVM.Lowering
import TypedSSA.Proofs.Typed.Bounds

/-!
# The choice of instructions

LLVM has one integer type for each width, so signs are a matter of its instructions, and so is the
difference between integers and floating numbers. `BinaryOpcode.Performs`, `CastOpcode.Performs`,
`IntPredicate.Decides` and `RealPredicate.Decides` say which of them does what an operation asks
for, on operands of which types. Lowering picks one that does, on all types that the operation
admits.
-/

namespace TypedSSA

/-- An integral type is signed or unsigned. -/
theorem Scalar.isUnsigned_of_not_isSigned {t : Scalar} (h : t.isIntegral = true)
    (hs : t.isSigned = false) : t.isUnsigned = true := by
  rwa [isIntegral, hs, Bool.false_or] at h

namespace LLVM

/-- The instruction does what the operation asks for, if the left operand is of type `t`. -/
inductive BinaryOpcode.Performs : BinaryOpcode → BinOp → Scalar → Prop where
  | add {t : Scalar} (integral : t.isIntegral = true) : Performs .add .add t
  | fadd {t : Scalar} (float : t.isFloat = true) : Performs .fadd .add t
  | sub {t : Scalar} (integral : t.isIntegral = true) : Performs .sub .sub t
  | fsub {t : Scalar} (float : t.isFloat = true) : Performs .fsub .sub t
  | mul {t : Scalar} (integral : t.isIntegral = true) : Performs .mul .mul t
  | fmul {t : Scalar} (float : t.isFloat = true) : Performs .fmul .mul t
  | sdiv {t : Scalar} (signed : t.isSigned = true) : Performs .sdiv .quot t
  | udiv {t : Scalar} (unsigned : t.isUnsigned = true) : Performs .udiv .quot t
  | srem {t : Scalar} (signed : t.isSigned = true) : Performs .srem .rem t
  | urem {t : Scalar} (unsigned : t.isUnsigned = true) : Performs .urem .rem t
  | fdiv {t : Scalar} (float : t.isFloat = true) : Performs .fdiv .div t
  | shl {t : Scalar} (integral : t.isIntegral = true) : Performs .shl .shl t
  | lshr {t : Scalar} (integral : t.isIntegral = true) : Performs .lshr .lshr t
  | ashr {t : Scalar} (integral : t.isIntegral = true) : Performs .ashr .ashr t
  | and {t : Scalar} (integral : t.isIntegral = true) : Performs .and .and t
  | or {t : Scalar} (integral : t.isIntegral = true) : Performs .or .or t
  | xor {t : Scalar} (integral : t.isIntegral = true) : Performs .xor .xor t

/-- The instruction does what the conversion asks for, from `s` to `t`. -/
inductive CastOpcode.Performs : CastOpcode → CastOp → Scalar → Scalar → Prop where
  | trunc {s t : Scalar} (source : s.isIntegral = true) (target : t.isIntegral = true)
      (narrower : t.width < s.width) : Performs .trunc .trunc s t
  | fptrunc {s t : Scalar} (source : s.isFloat = true) (target : t.isFloat = true)
      (narrower : t.width < s.width) : Performs .fptrunc .fptrunc s t
  | sext {s t : Scalar} (source : s.isSigned = true) (target : t.isIntegral = true)
      (wider : s.width < t.width) : Performs .sext .ext s t
  | zext {s t : Scalar} (source : s.isUnsigned = true) (target : t.isIntegral = true)
      (wider : s.width < t.width) : Performs .zext .ext s t
  | fpext {s t : Scalar} (source : s.isFloat = true) (target : t.isFloat = true)
      (wider : s.width < t.width) : Performs .fpext .fpext s t
  | fptosi {s t : Scalar} (source : s.isFloat = true) (target : t.isSigned = true) :
      Performs .fptosi .fptoint s t
  | fptoui {s t : Scalar} (source : s.isFloat = true) (target : t.isUnsigned = true) :
      Performs .fptoui .fptoint s t
  | sitofp {s t : Scalar} (source : s.isSigned = true) (target : t.isFloat = true) :
      Performs .sitofp .inttofp s t
  | uitofp {s t : Scalar} (source : s.isUnsigned = true) (target : t.isFloat = true) :
      Performs .uitofp .inttofp s t
  | bitcast {s t : Scalar} (same : s.width = t.width) : Performs .bitcast .bitcast s t

/-- The comparison of integers gives what the predicate asks for, on operands of type `t`. Truth
values are ordered as numbers without a sign. -/
inductive IntPredicate.Decides : IntPredicate → Predicate → Scalar → Prop where
  | eq {t : Scalar} (notFloat : t.isFloat = false) : Decides .eq .eq t
  | ne {t : Scalar} (notFloat : t.isFloat = false) : Decides .ne .ne t
  | slt {t : Scalar} (signed : t.isSigned = true) : Decides .slt .lt t
  | ult {t : Scalar} (unsigned : (t.isUnsigned || t.isBool) = true) : Decides .ult .lt t
  | sle {t : Scalar} (signed : t.isSigned = true) : Decides .sle .le t
  | ule {t : Scalar} (unsigned : (t.isUnsigned || t.isBool) = true) : Decides .ule .le t
  | sgt {t : Scalar} (signed : t.isSigned = true) : Decides .sgt .gt t
  | ugt {t : Scalar} (unsigned : (t.isUnsigned || t.isBool) = true) : Decides .ugt .gt t
  | sge {t : Scalar} (signed : t.isSigned = true) : Decides .sge .ge t
  | uge {t : Scalar} (unsigned : (t.isUnsigned || t.isBool) = true) : Decides .uge .ge t

/-- The comparison of floating numbers gives what the predicate asks for: what is not a number
differs from everything, and is in no order with anything. -/
inductive RealPredicate.Decides : RealPredicate → Predicate → Prop where
  | oeq : Decides .oeq .eq
  | une : Decides .une .ne
  | olt : Decides .olt .lt
  | ole : Decides .ole .le
  | ogt : Decides .ogt .gt
  | oge : Decides .oge .ge

/-- The opcode for an operation does what the operation asks for, whatever its operands' types. -/
theorem performs_binaryOpcode {op : BinOp} {l r : Scalar} (h : op.Admits l r) :
    (binaryOpcode op l).Performs op l := by
  replace h := (BinOp.admits_iff.mp h).1
  have hfloat : l.isIntegral = true → l.isFloat = false := by cases l <;> decide
  cases op with
  | quot =>
    cases hs : l.isSigned with
    | true => simpa [binaryOpcode, hs] using BinaryOpcode.Performs.sdiv hs
    | false =>
      simpa [binaryOpcode, hs] using
        BinaryOpcode.Performs.udiv (Scalar.isUnsigned_of_not_isSigned h hs)
  | rem =>
    cases hs : l.isSigned with
    | true => simpa [binaryOpcode, hs] using BinaryOpcode.Performs.srem hs
    | false =>
      simpa [binaryOpcode, hs] using
        BinaryOpcode.Performs.urem (Scalar.isUnsigned_of_not_isSigned h hs)
  | div => exact .fdiv h
  | shl => exact .shl h
  | lshr => exact .lshr h
  | ashr => exact .ashr h
  | and => exact .and h
  | or => exact .or h
  | xor => exact .xor h
  | add =>
    rcases (Bool.or_eq_true _ _).mp h with hl | hl
    · simpa [binaryOpcode, hfloat hl] using BinaryOpcode.Performs.add hl
    · simpa [binaryOpcode, hl] using BinaryOpcode.Performs.fadd hl
  | sub =>
    rcases (Bool.or_eq_true _ _).mp h with hl | hl
    · simpa [binaryOpcode, hfloat hl] using BinaryOpcode.Performs.sub hl
    · simpa [binaryOpcode, hl] using BinaryOpcode.Performs.fsub hl
  | mul =>
    rcases (Bool.or_eq_true _ _).mp h with hl | hl
    · simpa [binaryOpcode, hfloat hl] using BinaryOpcode.Performs.mul hl
    · simpa [binaryOpcode, hl] using BinaryOpcode.Performs.fmul hl

/-- The opcode for a conversion does what the conversion asks for, whatever types it is between. -/
theorem performs_castOpcode {op : CastOp} {s t : Scalar} (h : op.Admits s t) :
    (castOpcode op s t).Performs op s t := by
  cases op with
  | trunc =>
    obtain ⟨hs, ht, hwidth⟩ := Typed.truncate_iff.mp h
    exact .trunc hs ht hwidth
  | fptrunc =>
    obtain ⟨hs, ht, hwidth⟩ := Typed.floatTruncate_iff.mp h
    exact .fptrunc hs ht hwidth
  | fpext =>
    obtain ⟨hs, ht, hwidth⟩ := Typed.floatExtend_iff.mp h
    exact .fpext hs ht hwidth
  | bitcast => exact .bitcast (Typed.bitCast_iff.mp h)
  | ext =>
    obtain ⟨hint, ht, hwidth⟩ := Typed.extend_iff.mp h
    cases hs : s.isSigned with
    | true => simpa [castOpcode, hs] using CastOpcode.Performs.sext hs ht hwidth
    | false =>
      simpa [castOpcode, hs] using
        CastOpcode.Performs.zext (Scalar.isUnsigned_of_not_isSigned hint hs) ht hwidth
  | fptoint =>
    have hfloat := Typed.isFloating_iff.mp h.1
    cases ht : t.isSigned with
    | true => simpa [castOpcode, ht] using CastOpcode.Performs.fptosi hfloat ht
    | false =>
      simpa [castOpcode, ht] using CastOpcode.Performs.fptoui hfloat
        (Scalar.isUnsigned_of_not_isSigned (Typed.isIntegral_iff.mp h.2) ht)
  | inttofp =>
    have hfloat := Typed.isFloating_iff.mp h.2
    cases hs : s.isSigned with
    | true => simpa [castOpcode, hs] using CastOpcode.Performs.sitofp hs hfloat
    | false =>
      simpa [castOpcode, hs] using CastOpcode.Performs.uitofp
        (Scalar.isUnsigned_of_not_isSigned (Typed.isIntegral_iff.mp h.1) hs) hfloat

theorem decides_intPredicate (p : Predicate) {t : Scalar} (h : t.isFloat = false) :
    (intPredicate p t.isSigned).Decides p t := by
  cases hs : t.isSigned with
  | true =>
    cases p with
    | eq => exact .eq h
    | ne => exact .ne h
    | lt => exact .slt hs
    | le => exact .sle hs
    | gt => exact .sgt hs
    | ge => exact .sge hs
  | false =>
    have hu : (t.isUnsigned || t.isBool) = true := by cases t <;> simp_all [Scalar.isSigned,
      Scalar.isUnsigned, Scalar.isFloat, Scalar.isBool]
    cases p with
    | eq => exact .eq h
    | ne => exact .ne h
    | lt => exact .ult hu
    | le => exact .ule hu
    | gt => exact .ugt hu
    | ge => exact .uge hu

theorem decides_realPredicate (p : Predicate) : (realPredicate p).Decides p := by
  cases p <;> constructor

end LLVM

end TypedSSA
