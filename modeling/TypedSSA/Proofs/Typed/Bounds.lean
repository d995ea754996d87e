import TypedSSA.Typed.Bounds

/-!
# The bounds of typed code and the check

Which types an operation is for is said twice. Typed code has tables of types and widths
(`BinOp.Admits`, `CastOp.Admits`), and the check of untyped code computes with numbers of bits and
domains. The two say the same: `BinOp.check_eq_ok_iff` and `CastOp.check_eq_ok_iff`.

The widths are where they differ most. The mark on a type is its number of bits (`bits_mark`), and
the table of what exceeds what is the order of these numbers (`Width.exceeds_iff`), so each table of
conversions comes down to a comparison of widths (`wider_iff`).
-/

namespace TypedSSA

@[simp] theorem expectType_self (t : Scalar) : expectType t t = .ok () := if_pos rfl

theorem expectType_of_ne {s t : Scalar} (h : s ≠ t) :
    expectType s t = .error (.typeMismatch (.scalar s) (.scalar t)) := if_neg h

namespace Scalar

variable {s t : Scalar}

theorem isGT_compareWidth : (s.compareWidth t).isGT = true ↔ t.width < s.width := by
  rw [compareWidth, Ordering.isGT_iff_eq_gt, Nat.compare_eq_gt]

theorem isLT_compareWidth : (s.compareWidth t).isLT = true ↔ s.width < t.width := by
  rw [compareWidth, Ordering.isLT_iff_eq_lt, Nat.compare_eq_lt]

theorem isEq_compareWidth : (s.compareWidth t).isEq = true ↔ s.width = t.width := by
  rw [compareWidth, Ordering.isEq_iff_eq_eq, Nat.compare_eq_eq]

end Scalar

namespace Typed

variable {s t : Scalar}

/-! ## Widths -/

/-- The mark on a type is its number of bits. -/
theorem bits_mark (t : Scalar) : t.mark.bits = t.width := by
  cases t <;> rfl

theorem Width.bits_inj {v w : Width} : v.bits = w.bits ↔ v = w := by
  cases v <;> cases w <;> decide

/-- Types of one domain are in the relation of a truncation or an extension if their widths are. -/
theorem wider_iff {domain : Scalar → Prop} {p : Scalar → Bool}
    (hdomain : ∀ {t : Scalar}, domain t ↔ p t = true) :
    Wider domain s t ↔ p s = true ∧ p t = true ∧ t.width < s.width := by
  rw [Wider, hdomain, hdomain, Width.exceeds_iff, bits_mark, bits_mark]

theorem truncate_iff : Truncate s t ↔
    s.isIntegral = true ∧ t.isIntegral = true ∧ t.width < s.width :=
  wider_iff isIntegral_iff

theorem extend_iff : Extend s t ↔
    s.isIntegral = true ∧ t.isIntegral = true ∧ s.width < t.width :=
  (wider_iff isIntegral_iff).trans and_left_comm

theorem floatTruncate_iff : FloatTruncate s t ↔
    s.isFloat = true ∧ t.isFloat = true ∧ t.width < s.width :=
  wider_iff isFloating_iff

theorem floatExtend_iff : FloatExtend s t ↔
    s.isFloat = true ∧ t.isFloat = true ∧ s.width < t.width :=
  (wider_iff isFloating_iff).trans and_left_comm

theorem bitCast_iff : BitCast s t ↔ s.width = t.width := by
  rw [BitCast, Width.same_iff, ← Width.bits_inj, bits_mark, bits_mark]

end Typed

open Typed

/-! ## Operations on two operands -/

namespace BinOp

variable {op : BinOp} {l r t : Scalar}

/-- What is asked of the left operand is a domain, and the type of the right one follows from it. -/
theorem admits_iff :
    op.Admits l r ↔ op.supports l = true ∧ r = if op.isShift then .u64 else l := by
  cases op with
  | add | sub | mul => exact and_congr isNum_iff Iff.rfl
  | div => exact and_congr isFloating_iff Iff.rfl
  | quot | rem | shl | lshr | ashr | and | or | xor => exact and_congr isIntegral_iff Iff.rfl

theorem check_of_admits (h : op.Admits l r) : op.check l r = .ok l := by
  obtain ⟨hsupports, hr⟩ := admits_iff.mp h
  unfold check
  cases hshift : op.isShift with
  | true =>
    obtain rfl : r = .u64 := by rwa [hshift] at hr
    rw [hsupports, expectType_self]
    rfl
  | false =>
    obtain rfl : r = l := by rwa [hshift] at hr
    rw [hsupports, expectType_self]
    rfl

/-- Types that an operation cannot be written for are refused, and not as an empty phi is. -/
theorem check_of_not_admits (h : ¬ op.Admits l r) :
    ∃ f, op.check l r = .error f ∧ f ≠ .emptyPhi := by
  rw [admits_iff, not_and] at h
  unfold check
  cases hshift : op.isShift with
  | true =>
    cases hs : op.supports l with
    | true =>
      have hr : Scalar.u64 ≠ r := fun e => h hs (by rw [hshift, ← e]; rfl)
      rw [expectType_of_ne hr]
      exact ⟨_, rfl, Fault.noConfusion⟩
    | false => exact ⟨_, rfl, Fault.noConfusion⟩
  | false =>
    by_cases hr : l = r
    · have hs : op.supports l = false := by
        rw [← Bool.not_eq_true]
        exact fun hs => h hs (by rw [hshift, ← hr]; rfl)
      rw [← hr, expectType_self, hs]
      exact ⟨_, rfl, Fault.noConfusion⟩
    · rw [expectType_of_ne hr]
      exact ⟨_, rfl, Fault.noConfusion⟩

/-- The check passes just for the types that the operation can be written for, and gives the type
of the left operand. -/
theorem check_eq_ok_iff : op.check l r = .ok t ↔ op.Admits l r ∧ t = l := by
  by_cases h : op.Admits l r
  · rw [check_of_admits h, Except.ok.injEq, and_iff_right h, eq_comm]
  · obtain ⟨f, hf, -⟩ := check_of_not_admits h
    rw [hf]
    simp [h]

end BinOp

/-! ## Conversions -/

namespace CastOp

variable {op : CastOp} {s t : Scalar}

/-- The check refuses a conversion just if it cannot be written between these types. -/
theorem check_eq (op : CastOp) (s t : Scalar) :
    op.check s t = if op.Admits s t then .ok () else .error (.invalidCast op.name s t) := by
  unfold check
  refine ite_congr (propext ?_) (fun _ => rfl) fun _ => rfl
  cases op with
  | trunc =>
    simp only [Admits, truncate_iff, Bool.and_eq_true, Scalar.isGT_compareWidth, and_assoc]
  | fptrunc =>
    simp only [Admits, floatTruncate_iff, Bool.and_eq_true, Scalar.isGT_compareWidth, and_assoc]
  | ext => simp only [Admits, extend_iff, Bool.and_eq_true, Scalar.isLT_compareWidth, and_assoc]
  | fpext =>
    simp only [Admits, floatExtend_iff, Bool.and_eq_true, Scalar.isLT_compareWidth, and_assoc]
  | fptoint => simp only [Admits, isFloating_iff, isIntegral_iff, Bool.and_eq_true]
  | inttofp => simp only [Admits, isFloating_iff, isIntegral_iff, Bool.and_eq_true]
  | bitcast => simp only [Admits, bitCast_iff, Scalar.isEq_compareWidth]

theorem check_of_admits (h : op.Admits s t) : op.check s t = .ok () := by
  rw [check_eq, if_pos h]

theorem check_of_not_admits (h : ¬ op.Admits s t) :
    op.check s t = .error (.invalidCast op.name s t) := by
  rw [check_eq, if_neg h]

theorem check_eq_ok_iff : op.check s t = .ok () ↔ op.Admits s t := by
  by_cases h : op.Admits s t
  · simp [check_of_admits h, h]
  · simp [check_of_not_admits h, h]

end CastOp

end TypedSSA
