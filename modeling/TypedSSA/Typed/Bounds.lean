import TypedSSA.Instr

/-!
# What typed code asks of its types

A typed instruction can be written for some types only, and which they are is listed here, one by
one. A type has its width as a mark (`Scalar.mark`). Which marks exceed which is a table
(`Width.Exceeds`), and so are the types that count as numbers, as integral and as floating (`IsNum`,
`IsIntegral`, `IsFloating`). `BinOp.Admits` and `CastOp.Admits` are what each operation asks for in
these terms.

The check of untyped code has none of this. It asks a type for its number of bits and its domain,
and compares.
-/

namespace TypedSSA

namespace Typed

/-! ## Widths -/

/-- A number of bits, as a mark on a type. -/
inductive Width where
  | w1
  | w8
  | w16
  | w32
  | w64
deriving DecidableEq, Repr

namespace Width

def bits : Width → Nat
  | w1 => 1
  | w8 => 8
  | w16 => 16
  | w32 => 32
  | w64 => 64

/-- The first width is strictly wider than the second. -/
inductive Exceeds : Width → Width → Prop where
  | w8_w1 : Exceeds w8 w1
  | w16_w1 : Exceeds w16 w1
  | w16_w8 : Exceeds w16 w8
  | w32_w1 : Exceeds w32 w1
  | w32_w8 : Exceeds w32 w8
  | w32_w16 : Exceeds w32 w16
  | w64_w1 : Exceeds w64 w1
  | w64_w8 : Exceeds w64 w8
  | w64_w16 : Exceeds w64 w16
  | w64_w32 : Exceeds w64 w32

/-- A width is the same as itself, and as no other. -/
inductive Same : Width → Width → Prop where
  | refl (w : Width) : Same w w

/-- The table of widths leaves out no pair. -/
theorem exceeds_iff {v w : Width} : v.Exceeds w ↔ w.bits < v.bits := by
  constructor
  · intro h
    cases h <;> decide
  · intro h
    cases v <;> cases w <;> first | constructor | exact absurd h (by decide)

theorem same_iff {v w : Width} : v.Same w ↔ v = w := by
  constructor
  · rintro ⟨⟩
    rfl
  · rintro rfl
    exact .refl v

instance (v w : Width) : Decidable (v.Exceeds w) := decidable_of_decidable_of_iff exceeds_iff.symm

instance (v w : Width) : Decidable (v.Same w) := decidable_of_decidable_of_iff same_iff.symm

end Width

end Typed

/-- The width of a type, as a mark. -/
def Scalar.mark : Scalar → Typed.Width
  | bool => .w1
  | i8 => .w8
  | i16 => .w16
  | i32 => .w32
  | i64 => .w64
  | u8 => .w8
  | u16 => .w16
  | u32 => .w32
  | u64 => .w64
  | f32 => .w32
  | f64 => .w64

namespace Typed

/-! ## Domains -/

/-- The types of what can be added, subtracted and multiplied. -/
inductive IsNum : Scalar → Prop where
  | i8 : IsNum .i8
  | i16 : IsNum .i16
  | i32 : IsNum .i32
  | i64 : IsNum .i64
  | u8 : IsNum .u8
  | u16 : IsNum .u16
  | u32 : IsNum .u32
  | u64 : IsNum .u64
  | f32 : IsNum .f32
  | f64 : IsNum .f64

inductive IsIntegral : Scalar → Prop where
  | i8 : IsIntegral .i8
  | i16 : IsIntegral .i16
  | i32 : IsIntegral .i32
  | i64 : IsIntegral .i64
  | u8 : IsIntegral .u8
  | u16 : IsIntegral .u16
  | u32 : IsIntegral .u32
  | u64 : IsIntegral .u64

inductive IsFloating : Scalar → Prop where
  | f32 : IsFloating .f32
  | f64 : IsFloating .f64

variable {s t : Scalar}

theorem isNum_iff : IsNum t ↔ t.isNum = true := by
  constructor
  · intro h
    cases h <;> rfl
  · intro h
    cases t <;> first | constructor | cases h

theorem isIntegral_iff : IsIntegral t ↔ t.isIntegral = true := by
  constructor
  · intro h
    cases h <;> rfl
  · intro h
    cases t <;> first | constructor | cases h

theorem isFloating_iff : IsFloating t ↔ t.isFloat = true := by
  constructor
  · intro h
    cases h <;> rfl
  · intro h
    cases t <;> first | constructor | cases h

instance : DecidablePred IsNum := fun _ => decidable_of_decidable_of_iff isNum_iff.symm

instance : DecidablePred IsIntegral := fun _ => decidable_of_decidable_of_iff isIntegral_iff.symm

instance : DecidablePred IsFloating := fun _ => decidable_of_decidable_of_iff isFloating_iff.symm

/-! ## Conversions -/

/-- Two types of one domain, the first strictly wider than the second. -/
def Wider (domain : Scalar → Prop) (wide narrow : Scalar) : Prop :=
  domain wide ∧ domain narrow ∧ wide.mark.Exceeds narrow.mark

instance (domain : Scalar → Prop) [DecidablePred domain] (wide narrow : Scalar) :
    Decidable (Wider domain wide narrow) :=
  inferInstanceAs (Decidable (_ ∧ _ ∧ _))

/-- Integers of type `s` can be truncated to `t`. -/
def Truncate (s t : Scalar) : Prop := Wider IsIntegral s t

/-- Integers of type `s` can be extended to `t`. -/
def Extend (s t : Scalar) : Prop := Wider IsIntegral t s

def FloatTruncate (s t : Scalar) : Prop := Wider IsFloating s t

def FloatExtend (s t : Scalar) : Prop := Wider IsFloating t s

/-- The bits of a value of type `s` can be taken for one of type `t`. -/
def BitCast (s t : Scalar) : Prop := s.mark.Same t.mark

end Typed

open Typed

/-- The types of operands that an operation can be written for. -/
def BinOp.Admits : BinOp → Scalar → Scalar → Prop
  | add, l, r | sub, l, r | mul, l, r => IsNum l ∧ r = l
  | quot, l, r | rem, l, r | and, l, r | or, l, r | xor, l, r => IsIntegral l ∧ r = l
  | div, l, r => IsFloating l ∧ r = l
  | shl, l, r | lshr, l, r | ashr, l, r => IsIntegral l ∧ r = .u64

instance (op : BinOp) (l r : Scalar) : Decidable (op.Admits l r) :=
  match op with
  | .add | .sub | .mul => inferInstanceAs (Decidable (IsNum l ∧ r = l))
  | .quot | .rem | .and | .or | .xor => inferInstanceAs (Decidable (IsIntegral l ∧ r = l))
  | .div => inferInstanceAs (Decidable (IsFloating l ∧ r = l))
  | .shl | .lshr | .ashr => inferInstanceAs (Decidable (IsIntegral l ∧ r = .u64))

/-- The types that a conversion can be written between. -/
def CastOp.Admits : CastOp → Scalar → Scalar → Prop
  | trunc, s, t => Truncate s t
  | fptrunc, s, t => FloatTruncate s t
  | ext, s, t => Extend s t
  | fpext, s, t => FloatExtend s t
  | fptoint, s, t => IsFloating s ∧ IsIntegral t
  | inttofp, s, t => IsIntegral s ∧ IsFloating t
  | bitcast, s, t => BitCast s t

instance (op : CastOp) (s t : Scalar) : Decidable (op.Admits s t) :=
  match op with
  | .trunc => inferInstanceAs (Decidable (Wider IsIntegral s t))
  | .fptrunc => inferInstanceAs (Decidable (Wider IsFloating s t))
  | .ext => inferInstanceAs (Decidable (Wider IsIntegral t s))
  | .fpext => inferInstanceAs (Decidable (Wider IsFloating t s))
  | .fptoint => inferInstanceAs (Decidable (IsFloating s ∧ IsIntegral t))
  | .inttofp => inferInstanceAs (Decidable (IsIntegral s ∧ IsFloating t))
  | .bitcast => inferInstanceAs (Decidable (s.mark.Same t.mark))

end TypedSSA
