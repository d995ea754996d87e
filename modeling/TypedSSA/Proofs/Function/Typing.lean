import TypedSSA.Proofs.Builder.Consistent
import TypedSSA.Proofs.Function.WellFormed
import TypedSSA.Proofs.Typed.Agreement

/-!
# Types of finished functions

The rules that the check on instructions and terminators stands for (`Instr.HasType`,
`Terminator.Ends`), without a word on faults and their order. `Instr.check_eq_ok_iff` and
`Terminator.check_eq_ok_iff` say that the check passes just where a rule applies. A finished
function keeps to the rules (`Func.Typed`), and each of its names has one type.
-/

namespace TypedSSA

/-- The type of the result of an instruction. -/
inductive Instr.HasType : Instr → Ty → Prop where
  | binary {op : BinOp} {lhs rhs : Value} (admits : op.Admits lhs.ty rhs.ty) :
      HasType (.binary op lhs rhs) (.scalar lhs.ty)
  | cast {op : CastOp} {value : Value} {target : Scalar} (admits : op.Admits value.ty target) :
      HasType (.cast op value target) (.scalar target)
  | cmp {predicate : Predicate} {lhs rhs : Value} (same : rhs.ty = lhs.ty) :
      HasType (.cmp predicate lhs rhs) (.scalar .bool)
  | select {condition ifTrue ifFalse : Value} (bool : condition.ty = .bool)
      (same : ifFalse.ty = ifTrue.ty) :
      HasType (.select condition ifTrue ifFalse) (.scalar ifTrue.ty)
  | phi {ty : Scalar} {incoming : List (Value × Label)} (nonempty : incoming ≠ [])
      (same : ∀ p ∈ incoming, p.1.ty = ty) : HasType (.phi ty incoming) (.scalar ty)
  | call {callee : Label} {type : FuncType} {args : List Value} {attributes : List Attribute}
      (args_eq : args.map Value.ty = type.params) :
      HasType (.call callee type args attributes) type.ret

/-- The terminators that can end a block of a function with result type `result`. -/
inductive Terminator.Ends (result : Ty) : Terminator → Prop where
  | ret (void : result = .void) : Ends result .ret
  | retVal {value : Value} (same : result = .scalar value.ty) : Ends result (.retVal value)
  | br (target : Label) : Ends result (.br target)
  | condBr {condition : Value} (bool : condition.ty = .bool) (ifTrue ifFalse : Label) :
      Ends result (.condBr condition ifTrue ifFalse)
  | switch {scrutinee : Value} {cases : List (Const × Label)}
      (integral : scrutinee.ty.isIntegral = true)
      (fits : ∀ c ∈ cases, c.1.fits scrutinee.ty = true)
      (distinct : checkDistinctCases cases = .ok ()) (default : Label) :
      Ends result (.switch scrutinee default cases)

theorem expectType_eq_ok_iff {s t : Scalar} : expectType s t = .ok () ↔ t = s := by
  refine ⟨fun h => ?_, fun h => h ▸ expectType_self s⟩
  by_contra hne
  rw [expectType_of_ne (Ne.symm hne)] at h
  cases h

theorem FuncType.checkArguments_eq_ok_iff {type : FuncType} {callee : Label} {args : List Value} :
    type.checkArguments callee args = .ok () ↔ args.map Value.ty = type.params := by
  refine ⟨fun h => ?_, fun h => checkArguments_of_eq h callee⟩
  by_contra hne
  obtain ⟨f, hf, -⟩ := checkArguments_of_ne hne callee
  rw [hf] at h
  cases h

theorem bind_eq_ok_iff {ε α β : Type} {x : Except ε α} {f : α → Except ε β} {b : β} :
    (x >>= f) = .ok b ↔ ∃ a, x = .ok a ∧ f a = .ok b := by
  cases x <;> simp [bind, Except.bind]

/-- The check passes just where a rule applies, and gives the type of the rule. -/
theorem Instr.check_eq_ok_iff {i : Instr} {t : Ty} : i.check = .ok t ↔ i.HasType t := by
  refine ⟨fun h => ?_, fun h => ?_⟩
  · cases i with
    | binary op lhs rhs =>
      obtain ⟨s, hs, ht⟩ := bind_eq_ok_iff.mp h
      obtain ⟨hadmits, rfl⟩ := BinOp.check_eq_ok_iff.mp hs
      cases ht
      exact .binary hadmits
    | cast op value target =>
      obtain ⟨_, hs, ht⟩ := bind_eq_ok_iff.mp h
      cases ht
      exact .cast (CastOp.check_eq_ok_iff.mp hs)
    | cmp predicate lhs rhs =>
      obtain ⟨_, hs, ht⟩ := bind_eq_ok_iff.mp h
      cases ht
      exact .cmp (expectType_eq_ok_iff.mp hs)
    | select condition ifTrue ifFalse =>
      obtain ⟨_, hc, h⟩ := bind_eq_ok_iff.mp h
      obtain ⟨_, hs, ht⟩ := bind_eq_ok_iff.mp h
      cases ht
      exact .select (expectType_eq_ok_iff.mp hc) (expectType_eq_ok_iff.mp hs)
    | phi ty incoming =>
      cases incoming with
      | nil => cases h
      | cons p rest =>
        obtain ⟨_, hs, ht⟩ := bind_eq_ok_iff.mp h
        cases ht
        refine .phi (List.cons_ne_nil _ _) ?_
        by_contra hne
        obtain ⟨f, hf, -⟩ := forM_expectType_of_not_forall hne
        cases hf.symm.trans hs
    | call callee type args attributes =>
      obtain ⟨_, hs, ht⟩ := bind_eq_ok_iff.mp h
      cases ht
      exact .call (FuncType.checkArguments_eq_ok_iff.mp hs)
  · cases h with
    | binary admits => exact bind_eq_ok_iff.mpr ⟨_, BinOp.check_of_admits admits, rfl⟩
    | cast admits => exact bind_eq_ok_iff.mpr ⟨_, CastOp.check_of_admits admits, rfl⟩
    | cmp same => exact bind_eq_ok_iff.mpr ⟨_, expectType_eq_ok_iff.mpr same, rfl⟩
    | select bool same =>
      exact bind_eq_ok_iff.mpr ⟨_, expectType_eq_ok_iff.mpr bool,
        bind_eq_ok_iff.mpr ⟨_, expectType_eq_ok_iff.mpr same, rfl⟩⟩
    | @phi ty incoming nonempty same =>
      cases incoming with
      | nil => exact absurd rfl nonempty
      | cons p rest =>
        exact bind_eq_ok_iff.mpr
          ⟨(), forM_eq_ok fun q hq => expectType_eq_ok_iff.mpr (same q hq), rfl⟩
    | call args_eq =>
      exact bind_eq_ok_iff.mpr ⟨_, FuncType.checkArguments_of_eq args_eq _, rfl⟩

/-- The check passes just where a rule applies. -/
theorem Terminator.check_eq_ok_iff {t : Terminator} {result : Ty} :
    t.check result = .ok () ↔ t.Ends result := by
  refine ⟨fun h => ?_, fun h => ?_⟩
  · cases t with
    | ret =>
      rw [check] at h
      split at h
      · exact .ret ‹_›
      · cases h
    | retVal value =>
      rw [check] at h
      split at h
      · rename_i hr
        exact .retVal hr.symm
      · cases h
    | br target => exact .br target
    | condBr condition ifTrue ifFalse => exact .condBr (expectType_eq_ok_iff.mp h) _ _
    | switch scrutinee default cases =>
      have hs : scrutinee.ty.isIntegral = true := by
        by_contra hs
        rw [check, if_neg hs] at h
        cases h
      have hfits : ∀ c ∈ cases, c.1.fits scrutinee.ty = true := by
        by_contra hfits
        obtain ⟨value, hv⟩ : ∃ value, (switch scrutinee default cases).check result =
            .error (.constantOutOfRange scrutinee.ty value) := check_switch_of_not_fits hs hfits
        cases hv.symm.trans h
      exact .switch hs hfits (check_switch_of_fits hs hfits ▸ h) default
  · cases h with
    | ret void => exact if_pos void
    | retVal same => exact if_pos same.symm
    | br target => rfl
    | condBr bool => exact expectType_eq_ok_iff.mpr bool
    | switch integral fits distinct default => rw [check_switch_of_fits integral fits, distinct]

namespace Func

variable {f : Func}

/-- All instructions and terminators are well typed. -/
structure Typed (f : Func) : Prop where
  instrs (b : Block) : b ∈ f.blocks → ∀ n ∈ b.body, n.instr.HasType n.resultType
  terminators (b : Block) : b ∈ f.blocks → b.terminator.Ends f.type.ret

theorem Finished.typed (h : f.Finished) : f.Typed := by
  obtain ⟨b, hb, hf⟩ := h
  obtain ⟨-, hf⟩ := hb.inv.finish_eq_ok_iff.mp hf
  have hblocks : f.blocks = b.blocks := congrArg Func.blocks hf
  have htyped := hb.wellTyped
  refine ⟨fun block hblock n hn => ?_, fun block hblock => ?_⟩
  · rw [hblocks] at hblock
    have hstarted : ⟨block.label, block.body⟩ ∈ b.started :=
      List.mem_append_left _ (List.mem_map.mpr ⟨block, hblock, rfl⟩)
    exact Instr.check_eq_ok_iff.mp ((htyped.started _ hstarted).checked n hn)
  · exact Terminator.check_eq_ok_iff.mp (htyped.terminators block (hblocks ▸ hblock))

/-- A name has one type. -/
theorem Sound.binds_unique (h : f.Sound) {name : LocalName} {s t : Scalar}
    (hs : Binds f.type f.params f.blocks name s) (ht : Binds f.type f.params f.blocks name t) :
    s = t := by
  have hnodup := h.distinct.nodup_bindings h.length_params
  rw [← mem_bindings_iff, ← lookup_eq_some_iff_mem hnodup] at hs ht
  exact Option.some.inj (hs.symm.trans ht)

end Func

end TypedSSA
