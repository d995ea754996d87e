import TypedSSA.Proofs.Typed.Erasure

/-!
# Typed code and the check agree

Code has a typed form just when it passes the check on untyped code, at the same type
(`Typed.ofErased_agrees`). The typed form is the code itself, but for what typed code cannot say:
numbers of type `f32` are rounded to that type, and an attribute of a call is given once
(`Instr.canonical`, `Terminator.canonical`).

What the search for a typed form comes to and what the check says go together case by case. For an
instruction there are three (`Instr.Verdict`): a typed form and its type, an empty phi on both
sides, or no form and another fault. For a terminator the fault in the middle is a case that comes
twice (`Terminator.Verdict`). All that can be said of the two is read off from there.
-/

namespace TypedSSA

/-! ## What a typed form keeps -/

/-- The constant that a value of type `t` holds: a number is rounded to `f32`. -/
def Const.rounded (t : Scalar) : Const → Const
  | float x => if t = .f32 then float x.toSingle.toDouble else float x
  | c => c

/-- Rounding a number to `f32` gives one that is an `f32`. -/
theorem Const.fits_rounded {t : Scalar} {c : Const} (h : c.fits t = true) :
    (c.rounded t).fits t = true := by
  cases c with
  | float x =>
    by_cases ht : t = .f32
    · rw [rounded, if_pos ht, ht]
      exact x.toSingle.fitsSingle_toDouble
    · rwa [rounded, if_neg ht]
  | _ => exact h

theorem Const.rounded_of_isIntegral {t : Scalar} (ht : t.isIntegral = true) (c : Const) :
    c.rounded t = c := by
  cases c with
  | float x => exact if_neg fun h => by rw [h] at ht; cases ht
  | _ => rfl

namespace Value

def rounded : Value → Value
  | const ty c h => const ty (c.rounded ty) (Const.fits_rounded h)
  | loc ty name scope => loc ty name scope

@[simp] theorem ty_rounded (v : Value) : v.rounded.ty = v.ty := by cases v <;> rfl

/-- Whether typed code can read the value: a local must have a scope. -/
def isScoped : Value → Bool
  | const .. => true
  | loc _ _ scope => scope.isSome

end Value

/-- The instruction that is left of its typed form. -/
def Instr.canonical : Instr → Instr
  | binary op lhs rhs => binary op lhs.rounded rhs.rounded
  | cast op value target => cast op value.rounded target
  | cmp predicate lhs rhs => cmp predicate lhs.rounded rhs.rounded
  | select condition ifTrue ifFalse => select condition.rounded ifTrue.rounded ifFalse.rounded
  | phi ty incoming => phi ty (incoming.map fun p => (p.1.rounded, p.2))
  | call callee type args attributes =>
    call callee type (args.map Value.rounded) attributes.eraseDups

/-- The terminator that is left of its typed form. -/
def Terminator.canonical : Terminator → Terminator
  | ret => ret
  | retVal value => retVal value.rounded
  | br target => br target
  | condBr condition ifTrue ifFalse => condBr condition.rounded ifTrue ifFalse
  | switch scrutinee default cases => switch scrutinee.rounded default cases

theorem checkArgs_map_rounded (callee : Label) (index : Nat) (ps : List Scalar)
    (args : List Value) :
    checkArgs callee index ps (args.map Value.rounded) = checkArgs callee index ps args := by
  induction ps generalizing index args with
  | nil => cases args <;> rfl
  | cons p ps ih =>
    cases args with
    | nil => rfl
    | cons a args => simp only [List.map_cons, checkArgs, Value.ty_rounded, ih]

/-- The check looks at types and not at values. -/
theorem Instr.check_canonical (i : Instr) : i.canonical.check = i.check := by
  cases i with
  | phi ty incoming =>
    cases incoming with
    | nil => rfl
    | cons p rest =>
      simp only [canonical, List.map_cons, check, List.forM_eq_forM, List.forM_cons,
        List.forM_map, Value.ty_rounded]
  | call callee type args attributes =>
    simp only [canonical, check, FuncType.checkArguments, List.length_map, checkArgs_map_rounded]
  | _ => simp only [canonical, check, Value.ty_rounded]

/-- As with instructions, the check looks at types, and at the cases of a switch, which are not
rounded. -/
theorem Terminator.check_canonical (t : Terminator) (r : Ty) : t.canonical.check r = t.check r := by
  cases t <;> simp only [canonical, check, Value.ty_rounded]

/-! ## Faults of the check -/

theorem forM_expectType_of_not_forall {ty : Scalar} {incoming : List (Value × Label)}
    (h : ¬ ∀ p ∈ incoming, p.1.ty = ty) :
    ∃ f, (incoming.forM fun p => expectType ty p.1.ty) = .error f ∧ f ≠ .emptyPhi := by
  induction incoming with
  | nil => exact absurd (fun p hp => nomatch hp) h
  | cons p rest ih =>
    rw [List.forM_eq_forM, List.forM_cons]
    by_cases hp : ty = p.1.ty
    · rw [← hp, expectType_self]
      refine ih fun hrest => h fun q hq => ?_
      rcases List.mem_cons.mp hq with rfl | hq
      · exact hp.symm
      · exact hrest q hq
    · rw [expectType_of_ne hp]
      exact ⟨_, rfl, Fault.noConfusion⟩

theorem checkArgs_eq_ok (callee : Label) (index : Nat) (args : List Value) :
    checkArgs callee index (args.map Value.ty) args = .ok () := by
  induction args generalizing index with
  | nil => rfl
  | cons a args ih => rw [List.map_cons, checkArgs, if_pos rfl, ih]

/-- As many arguments as there should be, but of other types, are refused at the first that differs.
-/
theorem checkArgs_of_ne (callee : Label) (index : Nat) {ps : List Scalar} {args : List Value}
    (hlen : args.length = ps.length) (h : args.map Value.ty ≠ ps) :
    ∃ f, checkArgs callee index ps args = .error f ∧ f ≠ .emptyPhi := by
  induction ps generalizing index args with
  | nil => exact absurd (List.length_eq_zero_iff.mp hlen ▸ rfl) h
  | cons p ps ih =>
    cases args with
    | nil => cases hlen
    | cons a args =>
      rw [checkArgs]
      by_cases hp : a.ty = p
      · rw [if_pos hp]
        refine ih _ (Nat.succ.inj hlen) fun hrest => h ?_
        rw [List.map_cons, hp, hrest]
      · rw [if_neg hp]
        exact ⟨_, rfl, Fault.noConfusion⟩

theorem FuncType.checkArguments_of_eq {type : FuncType} {args : List Value}
    (h : args.map Value.ty = type.params) (callee : Label) :
    type.checkArguments callee args = .ok () := by
  rw [checkArguments, if_pos (by rw [← h, List.length_map]), ← h, checkArgs_eq_ok]

theorem FuncType.checkArguments_of_ne {type : FuncType} {args : List Value}
    (h : args.map Value.ty ≠ type.params) (callee : Label) :
    ∃ f, type.checkArguments callee args = .error f ∧ f ≠ .emptyPhi := by
  rw [checkArguments]
  by_cases hlen : args.length = type.params.length
  · rw [if_pos hlen]
    exact checkArgs_of_ne callee 0 hlen h
  · rw [if_neg hlen]
    exact ⟨_, rfl, Fault.noConfusion⟩

/-- If all cases fit the type that is looked at, the only thing left to check is that they are
distinct. -/
theorem Terminator.check_switch_of_fits {r : Ty} {scrutinee : Value} {default : Label}
    {cases : List (Const × Label)} (hs : scrutinee.ty.isIntegral = true)
    (h : ∀ c ∈ cases, c.1.fits scrutinee.ty = true) :
    (switch scrutinee default cases).check r = checkDistinctCases cases := by
  have hfind : (cases.find? fun c => !c.1.fits scrutinee.ty) = none := by simpa using h
  rw [check, if_pos hs, hfind]

theorem Terminator.check_switch_of_not_fits {r : Ty} {scrutinee : Value} {default : Label}
    {cases : List (Const × Label)} (hs : scrutinee.ty.isIntegral = true)
    (h : ¬ ∀ c ∈ cases, c.1.fits scrutinee.ty = true) :
    ∃ value, (switch scrutinee default cases).check r =
      .error (.constantOutOfRange scrutinee.ty value) := by
  obtain ⟨c, hc⟩ : ∃ c, (cases.find? fun c => !c.1.fits scrutinee.ty) = some c := by
    rw [← Option.isSome_iff_exists, List.find?_isSome]
    simpa using h
  rw [check, if_pos hs, hc]
  exact ⟨c.1, rfl⟩

namespace Typed

/-! ## Operands -/

/-- A constant has a literal of each type that it fits. -/
theorem Literal.exists_ofConst? {t : Scalar} {c : Const} (h : c.fits t = true) :
    ∃ l, ofConst? t c = some l ∧ l.toConst = c.rounded t := by
  cases c with
  | bool b =>
    obtain rfl : t = .bool := by cases t <;> first | rfl | cases h
    exact ⟨.bool b, rfl, rfl⟩
  | int v =>
    have hint : t.hasInt v = true := h
    have hof : ofConst? t (.int v) = some (.int v hint) := by
      cases t <;> simp_all [ofConst?]
    exact ⟨_, hof, rfl⟩
  | float x => cases t <;> first | exact ⟨_, rfl, rfl⟩ | cases h

variable {t : Scalar} {v : Value}

/-- A value has a typed form at its own type. What that leaves of it is the value, rounded. -/
theorem Operand.exists_ofValue? (hv : v.isScoped = true) (ht : v.ty = t) :
    ∃ o, ofValue? t v = some o ∧ o.erase = v.rounded := by
  subst ht
  cases v with
  | const ty c fits =>
    obtain ⟨l, hl, hc⟩ := Literal.exists_ofConst? fits
    refine ⟨.literal l, ?_, ?_⟩
    · simp [ofValue?, Value.ty, hl]
    · simp [erase, Value.rounded, Value.ty, hc]
  | loc ty name scope =>
    obtain ⟨s, rfl⟩ := Option.isSome_iff_exists.mp hv
    exact ⟨.name ⟨s, name⟩, if_pos rfl, rfl⟩

theorem Operand.ofValue?_of_ne (ht : v.ty ≠ t) : ofValue? t v = none := by
  cases v with
  | const ty c fits => exact if_neg ht
  | loc ty name scope =>
    cases scope with
    | none => rfl
    | some s => exact if_neg ht

theorem Instr.exists_operand (hv : v.isScoped = true) (ht : v.ty = t) :
    ∃ o, operand t v = .ok o ∧ o.erase = v.rounded := by
  obtain ⟨o, ho, he⟩ := Operand.exists_ofValue? hv ht
  exact ⟨o, by rw [operand, ho]; rfl, he⟩

theorem Instr.operand_of_ne (ht : v.ty ≠ t) : operand t v = .error .noForm := by
  rw [operand, Operand.ofValue?_of_ne ht]
  rfl

/-- Arguments of the types that a function takes have a typed form. The types are those of the
values, so the induction is on the values alone. -/
theorem Args.exists_ofValues? {ps : List Scalar} {args : List Value}
    (hs : ∀ v ∈ args, v.isScoped = true) (h : args.map Value.ty = ps) :
    ∃ typed, ofValues? ps args = some typed ∧ typed.values = args.map Value.rounded := by
  subst h
  induction args with
  | nil => exact ⟨.nil, rfl, rfl⟩
  | cons a args ih =>
    rw [List.forall_mem_cons] at hs
    obtain ⟨o, ho, hoe⟩ := Operand.exists_ofValue? hs.1 rfl
    obtain ⟨rest, hrest, hre⟩ := ih hs.2
    refine ⟨.cons o rest, ?_, ?_⟩
    · show ofValues? (a.ty :: args.map Value.ty) (a :: args) = _
      rw [ofValues?, ho, hrest]
      rfl
    · rw [values, hoe, hre, List.map_cons]

theorem Args.ofValues?_of_ne {ps : List Scalar} {args : List Value} (h : args.map Value.ty ≠ ps) :
    ofValues? ps args = none := by
  induction ps generalizing args with
  | nil =>
    cases args with
    | nil => exact absurd rfl h
    | cons a args => rfl
  | cons p ps ih =>
    cases args with
    | nil => rfl
    | cons a args =>
      by_cases hp : a.ty = p
      · have hrest : args.map Value.ty ≠ ps := fun e => h (by rw [List.map_cons, hp, e])
        rw [ofValues?, ih hrest]
        cases Operand.ofValue? p a <;> rfl
      · rw [ofValues?, Operand.ofValue?_of_ne hp]
        rfl

/-! ## Instructions -/

/-- What the search for a typed form of `i` and the check on `i` come to together. -/
inductive Instr.Verdict (i : TypedSSA.Instr) :
    Except Rejection ((t : Ty) × Instr t) → Except Fault Ty → Prop where
  | form {t : Ty} (typed : Instr t) (erase : typed.erase = i.canonical) :
      Verdict i (.ok ⟨t, typed⟩) (.ok t)
  | emptyPhi : Verdict i (.error (.fault .emptyPhi)) (.error .emptyPhi)
  | noForm {f : Fault} (other : f ≠ .emptyPhi) : Verdict i (.error .noForm) (.error f)

/-- If all values of a phi have its type, each has a typed form, and with it the list. -/
theorem Instr.exists_mapM_operand {ty : Scalar} {incoming : List (Value × Label)}
    (hs : ∀ p ∈ incoming, p.1.isScoped = true) (h : ∀ p ∈ incoming, p.1.ty = ty) :
    ∃ typed : List (Operand ty × Label),
      (incoming.mapM fun p => do return (← operand ty p.1, p.2)) = .ok typed ∧
      typed.map (fun p => (p.1.erase, p.2)) = incoming.map fun p => (p.1.rounded, p.2) := by
  induction incoming with
  | nil => exact ⟨[], rfl, rfl⟩
  | cons p rest ih =>
    rw [List.forall_mem_cons] at hs h
    obtain ⟨o, ho, hoe⟩ := exists_operand hs.1 h.1
    obtain ⟨typed, htyped, hte⟩ := ih hs.2 h.2
    refine ⟨(o, p.2) :: typed, ?_, by rw [List.map_cons, List.map_cons, hoe, hte]⟩
    rw [List.mapM_cons, htyped, ho]
    rfl

theorem Instr.mapM_operand_of_not_forall {ty : Scalar} {incoming : List (Value × Label)}
    (hs : ∀ p ∈ incoming, p.1.isScoped = true) (h : ¬ ∀ p ∈ incoming, p.1.ty = ty) :
    (incoming.mapM fun p => do return (← operand ty p.1, p.2)) = .error .noForm := by
  induction incoming with
  | nil => exact absurd (fun p hp => nomatch hp) h
  | cons p rest ih =>
    rw [List.forall_mem_cons] at hs h
    rw [List.mapM_cons]
    by_cases hp : p.1.ty = ty
    · obtain ⟨o, ho, -⟩ := exists_operand hs.1 hp
      rw [ih hs.2 fun hrest => h ⟨hp, hrest⟩, ho]
      rfl
    · rw [operand_of_ne hp]
      rfl

/-- By cases on the instruction, whose types are right or wrong. If they are right both sides give
the type of the result. If they are wrong there is no typed form, and the check names a fault that
is not the empty phi. -/
theorem Instr.verdict {i : TypedSSA.Instr} (hi : ∀ v ∈ i.operands, v.isScoped = true) :
    Verdict i (ofErased i) i.check := by
  cases i with
  | binary op lhs rhs =>
    obtain ⟨l, hl, hle⟩ := exists_operand (hi lhs (by simp [TypedSSA.Instr.operands])) rfl
    obtain ⟨r, hr, hre⟩ := exists_operand (hi rhs (by simp [TypedSSA.Instr.operands])) rfl
    by_cases h : op.Admits lhs.ty rhs.ty
    · rw [ofErased, dif_pos h, hl, hr, TypedSSA.Instr.check, BinOp.check_of_admits h]
      refine .form (.binary op l r h) ?_
      rw [erase, TypedSSA.Instr.canonical, hle, hre]
    · obtain ⟨f, hf, hne⟩ := BinOp.check_of_not_admits h
      rw [ofErased, dif_neg h, TypedSSA.Instr.check, hf]
      exact .noForm hne
  | cast op value target =>
    obtain ⟨o, ho, hoe⟩ := exists_operand (hi value (by simp [TypedSSA.Instr.operands])) rfl
    by_cases h : op.Admits value.ty target
    · rw [ofErased, dif_pos h, ho, TypedSSA.Instr.check, CastOp.check_of_admits h]
      refine .form (.cast op o target h) ?_
      rw [erase, TypedSSA.Instr.canonical, hoe]
    · rw [ofErased, dif_neg h, TypedSSA.Instr.check, CastOp.check_of_not_admits h]
      exact .noForm Fault.noConfusion
  | cmp predicate lhs rhs =>
    obtain ⟨l, hl, hle⟩ := exists_operand (hi lhs (by simp [TypedSSA.Instr.operands])) rfl
    by_cases h : rhs.ty = lhs.ty
    · obtain ⟨r, hr, hre⟩ := exists_operand (hi rhs (by simp [TypedSSA.Instr.operands])) h
      rw [ofErased, hl, hr, TypedSSA.Instr.check, h, expectType_self]
      refine .form (.cmp predicate l r) ?_
      rw [erase, TypedSSA.Instr.canonical, hle, hre]
    · rw [ofErased, hl, operand_of_ne h, TypedSSA.Instr.check, expectType_of_ne (Ne.symm h)]
      exact .noForm Fault.noConfusion
  | select condition ifTrue ifFalse =>
    by_cases hc : condition.ty = .bool
    · obtain ⟨c, hco, hce⟩ :=
        exists_operand (hi condition (by simp [TypedSSA.Instr.operands])) hc
      obtain ⟨t, ht, hte⟩ := exists_operand (hi ifTrue (by simp [TypedSSA.Instr.operands])) rfl
      by_cases h : ifFalse.ty = ifTrue.ty
      · obtain ⟨f, hf, hfe⟩ := exists_operand (hi ifFalse (by simp [TypedSSA.Instr.operands])) h
        rw [ofErased, hco, ht, hf, TypedSSA.Instr.check, hc, h, expectType_self, expectType_self]
        refine .form (.select c t f) ?_
        rw [erase, TypedSSA.Instr.canonical, hce, hte, hfe]
      · rw [ofErased, hco, ht, operand_of_ne h, TypedSSA.Instr.check, hc, expectType_self,
          expectType_of_ne (Ne.symm h)]
        exact .noForm Fault.noConfusion
    · rw [ofErased, operand_of_ne hc, TypedSSA.Instr.check, expectType_of_ne (Ne.symm hc)]
      exact .noForm Fault.noConfusion
  | phi ty incoming =>
    have hs : ∀ p ∈ incoming, p.1.isScoped = true := fun p hp => hi p.1 (List.mem_map_of_mem hp)
    have hof : ofErased (.phi ty incoming) =
        (incoming.mapM fun p => do return (← operand ty p.1, p.2)) >>= fun typed =>
          if h : typed ≠ [] then .ok ⟨_, phi typed h⟩ else .error (.fault .emptyPhi) := rfl
    cases incoming with
    | nil => exact .emptyPhi
    | cons p rest =>
      have hcheck : (TypedSSA.Instr.phi ty (p :: rest)).check =
          ((p :: rest).forM fun q => expectType ty q.1.ty) >>= fun _ => .ok (.scalar ty) := rfl
      rw [hof, hcheck]
      by_cases h : ∀ q ∈ p :: rest, q.1.ty = ty
      · obtain ⟨typed, htyped, hte⟩ := exists_mapM_operand hs h
        have hne : typed ≠ [] := by
          rintro rfl
          cases hte
        rw [htyped, forM_eq_ok fun q hq => by rw [h q hq, expectType_self]]
        show Verdict _ (if h : typed ≠ [] then _ else _) (.ok (.scalar ty))
        rw [dif_pos hne]
        exact .form (.phi typed hne) (congrArg (TypedSSA.Instr.phi ty) hte)
      · obtain ⟨f, hf, hne⟩ := forM_expectType_of_not_forall h
        rw [mapM_operand_of_not_forall hs h, hf]
        exact .noForm hne
  | call callee type args attributes =>
    have hs : ∀ v ∈ args, v.isScoped = true := hi
    rw [ofErased, TypedSSA.Instr.check]
    by_cases h : args.map Value.ty = type.params
    · obtain ⟨typed, htyped, hte⟩ := Args.exists_ofValues? hs h
      rw [htyped, FuncType.checkArguments_of_eq h]
      refine .form (.call callee typed attributes) ?_
      rw [erase, TypedSSA.Instr.canonical, hte]
    · obtain ⟨f, hf, hne⟩ := FuncType.checkArguments_of_ne h callee
      rw [Args.ofValues?_of_ne h, hf]
      exact .noForm hne

/-! ## Terminators -/

/-- What the search for a typed form of `t` and the check on `t` come to together. -/
inductive Terminator.Verdict {r : Ty} (t : TypedSSA.Terminator) :
    Except Rejection (Terminator r) → Except Fault Unit → Prop where
  | form (typed : Terminator r) (erase : typed.erase = t.canonical) : Verdict t (.ok typed) (.ok ())
  | caseTwice (value : Const) :
      Verdict t (.error (.fault (.duplicateSwitchCase value))) (.error (.duplicateSwitchCase value))
  | noForm {f : Fault} (other : ∀ value, f ≠ .duplicateSwitchCase value) :
      Verdict t (.error .noForm) (.error f)

theorem Literal.ofConst?_of_not_fits {s : Scalar} (hs : s.isIntegral = true) {c : Const}
    (h : c.fits s = false) : ofConst? s c = none := by
  cases c with
  | int v =>
    have hint : s.hasInt v = false := h
    cases s <;> simp_all [ofConst?]
  | _ => cases s <;> first | rfl | cases hs

theorem Literal.exists_mapM {s : Scalar} (hs : s.isIntegral = true) {cases : List (Const × Label)}
    (h : ∀ c ∈ cases, c.1.fits s = true) :
    ∃ literals : List (Literal s × Label),
      (cases.mapM fun c => ((ofConst? s c.1).elim (.error .noForm) fun l => .ok (l, c.2) :
        Except Rejection (Literal s × Label))) = .ok literals ∧
      literals.map (fun l => (l.1.toConst, l.2)) = cases := by
  induction cases with
  | nil => exact ⟨[], rfl, rfl⟩
  | cons c rest ih =>
    rw [List.forall_mem_cons] at h
    obtain ⟨l, hl, hle⟩ := exists_ofConst? h.1
    obtain ⟨literals, hliterals, hmap⟩ := ih h.2
    refine ⟨(l, c.2) :: literals, ?_, ?_⟩
    · rw [List.mapM_cons, hl, hliterals]
      rfl
    · rw [List.map_cons, hle, Const.rounded_of_isIntegral hs, hmap]

theorem Literal.mapM_of_not_forall {s : Scalar} (hs : s.isIntegral = true)
    {cases : List (Const × Label)} (h : ¬ ∀ c ∈ cases, c.1.fits s = true) :
    (cases.mapM fun c => ((ofConst? s c.1).elim (.error .noForm) fun l => .ok (l, c.2) :
      Except Rejection (Literal s × Label))) = .error .noForm := by
  induction cases with
  | nil => exact absurd (fun c hc => nomatch hc) h
  | cons c rest ih =>
    rw [List.forall_mem_cons] at h
    rw [List.mapM_cons]
    cases hc : c.1.fits s with
    | true =>
      obtain ⟨l, hl, -⟩ := exists_ofConst? hc
      rw [ih fun hrest => h ⟨hc, hrest⟩, hl]
      rfl
    | false =>
      rw [ofConst?_of_not_fits hs hc]
      rfl

/-- A switch can be wrong in three ways, which are looked at in the same order on both sides: the
type that it looks at, a case that does not fit, and a case that comes twice. The last is found by
the same search, so both sides name the same case. -/
theorem Terminator.verdict_switch {r : Ty} {scrutinee : Value} {default : Label}
    {cases : List (Const × Label)} (hv : scrutinee.isScoped = true) :
    Verdict (.switch scrutinee default cases)
      (ofErased r (.switch scrutinee default cases))
      ((TypedSSA.Terminator.switch scrutinee default cases).check r) := by
  by_cases hintegral : IsIntegral scrutinee.ty
  · have hs := isIntegral_iff.mp hintegral
    obtain ⟨o, ho, hoe⟩ := Instr.exists_operand hv rfl
    rw [ofErased, dif_pos hintegral, ho]
    show Verdict _ ((cases.mapM fun c => _) >>= _) _
    by_cases hfit : ∀ c ∈ cases, c.1.fits scrutinee.ty = true
    · obtain ⟨literals, hliterals, hmap⟩ := Literal.exists_mapM hs hfit
      have hconsts : literals.map (fun l => l.1.toConst) = cases.map (·.1) := by
        rw [← hmap, List.map_map]
        rfl
      rw [hliterals, TypedSSA.Terminator.check_switch_of_fits hs hfit]
      simp only [bind, Except.bind]
      split
      · rename_i value hrepeat
        rw [checkDistinctCases, ← hconsts, hrepeat]
        exact .caseTwice value
      · rename_i hdistinct
        have hcheck : checkDistinctCases cases = .ok () := by
          rw [checkDistinctCases, ← hconsts, hdistinct]
        rw [hcheck]
        refine .form (.switch hintegral o default literals hdistinct) ?_
        rw [erase, TypedSSA.Terminator.canonical, hoe]
        exact congrArg (TypedSSA.Terminator.switch _ default) hmap
    · obtain ⟨value, hvalue⟩ := TypedSSA.Terminator.check_switch_of_not_fits (r := r) hs hfit
      rw [Literal.mapM_of_not_forall hs hfit, hvalue]
      exact .noForm fun _ => Fault.noConfusion
  · have hs : ¬ scrutinee.ty.isIntegral = true := mt isIntegral_iff.mpr hintegral
    rw [ofErased, dif_neg hintegral, TypedSSA.Terminator.check, if_neg hs]
    exact .noForm fun _ => Fault.noConfusion

theorem Terminator.verdict {r : Ty} {t : TypedSSA.Terminator}
    (ht : ∀ v ∈ t.operands, v.isScoped = true) : Verdict t (ofErased r t) (t.check r) := by
  cases t with
  | ret =>
    cases r with
    | void => exact .form .ret rfl
    | scalar s => exact .noForm fun _ => Fault.noConfusion
  | retVal value =>
    cases r with
    | void => exact .noForm fun _ => Fault.noConfusion
    | scalar s =>
      rw [ofErased, TypedSSA.Terminator.check]
      by_cases h : value.ty = s
      · obtain ⟨o, ho, hoe⟩ := Instr.exists_operand (ht value (List.mem_singleton_self _)) h
        rw [ho, if_pos (congrArg Ty.scalar h)]
        exact .form (.retVal o) (congrArg TypedSSA.Terminator.retVal hoe)
      · rw [Instr.operand_of_ne h, if_neg fun e => h (Ty.scalar.inj e)]
        exact .noForm fun _ => Fault.noConfusion
  | br target => exact .form (.br target) rfl
  | condBr condition ifTrue ifFalse =>
    rw [ofErased, TypedSSA.Terminator.check]
    by_cases h : condition.ty = .bool
    · obtain ⟨o, ho, hoe⟩ := Instr.exists_operand (ht condition (List.mem_singleton_self _)) h
      rw [ho, h, expectType_self]
      refine .form (.condBr o ifTrue ifFalse) ?_
      rw [erase, TypedSSA.Terminator.canonical, hoe]
    · rw [Instr.operand_of_ne h, expectType_of_ne (Ne.symm h)]
      exact .noForm fun _ => Fault.noConfusion
  | switch scrutinee default cases =>
    exact verdict_switch (ht scrutinee (List.mem_singleton_self _))

/-! ## Typed forms and the check -/

/-- An instruction has a typed form just when it passes the check. -/
structure Instr.Agrees (i : TypedSSA.Instr) : Prop where
  /-- There is a typed form at the type that the check gives, and at no other. -/
  form (t : Ty) : (∃ typed : Instr t, typed.erase = i.canonical) ↔ i.check = .ok t
  /-- The search finds one if there is one. -/
  found (t : Ty) : (∃ typed, ofErased i = .ok ⟨t, typed⟩) ↔ i.check = .ok t
  /-- The only fault that the types do not show is an empty phi. -/
  fault (f : Fault) : ofErased i = .error (.fault f) ↔ f = .emptyPhi ∧ i.check = .error .emptyPhi
  /-- What is found is the instruction, and passes the check again. -/
  erase (t : Ty) (typed : Instr t) : ofErased i = .ok ⟨t, typed⟩ →
    typed.erase = i.canonical ∧ typed.erase.check = .ok t

/-- A terminator has a typed form for functions with result type `r` just when it passes the
check. -/
structure Terminator.Agrees (r : Ty) (t : TypedSSA.Terminator) : Prop where
  form : (∃ typed : Terminator r, typed.erase = t.canonical) ↔ t.check r = .ok ()
  found : (∃ typed, ofErased r t = .ok typed) ↔ t.check r = .ok ()
  /-- The only fault that the types do not show is a case that comes twice, the same one. -/
  fault (f : Fault) : ofErased r t = .error (.fault f) ↔
    ∃ value, f = .duplicateSwitchCase value ∧ t.check r = .error (.duplicateSwitchCase value)
  erase (typed : Terminator r) : ofErased r t = .ok typed →
    typed.erase = t.canonical ∧ typed.erase.check r = .ok ()

namespace Instr.Verdict

variable {i : TypedSSA.Instr} {found : Except Rejection ((t : Ty) × Instr t)}
  {checked : Except Fault Ty}

theorem found_iff (h : Verdict i found checked) {t : Ty} :
    (∃ typed, found = .ok ⟨t, typed⟩) ↔ checked = .ok t := by
  cases h with
  | form typed erase =>
    constructor
    · rintro ⟨_, ⟨⟩⟩
      rfl
    · rintro ⟨⟩
      exact ⟨typed, rfl⟩
  | emptyPhi => simp
  | noForm other => simp

theorem fault_iff (h : Verdict i found checked) {f : Fault} :
    found = .error (.fault f) ↔ f = .emptyPhi ∧ checked = .error .emptyPhi := by
  cases h with
  | form typed erase => simp
  | emptyPhi => simp [eq_comm]
  | noForm other => simp [other]

theorem erase_eq (h : Verdict i found checked) {t : Ty} {typed : Instr t}
    (hfound : found = .ok ⟨t, typed⟩) : typed.erase = i.canonical := by
  subst hfound
  cases h
  assumption

end Instr.Verdict

namespace Terminator.Verdict

variable {r : Ty} {t : TypedSSA.Terminator} {found : Except Rejection (Terminator r)}
  {checked : Except Fault Unit}

theorem found_iff (h : Verdict t found checked) :
    (∃ typed, found = .ok typed) ↔ checked = .ok () := by
  cases h with
  | form typed erase => exact iff_of_true ⟨typed, rfl⟩ rfl
  | caseTwice value => simp
  | noForm other => simp

theorem fault_iff (h : Verdict t found checked) {f : Fault} :
    found = .error (.fault f) ↔
      ∃ value, f = .duplicateSwitchCase value ∧ checked = .error (.duplicateSwitchCase value) := by
  cases h with
  | form typed erase => simp
  | caseTwice value => simp [eq_comm]
  | noForm other => simp [other]

theorem erase_eq (h : Verdict t found checked) {typed : Terminator r}
    (hfound : found = .ok typed) : typed.erase = t.canonical := by
  subst hfound
  cases h
  assumption

end Terminator.Verdict

theorem Instr.agrees {i : TypedSSA.Instr} (hi : ∀ v ∈ i.operands, v.isScoped = true) :
    Agrees i where
  form t := by
    constructor
    · rintro ⟨typed, h⟩
      rw [← i.check_canonical, ← h, typed.check_erase]
    · intro h
      obtain ⟨typed, hfound⟩ := (verdict hi).found_iff.mpr h
      exact ⟨typed, (verdict hi).erase_eq hfound⟩
  found _ := (verdict hi).found_iff
  fault _ := (verdict hi).fault_iff
  erase _ typed hfound := ⟨(verdict hi).erase_eq hfound, typed.check_erase⟩

theorem Terminator.agrees {t : TypedSSA.Terminator} (ht : ∀ v ∈ t.operands, v.isScoped = true)
    (r : Ty) : Agrees r t where
  form := by
    constructor
    · rintro ⟨typed, h⟩
      rw [← t.check_canonical, ← h, typed.check_erase]
    · intro h
      obtain ⟨typed, hfound⟩ := (verdict ht).found_iff.mpr h
      exact ⟨typed, (verdict ht).erase_eq hfound⟩
  found := (verdict ht).found_iff
  fault _ := (verdict ht).fault_iff
  erase typed hfound := ⟨(verdict ht).erase_eq hfound, typed.check_erase⟩

/-- Typed code and the check have the same rules: code whose locals have scopes has a typed form
just when it passes the check, whatever the operation and its operands' types, and however long
lists of values, arguments and cases are. -/
theorem ofErased_agrees :
    (∀ i : TypedSSA.Instr, (∀ v ∈ i.operands, v.isScoped = true) → Instr.Agrees i) ∧
    ∀ t : TypedSSA.Terminator, (∀ v ∈ t.operands, v.isScoped = true) →
      ∀ r, Terminator.Agrees r t :=
  ⟨fun _ => Instr.agrees, fun _ => Terminator.agrees⟩

/-- A call with the number nearest to `0.1` and an attribute given twice. -/
def tenthCall : TypedSSA.Instr :=
  .call "g" ⟨[.f32], .scalar .f32⟩ [.const .f32 (.float ⟨0x3fb999999999999a⟩) (by decide)]
    [.noUnwind, .readNone, .noUnwind]

/-- The typed form has the nearest `f32`, and each attribute once. The bits of an `f32` can be taken
for an `i32` and not for an `i64`. A switch with a case that comes twice has no typed form. -/
theorem ofErased_tenthCall :
    (∃ typed, Instr.ofErased tenthCall = .ok ⟨.scalar .f32, typed⟩ ∧
      typed.erase = .call "g" ⟨[.f32], .scalar .f32⟩
        [.const .f32 (.float ⟨0x3fb99999a0000000⟩) (by decide)] [.noUnwind, .readNone]) ∧
    (∃ typed, Instr.ofErased (.cast .bitcast (.loc .f32 (.number 0) (some ⟨0⟩)) .i32) =
      .ok ⟨.scalar .i32, typed⟩) ∧
    (¬ ∃ typed, Instr.ofErased (.cast .bitcast (.loc .f32 (.number 0) (some ⟨0⟩)) .i64) =
      .ok ⟨.scalar .i64, typed⟩) ∧
    Terminator.ofErased .void (.switch (.loc .u8 (.number 0) (some ⟨0⟩)) "rest"
      [(.int 1, "one"), (.int 2, "two"), (.int 1, "rest")]) =
        .error (.fault (.duplicateSwitchCase (.int 1))) := by
  have hcall := ofErased_agrees.1 tenthCall (by decide)
  have hcast (t : Scalar) := ofErased_agrees.1
    (.cast .bitcast (.loc .f32 (.number 0) (some ⟨0⟩)) t) (List.forall_mem_singleton.mpr rfl)
  have hswitch := ofErased_agrees.2 (.switch (.loc .u8 (.number 0) (some ⟨0⟩)) "rest"
    [(.int 1, "one"), (.int 2, "two"), (.int 1, "rest")]) (by decide) .void
  refine ⟨?_, ((hcast .i32).found _).mpr rfl, ?_, (hswitch.fault _).mpr ⟨.int 1, rfl, rfl⟩⟩
  · obtain ⟨typed, hfound⟩ := (hcall.found (.scalar .f32)).mpr rfl
    refine ⟨typed, hfound, ((hcall.erase _ typed hfound).1).trans ?_⟩
    decide
  · rw [(hcast .i64).found]
    intro h
    cases h

end Typed

end TypedSSA
