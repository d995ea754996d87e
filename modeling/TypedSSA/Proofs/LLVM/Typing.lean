import TypedSSA.Proofs.LLVM.Faithful
import TypedSSA.Proofs.LLVM.Module
import TypedSSA.Proofs.LLVM.Rules

/-!
# The calls for a module are well typed

Every call that lowering makes keeps to the typing rules of LLVM, whether lowering goes through or
fails later (`lowerModule_wellTyped`). The steps for a function are gone through in order, with the
calls made so far. What is kept on the way is that the locals bound so far stand for values of
their types (`Knows`), and that the builder stands in the function. One step is treated by
`StepCalls.accepted`, and all of them by `Lowered.accepted`.
-/

namespace TypedSSA

/-- An instruction is known by the name of its result. -/
theorem Func.Sound.named_unique {f : Func} (h : f.Sound) {b c : Block} (hb : b ∈ f.blocks)
    (hc : c ∈ f.blocks) {n k : Named} (hn : n ∈ b.body) (hk : k ∈ c.body) {name : LocalName}
    (hname : n.name? = some name) (hname' : k.name? = some name) : n = k := by
  obtain ⟨i, rfl⟩ := List.mem_iff_get.mp hb
  obtain ⟨j, rfl⟩ := List.mem_iff_get.mp hc
  obtain ⟨p, hp⟩ := List.mem_iff_getElem?.mp hn
  obtain ⟨q, hq⟩ := List.mem_iff_getElem?.mp hk
  have hbinds : BindsAt f.blocks i p name := ⟨n, hp, hname⟩
  have hbinds' : BindsAt f.blocks j q name := ⟨k, hq, hname'⟩
  obtain ⟨rfl, rfl⟩ := hbinds.unique h.distinct.names_blocks hbinds'
  exact Option.some.inj (hp.symm.trans hq)

namespace LLVM

variable {f : Func} {builder : Nat} {ρ : Valuation} {before calls : List Call}

/-! ## Instructions -/

/-- What the calls return are results of instructions. -/
def Resulting (calls : List Call) : Prop :=
  ∀ c ∈ calls, ∀ v, c.result? = some v → ∃ n, v = .result n

theorem Numbered.resulting {first last : Nat} (h : Numbered first last calls) :
    Resulting calls := by
  intro c hc v hv
  have hmem : v ∈ calls.filterMap Call.result? := List.mem_filterMap.mpr ⟨c, hc, hv⟩
  rw [h.2] at hmem
  obtain ⟨n, -, rfl⟩ := List.mem_map.mp hmem
  exact ⟨n, rfl⟩

/-- A constant has the type that it fits. -/
theorem hasType_constVal {t : Scalar} {c : Const} (h : c.fits t = true) :
    HasType before (constVal t c) (.ofScalar t) := by
  cases c with
  | bool b =>
    obtain rfl : t = .bool := by cases t <;> first | rfl | cases h
    exact .int _
  | int v =>
    have hint : t.isIntegral = true := by
      have hrange : t.hasInt v = true := h
      rw [Scalar.hasInt, Bool.and_eq_true, Bool.and_eq_true] at hrange
      exact hrange.1.1
    rw [constVal, Ty.ofScalar_of_isIntegral hint]
    exact .int _
  | float x =>
    refine .real x (Ty.isFloat_ofScalar ?_)
    cases t <;> first | rfl | cases h

/-- The right operand has the LLVM type of the left one, but for the amount of a narrow shift. -/
theorem ofScalar_eq_of_admits {op : BinOp} {l r : Scalar} (h : op.Admits l r)
    (wide : op.isShift = true → l.width = 64) : Ty.ofScalar r = Ty.ofScalar l := by
  have hshift : l.isIntegral = true → l.width = 64 → Ty.ofScalar .u64 = Ty.ofScalar l :=
    fun hl hw => by rw [Ty.ofScalar_of_isIntegral hl, hw]; rfl
  cases op with
  | shl | lshr | ashr =>
    rw [h.2]
    exact hshift (Typed.isIntegral_iff.mp h.1) (wide rfl)
  | add | sub | mul | quot | rem | div | and | or | xor => rw [h.2]

theorem InstrCalls.accepted {i : Instr} {t : TypedSSA.Ty} {v : Val}
    (h : InstrCalls builder ρ i calls v) (hi : i.HasType t)
    (hops : i.isPhi = false → ∀ u ∈ i.operands, HasType before (ρ.value u) (.ofScalar u.ty))
    (hcallee : ∀ call, i.callee? = some call →
      ∃ module, .addFunction module call.1 (.ofFuncType call.2) ∈ before)
    (hresults : Resulting calls) :
    Accepted before calls ∧ ∀ s, t = .scalar s → HasType (before ++ calls) v (.ofScalar s) := by
  obtain ⟨n, rfl⟩ : ∃ n, v = .result n := by
    cases h with
    | shift => exact hresults _ (List.mem_cons_of_mem _ List.mem_cons_self) _ rfl
    | _ => exact hresults _ List.mem_cons_self _ rfl
  cases h with
  | @binary op opcode lhs rhs _ performs wide =>
    cases hi with
    | binary admits =>
      have hl := hops rfl lhs (by simp [Instr.operands])
      have hr := hops rfl rhs (by simp [Instr.operands])
      rw [ofScalar_eq_of_admits admits wide] at hr
      refine ⟨accepted_singleton.mpr ⟨_, hl, hr, performs.takes⟩, fun s hs => ?_⟩
      cases hs
      exact .binary (List.mem_append_right _ List.mem_cons_self)
        (hl.mono (List.subset_append_left _ _))
  | @shift op opcode lhs rhs amount _ performs isShift narrow =>
    cases hi with
    | binary admits =>
      -- the amount is a `u64`, and it is the result of the cast that is shifted by
      obtain ⟨k, rfl⟩ := hresults _ List.mem_cons_self _ rfl
      have hl := hops rfl lhs (by simp [Instr.operands])
      have hr := hops rfl rhs (by simp [Instr.operands])
      obtain ⟨hint, hu64⟩ : lhs.ty.isIntegral = true ∧ rhs.ty = .u64 := by
        cases op <;> first | exact admits.imp_left Typed.isIntegral_iff.mp | cases isShift
      rw [hu64] at hr
      have hconverts : CastOpcode.trunc.Converts (.int 64) (.ofScalar lhs.ty) := by
        rw [Ty.ofScalar_of_isIntegral hint]
        exact .trunc narrow
      refine ⟨⟨⟨_, hr, hconverts⟩, ⟨_, hl.mono (List.subset_append_left _ _), ?_,
        performs.takes⟩, trivial⟩, fun s hs => ?_⟩
      · exact .cast (List.mem_append_right _ List.mem_cons_self)
      · cases hs
        exact .binary (List.mem_append_right _ (List.mem_cons_of_mem _ List.mem_cons_self))
          (hl.mono (List.subset_append_left _ _))
  | @cast op opcode value target _ performs =>
    cases hi with
    | cast admits =>
      have hv := hops rfl value (by simp [Instr.operands])
      refine ⟨accepted_singleton.mpr ⟨_, hv, performs.converts⟩, fun s hs => ?_⟩
      cases hs
      exact .cast (List.mem_append_right _ List.mem_cons_self)
  | @icmp predicate p lhs rhs _ notFloat decides =>
    cases hi with
    | cmp same =>
      have hl := hops rfl lhs (by simp [Instr.operands])
      have hr := hops rfl rhs (by simp [Instr.operands])
      rw [same] at hr
      rw [Ty.ofScalar_of_not_isFloat notFloat] at hl hr
      refine ⟨accepted_singleton.mpr ⟨_, hl, hr⟩, fun s hs => ?_⟩
      cases hs
      exact .icmp (List.mem_append_right _ List.mem_cons_self)
  | @fcmp predicate p lhs rhs _ float decides =>
    cases hi with
    | cmp same =>
      have hl := hops rfl lhs (by simp [Instr.operands])
      have hr := hops rfl rhs (by simp [Instr.operands])
      rw [same] at hr
      refine ⟨accepted_singleton.mpr ⟨_, hl, hr, Ty.isFloat_ofScalar float⟩, fun s hs => ?_⟩
      cases hs
      exact .fcmp (List.mem_append_right _ List.mem_cons_self)
  | @select condition ifTrue ifFalse =>
    cases hi with
    | select bool same =>
      have hc := hops rfl condition (by simp [Instr.operands])
      have ht := hops rfl ifTrue (by simp [Instr.operands])
      have he := hops rfl ifFalse (by simp [Instr.operands])
      rw [bool] at hc
      rw [same] at he
      refine ⟨accepted_singleton.mpr ⟨hc, _, ht, he, Ty.ofScalar_ne_void _⟩, fun s hs => ?_⟩
      cases hs
      exact .select (List.mem_append_right _ List.mem_cons_self)
        (ht.mono (List.subset_append_left _ _))
  | @phi ty incoming =>
    cases hi with
    | phi nonempty same =>
      refine ⟨accepted_singleton.mpr (Ty.ofScalar_ne_void ty), fun s hs => ?_⟩
      cases hs
      exact .phi (List.mem_append_right _ List.mem_cons_self)
  | @call callee type args attributes =>
    cases hi with
    | call args_eq =>
      have hargs : List.Forall₂ (HasType before) (args.map ρ.value)
          (FuncType.ofFuncType type).params := by
        show List.Forall₂ _ _ (type.params.map Ty.ofScalar)
        rw [← args_eq, List.map_map, List.forall₂_map_left_iff, List.forall₂_map_right_iff,
          List.forall₂_same]
        exact hops rfl
      refine ⟨⟨⟨hcallee _ rfl, hargs⟩, accepted_iff.mpr fun l₁ c l₂ hl => ?_⟩, fun s hs => ?_⟩
      · obtain ⟨a, -, rfl⟩ := List.mem_map.mp (hl ▸ List.mem_append_right l₁ List.mem_cons_self)
        exact ⟨_, _, _, _, List.mem_append_left _ (List.mem_append_right _ List.mem_cons_self)⟩
      · have hret : (FuncType.ofFuncType type).ret = .ofScalar s := by
          rw [FuncType.ofFuncType, hs]
          rfl
        rw [← hret]
        exact .call (List.mem_append_right _ List.mem_cons_self)

/-! ## Steps -/

/-- What the body of a function refers to is there. -/
structure Surrounds (before : List Call) (f : Func) : Prop where
  added : ∃ module, .addFunction module f.label (.ofFuncType f.type) ∈ before
  callees (call : Label × TypedSSA.FuncType) : call ∈ f.calls →
    ∃ module, .addFunction module call.1 (.ofFuncType call.2) ∈ before
  blocks (b : Block) : b ∈ f.blocks → Appended before ⟨f.label, b.label⟩

theorem Surrounds.append (h : Surrounds before f) (calls : List Call) :
    Surrounds (before ++ calls) f where
  added := h.added.imp fun _ => List.mem_append_left _
  callees call hc := (h.callees call hc).imp fun _ => List.mem_append_left _
  blocks b hb := (h.blocks b hb).mono (List.subset_append_left _ _)

/-- The builder stands in the function. -/
def StandsIn (builder : Nat) (f : Func) (before : List Call) : Prop :=
  ∃ label, standsAt builder before = some ⟨f.label, label⟩

theorem accepted_terminatorCalls {t : Terminator} (ht : t.Ends f.type.ret)
    (hadded : ∃ module, .addFunction module f.label (.ofFuncType f.type) ∈ before)
    (hops : ∀ v ∈ t.operands, HasType before (ρ.value v) (.ofScalar v.ty))
    (hlabels : ∀ label ∈ t.successors, Appended before ⟨f.label, label⟩)
    (hstands : StandsIn builder f before) :
    Accepted before (terminatorCalls f.label builder ρ t) := by
  obtain ⟨here, hhere⟩ := hstands
  obtain ⟨module, hadded⟩ := hadded
  have hreturns : ReturnsFrom before (standsAt builder before) (.ofTy f.type.ret) :=
    ⟨_, module, _, hhere, hadded, rfl⟩
  have hbranches : ∀ label ∈ t.successors,
      BranchesTo before (standsAt builder before) ⟨f.label, label⟩ :=
    fun label hl => ⟨_, hhere, rfl, hlabels label hl⟩
  cases ht with
  | ret void =>
    rw [void] at hreturns
    exact accepted_singleton.mpr hreturns
  | @retVal value same =>
    rw [same] at hreturns
    exact accepted_singleton.mpr ⟨_, hreturns, hops value List.mem_cons_self⟩
  | br target => exact accepted_singleton.mpr (hbranches target List.mem_cons_self)
  | @condBr condition bool ifTrue ifFalse =>
    have hc := hops condition List.mem_cons_self
    rw [bool] at hc
    exact accepted_singleton.mpr ⟨hc, hbranches ifTrue List.mem_cons_self,
      hbranches ifFalse (List.mem_cons_of_mem _ List.mem_cons_self)⟩
  | @switch scrutinee cases integral fits distinct default =>
    have hint := Ty.ofScalar_of_isIntegral integral
    have hs := hops scrutinee List.mem_cons_self
    rw [hint] at hs
    refine ⟨⟨⟨_, hs⟩, hbranches default List.mem_cons_self⟩, accepted_iff.mpr fun l₁ c l₂ hl => ?_⟩
    obtain ⟨p, hp, rfl⟩ := List.mem_map.mp (hl ▸ List.mem_append_right l₁ List.mem_cons_self)
    have hconst : HasType before (constVal scrutinee.ty p.1) (.int scrutinee.ty.width) := by
      rw [← hint]
      exact hasType_constVal (fits p hp)
    have hnone : ∀ d ∈ l₁, d.scrutinee? = none := by
      intro d hd
      obtain ⟨q, -, rfl⟩ := List.mem_map.mp (hl ▸ List.mem_append_left _ hd)
      rfl
    have hsub := List.subset_append_left before
      (.build builder (.switch (ρ.value scrutinee) ⟨f.label, default⟩ cases.length) :: l₁)
    rw [List.append_cons] at hsub
    refine ⟨_, _, ?_, hs.mono hsub, hconst.mono hsub, (hlabels p.2 ?_).mono hsub⟩
    · rw [← List.append_cons]
      exact lastSwitch_append hnone before
    · exact List.mem_cons_of_mem _ (List.mem_map_of_mem hp)

/-- The locals `known` stand for values of their types, and those of phis for LLVM's phis. -/
structure Knows (before : List Call) (f : Func) (ρ : Valuation) (known : List LocalName) :
    Prop where
  types (name : LocalName) (ty : Scalar) : name ∈ known →
    Binds f.type f.params f.blocks name ty → HasType before (ρ name) (.ofScalar ty)
  phis (name : LocalName) (b : Block) (ty s : Scalar) (incoming : List (Value × Label)) :
    name ∈ known → b ∈ f.blocks → .bind name ty (.phi s incoming) ∈ b.body →
      ∃ builder, .build builder (.phi (.ofScalar s) (ρ name)) ∈ before

theorem Knows.append {known : List LocalName} (h : Knows before f ρ known) (calls : List Call) :
    Knows (before ++ calls) f ρ known where
  types name ty hn hb := (h.types name ty hn hb).mono (List.subset_append_left _ _)
  phis name b ty s incoming hn hb hphi :=
    (h.phis name b ty s incoming hn hb hphi).imp fun _ => List.mem_append_left _

/-- What a step reads is read by a block. -/
theorem Step.Of.exists_reads {s : Step} (hs : s.Of f) {v : Value} (hv : v ∈ s.operands) :
    ∃ b ∈ f.blocks, v ∈ b.reads := by
  cases hs with
  | enter block => cases hv
  | @instr b n block instr =>
    refine ⟨b, block, Block.mem_reads_iff.mpr (.inl ⟨n, instr, ?_⟩)⟩
    rw [Step.operands] at hv
    split at hv
    · cases hv
    · exact hv
  | @leave b block => exact ⟨b, block, Block.mem_reads_iff.mpr (.inr hv)⟩
  | @merge b name ty s incoming block phi =>
    obtain ⟨p, hp, rfl⟩ := List.mem_map.mp hv
    exact ⟨b, block, (Block.mem_of_phi phi rfl hp).1⟩

/-- An operand whose local is known has its type. -/
theorem Knows.hasType {known : List LocalName} (h : Knows before f ρ known) (hf : f.Sound)
    {b : Block} (hb : b ∈ f.blocks) {v : Value} (hv : v ∈ b.reads)
    (hknown : ∀ name, v.name? = some name → name ∈ known) :
    HasType before (ρ.value v) (.ofScalar v.ty) := by
  cases v with
  | const ty c fits => exact hasType_constVal fits
  | loc ty name own => exact h.types name ty (hknown name rfl) (hf.binds hb hv)

theorem Surrounds.appended (h : Surrounds before f) (hf : f.Sound) {b : Block} (hb : b ∈ f.blocks)
    {label : Label} (hl : label ∈ b.mentions) : Appended before ⟨f.label, label⟩ := by
  obtain ⟨scope, hw⟩ := hf.wellFormed
  obtain ⟨target, ht, rfl⟩ := hw.labels b hb label hl
  exact h.blocks target ht

section Step

variable {s : Step} {known : List LocalName}

theorem InstrCalls.accepted_of_mem {n : Named} {v : Val} (h : InstrCalls builder ρ n.instr calls v)
    (ht : f.Typed) (hsur : Surrounds before f) {b : Block} (hb : b ∈ f.blocks) (hn : n ∈ b.body)
    (hops : ∀ u ∈ (Step.instr n).operands, HasType before (ρ.value u) (.ofScalar u.ty))
    (hresults : Resulting calls) :
    Accepted before calls ∧
      ∀ s, n.resultType = .scalar s → HasType (before ++ calls) v (.ofScalar s) := by
  refine h.accepted (ht.instrs b hb n hn) (fun hphi => ?_) (fun call hc => ?_) hresults
  · simpa [Step.operands, hphi] using hops
  · exact hsur.callees call
      (List.mem_flatMap.mpr ⟨b, hb, List.mem_filterMap.mpr ⟨n, hn, hc⟩⟩)

/-- The rules hold for the calls of a step. -/
theorem StepCalls.accepted (h : StepCalls f builder ρ s calls) (hf : f.Sound) (ht : f.Typed)
    (hs : s.Of f) (hsur : Surrounds before f) (hknown : Knows before f ρ known)
    (hops : ∀ v ∈ s.operands, HasType before (ρ.value v) (.ofScalar v.ty))
    (hmerge : ∀ target name incoming, s = .merge target name incoming → name ∈ known)
    (hstands : (∃ label, s = .enter label) ∨ StandsIn builder f before)
    (hresults : Resulting calls) : Accepted before calls := by
  cases h with
  | enter label =>
    cases hs with
    | @enter b block => exact accepted_singleton.mpr (hsur.blocks b block)
  | @instr n _ result calls_eq names =>
    cases hs with
    | instr block instr => exact (calls_eq.accepted_of_mem ht hsur block instr hops hresults).1
  | leave t =>
    have hhere : StandsIn builder f before := by
      refine hstands.resolve_left ?_
      rintro ⟨_, he⟩
      cases he
    cases hs with
    | @leave b block =>
      refine accepted_terminatorCalls (ht.terminators b block) hsur.added hops (fun label hl => ?_)
        hhere
      exact hsur.appended hf block (Block.mem_mentions_iff.mpr (.inr hl))
  | merge target name incoming =>
    cases hs with
    | @merge b _ ty t _ block phi =>
      obtain ⟨origin, hbuilt⟩ := hknown.phis name b ty t incoming (hmerge _ _ _ rfl) block phi
      have hsame : ∀ p ∈ incoming, p.1.ty = t := by
        cases ht.instrs b block _ phi with
        | phi nonempty same => exact same
      refine accepted_singleton.mpr ⟨origin, _, hbuilt, fun e he => ?_⟩
      obtain ⟨p, hp, he⟩ := List.mem_flatMap.mp he
      rw [(List.mem_replicate.mp he).2]
      have hv := hops p.1 (List.mem_map_of_mem hp)
      rw [hsame p hp] at hv
      exact ⟨hv, hsur.appended hf block (Block.mem_of_phi phi rfl hp).2⟩

theorem position?_of_entered? {c : Call} (h : c.entered? = none) (builder : Nat) :
    c.position? builder = none := by
  unfold Call.position?
  split
  · cases h
  · rfl

/-- The builder stays in the function, once it is there. -/
theorem StepCalls.standsIn (h : StepCalls f builder ρ s calls)
    (hstands : (∃ label, s = .enter label) ∨ StandsIn builder f before) :
    StandsIn builder f (before ++ calls) := by
  have hstay : (∀ label, s ≠ .enter label) → (∀ c ∈ calls, c.entered? = none) →
      StandsIn builder f (before ++ calls) := by
    intro hne hnone
    obtain ⟨label, he⟩ | ⟨here, hhere⟩ := hstands
    · exact (hne label he).elim
    exact ⟨here, by rw [standsAt_append fun c hc => position?_of_entered? (hnone c hc) _, hhere]⟩
  cases h with
  | enter label => exact ⟨label, standsAt_position builder _ before⟩
  | instr calls_eq names =>
    exact hstay (fun _ => Step.noConfusion) fun c hc => (calls_eq.observe hc).2.2.1
  | leave t =>
    exact hstay (fun _ => Step.noConfusion) fun c hc => (observe_terminatorCalls hc).2.2.1
  | merge target name incoming =>
    exact hstay (fun _ => Step.noConfusion) fun c hc => List.mem_singleton.mp hc ▸ rfl

/-- A local that is bound is known from then on. -/
theorem StepCalls.knows (h : StepCalls f builder ρ s calls) (hf : f.Sound) (ht : f.Typed)
    (hs : s.Of f) (hsur : Surrounds before f) (hknown : Knows before f ρ known)
    (hops : ∀ v ∈ s.operands, HasType before (ρ.value v) (.ofScalar v.ty))
    (hresults : Resulting calls) :
    Knows (before ++ calls) f ρ (s.name?.toList ++ known) := by
  have hold := hknown.append calls
  cases h with
  | enter label => exact hold
  | leave t => exact hold
  | merge target name incoming => exact hold
  | @instr n _ result calls_eq names =>
    cases hs with
    | @instr b _ block instr =>
      cases n with
      | discard i => exact hold
      | bind name ty i =>
        have hname : ρ name = result := names name rfl
        have htype : HasType (before ++ calls) result (.ofScalar ty) :=
          (calls_eq.accepted_of_mem ht hsur block instr hops hresults).2 ty rfl
        refine ⟨fun name' ty' hn hb => ?_, fun name' b' ty' t incoming hn hb hphi => ?_⟩
        · rcases List.mem_cons.mp hn with rfl | hn
          · rw [hname, ← hf.binds_unique (.inr ⟨b, block, i, instr⟩) hb]
            exact htype
          · exact hold.types name' ty' hn hb
        · rcases List.mem_cons.mp hn with rfl | hn
          · -- the phi is the instruction of this step, since both bind the same name
            cases hf.named_unique block hb instr hphi rfl rfl
            cases calls_eq
            rw [hname]
            exact ⟨builder, List.mem_append_right _ List.mem_cons_self⟩
          · exact hold.phis name' b' ty' t incoming hn hb hphi

end Step

/-- A phi is built before its values are added. -/
def MergesLate (known : List LocalName) (steps : List Step) : Prop :=
  ∀ done target name incoming rest, steps = done ++ .merge target name incoming :: rest →
    name ∈ done.filterMap Step.name? ++ known

/-- The rules hold for the calls of steps one after the other, and afterwards all that has been read
or bound has its type. -/
theorem Lowered.accepted {known : List LocalName} {steps : List Step}
    (h : Lowered f builder ρ known steps calls) (hf : f.Sound) (ht : f.Typed)
    (hs : ∀ s ∈ steps, s.Of f) (hmerge : MergesLate known steps)
    (hsur : steps ≠ [] → Surrounds before f) (hknown : Knows before f ρ known)
    (hstands : ∀ s, steps.head? = some s → (∃ label, s = .enter label) ∨ StandsIn builder f before)
    (hresults : Resulting calls) :
    Accepted before calls ∧
    (∀ s ∈ steps, ∀ v ∈ s.operands, HasType (before ++ calls) (ρ.value v) (.ofScalar v.ty)) ∧
    Knows (before ++ calls) f ρ ((steps.filterMap Step.name?).reverse ++ known) := by
  -- on the steps: those that are left are done after the calls of the first, with its local known
  induction h generalizing before with
  | nil =>
    rw [List.append_nil]
    exact ⟨trivial, fun s hs => (nomatch hs), hknown⟩
  | @cons known s steps here later reads calls_eq rest ih =>
    rw [List.forall_mem_cons] at hs
    have hsur := hsur (List.cons_ne_nil _ _)
    have hops : ∀ v ∈ s.operands, HasType before (ρ.value v) (.ofScalar v.ty) := by
      intro v hv
      obtain ⟨b, hb, hread⟩ := hs.1.exists_reads hv
      exact hknown.hasType hf hb hread (reads v hv)
    have hres : Resulting here := fun c hc => hresults c (List.mem_append_left _ hc)
    have hres' : Resulting later := fun c hc => hresults c (List.mem_append_right _ hc)
    have hfirst := hstands s rfl
    have haccepted : Accepted before here := by
      refine calls_eq.accepted hf ht hs.1 hsur hknown hops (fun target name incoming he => ?_)
        hfirst hres
      simpa [he] using hmerge [] target name incoming steps (by rw [he]; rfl)
    have hlater : MergesLate (s.name?.toList ++ known) steps := by
      intro done target name incoming rest he
      have hname := hmerge (s :: done) target name incoming rest (by rw [he]; rfl)
      have hcons : (s :: done).filterMap Step.name? =
          s.name?.toList ++ done.filterMap Step.name? := by
        cases hs' : s.name? <;> simp [hs']
      rw [hcons, List.mem_append, List.mem_append, or_assoc, or_left_comm] at hname
      rwa [List.mem_append, List.mem_append]
    obtain ⟨haccepted', hops', hknown'⟩ := ih hs.2 hlater (fun _ => hsur.append here)
      (calls_eq.knows hf ht hs.1 hsur hknown hops hres)
      (fun _ _ => .inr (calls_eq.standsIn hfirst)) hres'
    rw [List.append_assoc] at hops' hknown'
    refine ⟨accepted_append.mpr ⟨haccepted, haccepted'⟩, List.forall_mem_cons.mpr ⟨?_, hops'⟩, ?_⟩
    · exact fun v hv => (hops v hv).mono (List.subset_append_left _ _)
    · cases hs' : s.name? <;> simpa [hs'] using hknown'

/-! ## Functions -/

theorem knows_params (hf : f.Sound) {module : Nat}
    (hadded : .addFunction module f.label (.ofFuncType f.type) ∈ before)
    (hparams : ∀ k name, f.params[k]? = some name → ρ name = .param f.label k) :
    Knows before f ρ f.params := by
  have hnot : ∀ {name : LocalName} {b : Block} {n : Named}, name ∈ f.params → b ∈ f.blocks →
      n ∈ b.body → n.name? = some name → False := by
    intro name b n hname hb hn hbound
    refine hf.distinct.not_mem_names hname (List.mem_flatMap.mpr ⟨b, hb, ?_⟩)
    exact List.mem_filterMap.mpr ⟨n, hn, hbound⟩
  refine ⟨fun name ty hname hbinds => ?_, fun name b ty t incoming hname hb hphi => ?_⟩
  · rcases hbinds with hzip | ⟨b, hb, i, hi⟩
    · obtain ⟨k, hk⟩ := List.mem_iff_getElem?.mp hzip
      rw [List.getElem?_zip_eq_some] at hk
      rw [hparams k name hk.1]
      refine .param hadded ?_
      show (f.type.params.map Ty.ofScalar)[k]? = _
      rw [List.getElem?_map, hk.2]
      rfl
    · exact (hnot hname hb hi rfl).elim
  · exact (hnot hname hb hphi rfl).elim

namespace Emission

variable {e : Emission}

/-- What the locals and operands of a function stand for has their types. -/
structure ValuesTyped (calls : List Call) (e : Emission) : Prop where
  params (p : LocalName × Scalar) : p ∈ e.func.params.zip e.func.type.params →
    HasType calls (e.values p.1) (.ofScalar p.2)
  results (name : LocalName) (ty : Scalar) (i : Instr) : .instr (.bind name ty i) ∈ e.steps →
    HasType calls (e.values name) (.ofScalar ty)
  operands (s : Step) : s ∈ e.steps → ∀ v ∈ s.operands,
    HasType calls (e.values.value v) (.ofScalar v.ty)

theorem ValuesTyped.append (h : e.ValuesTyped before) (calls : List Call) :
    e.ValuesTyped (before ++ calls) where
  params p hp := (h.params p hp).mono (List.subset_append_left _ _)
  results name ty i hs := (h.results name ty i hs).mono (List.subset_append_left _ _)
  operands s hs v hv := (h.operands s hs v hv).mono (List.subset_append_left _ _)

/-- The first step is to enter a block. -/
theorem Valid.enters_first (h : e.Valid) {s : Step} (hs : e.steps.head? = some s) :
    ∃ label, s = .enter label := by
  obtain ⟨order, -, hprefix⟩ := h.steps
  have hhead : (script order).head? = some s := by
    obtain ⟨rest, hrest⟩ := hprefix
    rw [← hrest, List.head?_append, hs]
    rfl
  cases order with
  | nil => cases hhead
  | cons b order => exact ⟨b.label, (Option.some.inj hhead).symm⟩

/-- All blocks have been gone through when the values of the phis are added. -/
theorem Valid.mergesLate (h : e.Valid) : MergesLate e.func.params e.steps := by
  intro done target name incoming rest hsteps
  obtain ⟨order, hperm, hprefix⟩ := h.steps
  have hnot : .merge target name incoming ∉ order.flatMap Block.steps := by
    intro hmem
    obtain ⟨b, -, hb⟩ := List.mem_flatMap.mp hmem
    simp [Block.steps] at hb
  have hdone : done ++ [.merge target name incoming] <+: script order := by
    refine List.IsPrefix.trans ?_ hprefix
    rw [hsteps]
    exact ⟨rest, (List.append_cons ..).symm⟩
  -- the steps for the blocks hold no merge, so they end before this one
  have hblocks : order.flatMap Block.steps <+: done := by
    rcases List.prefix_or_prefix_of_prefix (List.prefix_append _ _) hdone with hle | hle
    · rcases List.prefix_concat_iff.mp hle with heq | hle
      · exact (hnot (heq ▸ List.mem_append_right _ List.mem_cons_self)).elim
      · exact hle
    · exact (hnot (hle.subset (List.mem_append_right _ List.mem_cons_self))).elim
  have hmerge : Step.merge target name incoming ∈ e.steps := by simp [hsteps]
  refine List.mem_append_left _ ?_
  cases h.of_mem_steps hmerge with
  | @merge b _ ty t _ block phi =>
    have hmem : Step.instr (.bind name ty (.phi t incoming)) ∈ order.flatMap Block.steps := by
      refine List.mem_flatMap.mpr ⟨b, hperm.mem_iff.mpr block, ?_⟩
      simp [Block.steps, phi]
    exact List.mem_filterMap.mpr ⟨_, hblocks.subset hmem, rfl⟩

/-- The rules hold for a body, after the blocks have been appended. -/
theorem Valid.accepted_body (h : e.Valid) (hf : e.func.Sound) (ht : e.func.Typed)
    (hadded : ∃ module, .addFunction module e.func.label (.ofFuncType e.func.type) ∈ before)
    (hcallees : ∀ call ∈ e.func.calls,
      ∃ module, .addFunction module call.1 (.ofFuncType call.2) ∈ before)
    (happended : ∀ b ∈ e.appended, Appended before ⟨e.func.label, b.label⟩)
    (hresults : Resulting e.body) :
    Accepted before e.body ∧ e.ValuesTyped (before ++ e.body) := by
  obtain ⟨module, hmodule⟩ := hadded
  have hsur : e.steps ≠ [] → Surrounds before e.func := fun hne =>
    ⟨⟨module, hmodule⟩, hcallees, by rwa [← h.all_appended hne]⟩
  obtain ⟨haccepted, hoperands, hknows⟩ := h.body.accepted hf ht (fun s hs => h.of_mem_steps hs)
    h.mergesLate hsur (knows_params hf hmodule h.params) (fun s hs => .inl (h.enters_first hs))
    hresults
  refine ⟨haccepted, fun p hp => ?_, fun name ty i hs => ?_, hoperands⟩
  · exact hknows.types p.1 p.2 (List.mem_append_right _ (List.of_mem_zip hp).1) (.inl hp)
  · refine hknows.types name ty (List.mem_append_left _ (List.mem_reverse.mpr ?_)) ?_
    · exact List.mem_filterMap.mpr ⟨_, hs, rfl⟩
    · cases h.of_mem_steps hs with
      | @instr b _ block instr => exact .inr ⟨b, block, i, instr⟩

theorem Valid.accepted (h : e.Valid) (hf : e.func.Sound) (ht : e.func.Typed)
    (hadded : ∃ module, .addFunction module e.func.label (.ofFuncType e.func.type) ∈ before)
    (hcallees : ∀ call ∈ e.func.calls,
      ∃ module, .addFunction module call.1 (.ofFuncType call.2) ∈ before)
    {context : Nat} (hresults : Resulting (e.calls context)) :
    Accepted before (e.calls context) ∧ e.ValuesTyped (before ++ e.calls context) := by
  have hopening : Accepted before (e.opening context) := by
    refine accepted_of_forall fun c hc _ => ?_
    rcases List.mem_cons.mp hc with rfl | hc
    · trivial
    · obtain ⟨b, -, rfl⟩ := List.mem_map.mp hc
      trivial
  obtain ⟨hbody, hvalues⟩ : Accepted (before ++ e.opening context) e.body ∧
      e.ValuesTyped (before ++ e.opening context ++ e.body) := by
    refine h.accepted_body hf ht (hadded.imp fun _ => List.mem_append_left _)
      (fun call hc => (hcallees call hc).imp fun _ => List.mem_append_left _) (fun b hb => ?_)
      fun c hc => hresults c (by simp [calls, hc])
    exact ⟨context, List.mem_append_right _ (List.mem_cons_of_mem _
      (List.mem_map.mpr ⟨b, hb, rfl⟩))⟩
  rw [calls]
  refine ⟨accepted_append.mpr ⟨accepted_append.mpr ⟨hopening, hbody⟩, trivial, trivial⟩, ?_⟩
  rw [← List.append_assoc, ← List.append_assoc]
  exact hvalues.append _

end Emission

/-! ## Modules -/

theorem accepted_bodies {bodies : List Emission} (hvalid : ∀ e ∈ bodies, e.Valid)
    (hf : ∀ e ∈ bodies, e.func.Sound) (ht : ∀ e ∈ bodies, e.func.Typed)
    (hadded : ∀ e ∈ bodies,
      ∃ module, .addFunction module e.func.label (.ofFuncType e.func.type) ∈ before)
    (hcallees : ∀ e ∈ bodies, ∀ call ∈ e.func.calls,
      ∃ module, .addFunction module call.1 (.ofFuncType call.2) ∈ before)
    {context : Nat} (hresults : Resulting (bodies.flatMap (Emission.calls context))) :
    Accepted before (bodies.flatMap (Emission.calls context)) ∧
      ∀ e ∈ bodies, e.ValuesTyped (before ++ bodies.flatMap (Emission.calls context)) := by
  induction bodies generalizing before with
  | nil => exact ⟨trivial, fun e he => nomatch he⟩
  | cons e bodies ih =>
    rw [List.forall_mem_cons] at hvalid hf ht hadded hcallees
    rw [List.flatMap_cons] at hresults ⊢
    obtain ⟨hhere, hvalues⟩ := hvalid.1.accepted hf.1 ht.1 hadded.1 hcallees.1
      fun c hc => hresults c (List.mem_append_left _ hc)
    obtain ⟨hlater, hvalues'⟩ := @ih (before ++ e.calls context) hvalid.2 hf.2 ht.2
      (fun e he => (hadded.2 e he).imp fun _ => List.mem_append_left _)
      (fun e he call hc => (hcallees.2 e he call hc).imp fun _ => List.mem_append_left _)
      fun c hc => hresults c (List.mem_append_right _ hc)
    refine ⟨accepted_append.mpr ⟨hhere, hlater⟩, ?_⟩
    rw [← List.append_assoc]
    exact List.forall_mem_cons.mpr ⟨hvalues.append _, hvalues'⟩

section Module

variable {m : Module} {r : Rendering} {context : Nat}

/-- The rules hold for all that is emitted for a module. -/
theorem Rendering.Valid.accepted (h : r.Valid m) (hm : m.Reachable Func.Finished)
    (hv : m.validate = .ok ()) (hresults : Resulting (r.calls context m)) :
    Accepted [] (r.calls context m) ∧ ∀ e ∈ r.bodies, e.ValuesTyped (r.calls context m) := by
  have hfinished : ∀ e ∈ r.bodies, e.func.Finished := fun e he =>
    hm.of_mem_definitions (h.func_mem he)
  have hadded : ∀ e ∈ r.bodies, ∀ p ∈ m.functions, .addFunction r.module p.1 (.ofFuncType p.2) ∈
      r.added.map fun p => Call.addFunction r.module p.1 (.ofFuncType p.2) := by
    intro e he p hp
    rw [h.all_added (List.ne_nil_of_mem he)]
    exact List.mem_map.mpr ⟨p, hp, rfl⟩
  have hcreate : Accepted [] [.moduleCreate m.name context r.module,
      .setTarget r.module m.target.triple, .setDataLayout r.module m.target.dataLayout] :=
    ⟨trivial, trivial, trivial, trivial⟩
  have hadds : ∀ before, Accepted before
      (r.added.map fun p => Call.addFunction r.module p.1 (.ofFuncType p.2)) := by
    refine fun before => accepted_of_forall fun c hc _ => ?_
    obtain ⟨p, -, rfl⟩ := List.mem_map.mp hc
    intro t ht
    obtain ⟨s, -, rfl⟩ := List.mem_map.mp ht
    exact Ty.ofScalar_ne_void s
  rw [calls, content, ← List.append_assoc] at hresults ⊢
  obtain ⟨hbodies, hvalues⟩ := accepted_bodies h.valid (fun e he => (hfinished e he).sound)
    (fun e he => (hfinished e he).typed)
    (fun e he => ⟨r.module, List.mem_append_right _ (hadded e he (e.func.label, e.func.type)
      (List.mem_append_right _ (List.mem_map.mpr ⟨_, h.func_mem he, rfl⟩)))⟩)
    (fun e he call hc => ⟨r.module, List.mem_append_right _ (hadded e he call
      ((hm.tabled.lookup _ _).mp (Module.lookup_of_call hv (h.func_mem he) hc)))⟩)
    fun c hc => hresults c (List.mem_append_right _ hc)
  exact ⟨accepted_append.mpr ⟨accepted_append.mpr ⟨hcreate, hadds _⟩, hbodies⟩, hvalues⟩

/-- No function is added at two types. -/
theorem Rendering.Valid.added_unique (h : r.Valid m) (hm : m.Reachable Func.Finished)
    {module module' : Nat} {name : String} {type type' : FuncType}
    (hc : .addFunction module name type ∈ r.calls context m)
    (hc' : .addFunction module' name type' ∈ r.calls context m) : type = type' := by
  have hsound : ∀ f ∈ m.definitions, f.Sound := fun f hf => (hm.of_mem_definitions hf).sound
  have hadded : ∀ {k : Nat} {t : FuncType}, .addFunction k name t ∈ r.calls context m →
      ∃ p ∈ m.functions, p.1 = name ∧ FuncType.ofFuncType p.2 = t := by
    intro k t hk
    have hmem : (name, t) ∈ (r.calls context m).filterMap Call.function? :=
      List.mem_filterMap.mpr ⟨_, hk, rfl⟩
    rw [h.filterMap_function hsound] at hmem
    obtain ⟨p, hp, he⟩ := List.mem_map.mp hmem
    exact ⟨p, h.added.subset hp, Prod.mk.inj he⟩
  obtain ⟨p, hp, hname, rfl⟩ := hadded hc
  obtain ⟨q, hq, hname', rfl⟩ := hadded hc'
  rw [List.inj_on_of_nodup_map hm.tabled.nodup hp hq (hname.trans hname'.symm)]

/-- However lowering ends, its calls are those for some beginning of the module, and the disposal of
what has been made after a failure. -/
theorem exists_rendering (hm : m.Reachable Func.Finished) (hv : m.validate = .ok ())
    (replies : Replies) (counters : Counters) :
    ((lowerModule context m).run replies counters).calls = [] ∨
      ∃ r : Rendering, r.Valid m ∧ ∃ last : List Call,
        (last = [] ∨ last = [.disposeModule r.module]) ∧
        ((lowerModule context m).run replies counters).calls = r.calls context m ++ last := by
  obtain ⟨-, hok, hfailed⟩ := lowerModule_emits hm hv context replies counters
  cases hvalue : ((lowerModule context m).run replies counters).value with
  | ok module =>
    obtain ⟨r, -, hcomplete, hcalls⟩ := hok module hvalue
    exact .inr ⟨r, hcomplete.valid, [], .inl rfl, by rw [hcalls, List.append_nil]⟩
  | error e =>
    refine (hfailed e hvalue).imp_right ?_
    rintro ⟨r, hvalid, hcalls⟩
    exact ⟨r, hvalid, _, .inr rfl, hcalls⟩

end Module

/-- The calls made for a module, be it all of them or not, are well typed. -/
structure WellTypedCalls (context : Nat) (m : Module) (calls : List Call) : Prop where
  /-- Each call keeps to its rule, given the calls before it. -/
  rules (before : List Call) (c : Call) (after : List Call) : calls = before ++ c :: after →
    c.WellTyped before
  /-- A value has one type. -/
  unique (v : Val) (s t : Ty) : HasType calls v s → HasType calls v t → s = t
  /-- What locals and operands stand for has their types. -/
  values : calls = [] ∨ ∃ r : Rendering, r.Valid m ∧
    (calls = r.calls context m ∨ calls = r.calls context m ++ [.disposeModule r.module]) ∧
    ∀ e ∈ r.bodies, e.ValuesTyped calls

/-- All calls that lowering makes for a module of finished functions that passes validation are well
typed, also if it fails in the end. -/
theorem lowerModule_wellTyped {m : Module} (hm : m.Reachable Func.Finished)
    (hv : m.validate = .ok ()) (context : Nat) (replies : Replies) (counters : Counters) :
    WellTypedCalls context m ((lowerModule context m).run replies counters).calls := by
  have hnumbered := (lowerModule_emits hm hv context replies counters).1
  have hnodup := hnumbered.nodup
  have hresults := hnumbered.resulting
  have hcases := @exists_rendering m context hm hv replies counters
  generalize ((lowerModule context m).run replies counters).calls = calls at hnodup hresults hcases
  rcases hcases with rfl | ⟨r, hvalid, last, hlast, rfl⟩
  · exact ⟨fun before c after h => by simp at h, fun v s t => HasType.unique hnodup (by simp),
      .inl rfl⟩
  · obtain ⟨haccepted, hvalues⟩ := hvalid.accepted hm hv fun c hc =>
      hresults c (List.mem_append_left _ hc)
    have hrest : ∀ c ∈ last, c = .disposeModule r.module := by
      rcases hlast with rfl | rfl <;> simp
    have haccepted' : Accepted [] (r.calls context m ++ last) := by
      refine accepted_append.mpr ⟨haccepted, accepted_of_forall fun c hc _ => ?_⟩
      rw [hrest c hc]
      trivial
    have hadded : ∀ {k : Nat} {name : String} {type : FuncType},
        .addFunction k name type ∈ r.calls context m ++ last →
          .addFunction k name type ∈ r.calls context m := fun hc =>
      (List.mem_append.mp hc).resolve_right fun hc => nomatch hrest _ hc
    refine ⟨fun before c after h => accepted_iff.mp haccepted' before c after h,
      fun v s t => HasType.unique hnodup fun hc hc' =>
        hvalid.added_unique hm (hadded hc) (hadded hc'), .inr ⟨r, hvalid, ?_, fun e he =>
        (hvalues e he).append last⟩⟩
    rcases hlast with rfl | rfl
    · exact .inl (List.append_nil _)
    · exact .inr rfl

/-- Lowering goes through for the first of two modules, and fails for the second when some of the
code has been built. -/
theorem wellTyped_eitherWay_forwardRead :
    WellTypedCalls 0 eitherWayModule ((lowerModule 0 eitherWayModule).run {} {}).calls ∧
    WellTypedCalls 0 forwardReadModule ((lowerModule 0 forwardReadModule).run {} {}).calls ∧
    ((lowerModule 0 forwardReadModule).run {} {}).value = .error (undefined (.number 1)) ∧
    .build 0 (.positionAtEnd ⟨"f", "early"⟩) ∈
      ((lowerModule 0 forwardReadModule).run {} {}).calls := by
  have hrun : ((lowerModule 0 forwardReadModule).run {} {}).value =
      .error (undefined (.number 1)) ∧
      ((lowerModule 0 forwardReadModule).run {} {}).calls.contains
        (.build 0 (.positionAtEnd ⟨"f", "early"⟩)) = true := by
    decide +kernel
  have hreachable : forwardReadModule.Reachable Func.Finished :=
    .define (.new _ _) forwardRead finished_forwardRead
  exact ⟨lowerModule_wellTyped reachable_eitherWayModule (by decide) 0 {} {},
    lowerModule_wellTyped hreachable (by decide) 0 {} {}, hrun.1,
    List.contains_iff_mem.mp hrun.2⟩

end LLVM

end TypedSSA
