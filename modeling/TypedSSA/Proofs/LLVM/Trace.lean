import TypedSSA.Proofs.Function.Typing
import TypedSSA.Proofs.LLVM.Emits
import TypedSSA.Proofs.LLVM.Lowering
import TypedSSA.Proofs.LLVM.Translation

/-!
# Lowering emits what it is to emit

The calls that lowering makes are those of the steps for a function, in order, whether it goes
through or stops on the way (`lowerFunc_emits`, `lowerModule_emits`). Each part of lowering is
treated with the locals that it starts from. It leaves new ones (`Ran`), and where it fails it has
done the first of its steps (`Progress`). What locals stand for is settled at the end, when all of
them are known: no name is bound twice, so every value stays the one that was first looked up.
-/

namespace TypedSSA.LLVM

open Lower

variable {f : Func} {builder : Nat} {site : Site} {locals : Locals}

/-! ## Steps done -/

namespace Valuation

theorem Agrees.of_append {ρ : Valuation} {new : Locals} (h : ρ.Agrees (new ++ locals)) :
    ρ.Agrees locals := fun p hp => h p (List.mem_append_right _ hp)

/-- The values that are given for locals. -/
def ofLocals (locals : Locals) : Valuation := fun name => (locals.lookup name).getD (.result 0)

/-- Locals without a name twice settle the value of each, so there is a valuation that agrees with
all of them. -/
theorem agrees_ofLocals (h : (locals.map Prod.fst).Nodup) : (ofLocals locals).Agrees locals := by
  intro p hp
  have hlookup : locals.lookup p.1 = some p.2 := (lookup_eq_some_iff_mem h).mpr hp
  rw [ofLocals, hlookup]
  rfl

end Valuation

/-- From `locals` the steps have been done by these calls, and have added the locals `new`. -/
structure Ran (f : Func) (builder : Nat) (locals : Locals) (steps : List Step) (new : Locals)
    (calls : List Call) : Prop where
  names : new.map Prod.fst = (steps.filterMap Step.name?).reverse
  lowered (ρ : Valuation) : ρ.Agrees (new ++ locals) →
    Lowered f builder ρ (locals.map Prod.fst) steps calls

/-- From `locals` some of the steps, the first ones, have been done by these calls. -/
def Progress (f : Func) (builder : Nat) (locals : Locals) (steps : List Step)
    (calls : List Call) : Prop :=
  ∃ done new, done <+: steps ∧ Ran f builder locals done new calls

section Steps

variable {steps steps' : List Step} {new new' : Locals} {calls calls' : List Call}

theorem Ran.nil : Ran f builder locals [] [] [] := ⟨rfl, fun _ _ => .nil⟩

/-- Later steps may read what the first ones have added. A valuation that agrees with both works for
all of them. -/
theorem Ran.lowered_append (h : Ran f builder locals steps new calls) {ρ : Valuation}
    (hρ : ρ.Agrees (new ++ locals))
    (h' : Lowered f builder ρ ((new ++ locals).map Prod.fst) steps' calls') :
    Lowered f builder ρ (locals.map Prod.fst) (steps ++ steps') (calls ++ calls') := by
  refine (h.lowered ρ hρ).append ?_
  rwa [← h.names, ← List.map_append]

/-- Runs are put together. What the second has added stands in front, as locals are looked up from
the front. -/
theorem Ran.append (h : Ran f builder locals steps new calls)
    (h' : Ran f builder (new ++ locals) steps' new' calls') :
    Ran f builder locals (steps ++ steps') (new' ++ new) (calls ++ calls') := by
  refine ⟨?_, fun ρ hρ => ?_⟩
  · rw [List.map_append, h.names, h'.names, List.filterMap_append, List.reverse_append]
  · rw [List.append_assoc] at hρ
    exact h.lowered_append hρ.of_append (h'.lowered ρ hρ)

/-- A step that binds no local. -/
theorem Ran.single {s : Step} (name : s.name? = none)
    (reads : ∀ v ∈ s.operands, ∀ name, v.name? = some name → name ∈ locals.map Prod.fst)
    (calls_eq : ∀ ρ : Valuation, ρ.Agrees locals → StepCalls f builder ρ s calls) :
    Ran f builder locals [s] [] calls := by
  exact ⟨by simp [name], fun ρ hρ => .single reads (calls_eq ρ hρ)⟩

theorem Progress.nil : Progress f builder locals steps [] := ⟨[], [], List.nil_prefix, .nil⟩

theorem Progress.append_right (h : Progress f builder locals steps calls) (steps' : List Step) :
    Progress f builder locals (steps ++ steps') calls := by
  obtain ⟨done, new, hdone, hran⟩ := h
  exact ⟨done, new, hdone.trans (List.prefix_append _ _), hran⟩

/-- If lowering stops in the second part, the first part is done as a whole. -/
theorem Ran.progress (h : Ran f builder locals steps new calls)
    (h' : Progress f builder (new ++ locals) steps' calls') :
    Progress f builder locals (steps ++ steps') (calls ++ calls') := by
  obtain ⟨done, new', hdone, hran⟩ := h'
  exact ⟨steps ++ done, _, (List.prefix_append_right_inj steps).mpr hdone, h.append hran⟩

end Steps

/-! ## Operands -/

/-- `v` is known, and stands for `w`. -/
structure Denotes (locals : Locals) (v : Value) (w : Val) : Prop where
  known (name : LocalName) : v.name? = some name → name ∈ locals.map Prod.fst
  value (ρ : Valuation) : ρ.Agrees locals → ρ.value v = w

/-- Lowering a value makes no call. What it gives is what the value stands for from then on, since a
local that is known is not bound again. -/
theorem lowerValue_quiet (v : Value) : (lowerValue locals v).Quiet (Denotes locals v) := by
  cases v with
  | const ty c fits => exact .pure ⟨fun name hname => (nomatch hname), fun ρ _ => rfl⟩
  | loc ty name own =>
    rw [lowerValue]
    cases hl : locals.lookup name with
    | none => exact .fail
    | some w =>
      obtain ⟨l₁, l₂, hlocals, -⟩ := List.lookup_eq_some_iff.mp hl
      have hmem : (name, w) ∈ locals := by simp [hlocals]
      refine .pure ⟨fun n hn => ?_, fun ρ hρ => hρ _ hmem⟩
      rw [← Option.some.inj hn]
      exact List.mem_map_of_mem hmem

theorem Denotes.known_pair {v v' : Value} {w w' : Val} (h : Denotes locals v w)
    (h' : Denotes locals v' w') :
    ∀ u ∈ [v, v'], ∀ name, u.name? = some name → name ∈ locals.map Prod.fst :=
  List.forall_mem_cons.mpr ⟨h.known, List.forall_mem_singleton.mpr h'.known⟩

/-- Operands that are lowered one by one are known, and stand for what was given. -/
theorem Denotes.forall₂ {vs : List Value} {ws : List Val}
    (h : List.Forall₂ (Denotes locals) vs ws) :
    (∀ v ∈ vs, ∀ name, v.name? = some name → name ∈ locals.map Prod.fst) ∧
      ∀ ρ : Valuation, ρ.Agrees locals → vs.map ρ.value = ws := by
  induction h with
  | nil => exact ⟨fun v hv => (nomatch hv), fun ρ _ => rfl⟩
  | cons hv _ ih =>
    refine ⟨List.forall_mem_cons.mpr ⟨hv.known, ih.1⟩, fun ρ hρ => ?_⟩
    rw [List.map_cons, hv.value ρ hρ, ih.2 ρ hρ]

namespace Site

theorem block_eq {label : Label} (h : label ∈ site.labels) :
    site.block label = pure ⟨site.function, label⟩ := if_pos h

theorem block_quiet (label : Label) :
    (site.block label).Quiet fun b => b = ⟨site.function, label⟩ := by
  unfold Site.block
  split
  · exact .pure rfl
  · exact .fail

/-! ## Instructions -/

/-- One call builds the operation. Before a shift of a narrow value, one more cuts the amount to the
width of that value. -/
theorem lowerBinary_emits {op : BinOp} {lhs rhs : Value} (h : op.Admits lhs.ty rhs.ty) :
    (site.lowerBinary locals op lhs rhs).Emits (fun result calls =>
      (∀ v ∈ [lhs, rhs], ∀ name, v.name? = some name → name ∈ locals.map Prod.fst) ∧
        ∀ ρ : Valuation, ρ.Agrees locals →
          InstrCalls site.builder ρ (.binary op lhs rhs) calls result) (· = []) := by
  have hperforms := performs_binaryOpcode h
  refine (lowerValue_quiet lhs).bind (fun l hl => (lowerValue_quiet rhs).bind (fun r hr => ?_) rfl)
    rfl
  have hknown := hl.known_pair hr
  -- only the amount of a shift can be wider than the value on the left, and it is a `u64`
  have hshift : op.isShift = true → rhs.ty = .u64 := fun hs => by
    rw [(BinOp.admits_iff.mp h).2, if_pos hs]
  split
  · rename_i hnarrow
    rw [Bool.and_eq_true, decide_eq_true_iff] at hnarrow
    obtain ⟨hs, hwidth⟩ := hnarrow
    rw [hshift hs] at hwidth
    refine Emits.bind (Emits.build (fun _ => rfl) fun _ => rfl) (fun amount calls hcalls => ?_)
      fun _ h => h
    refine Emits.build (fun _ => rfl) fun result => ⟨hknown, fun ρ hρ => ?_⟩
    rw [← hcalls, ← hl.value ρ hρ, ← hr.value ρ hρ]
    exact .shift hperforms hs hwidth
  · rename_i hwide
    refine Emits.build (fun _ => rfl) fun result => ⟨hknown, fun ρ hρ => ?_⟩
    rw [← hl.value ρ hρ, ← hr.value ρ hρ]
    refine .binary hperforms fun hs => ?_
    rw [hs, hshift hs, Bool.true_and, decide_eq_true_iff, Nat.not_lt] at hwide
    exact Nat.le_antisymm (by cases lhs.ty <;> decide) hwide

/-- An instruction that is well typed is built by its calls (`InstrCalls`), with operands that are
known already. If one of them is not, no call has been made yet. The values of a phi are not looked
at here. -/
theorem lowerInstr_emits {i : Instr} {t : TypedSSA.Ty} (h : i.HasType t)
    (hcall : ∀ call, i.callee? = some call →
      site.callees.lookup call.1 = some (.ofFuncType call.2)) :
    (site.lowerInstr locals i).Emits (fun result calls =>
      (∀ v ∈ (if i.isPhi then [] else i.operands), ∀ name, v.name? = some name →
        name ∈ locals.map Prod.fst) ∧
        ∀ ρ : Valuation, ρ.Agrees locals → InstrCalls site.builder ρ i calls result)
      (· = []) := by
  cases h with
  | binary admits => exact lowerBinary_emits admits
  | @cast op value target admits =>
    refine (lowerValue_quiet value).bind (fun v hv => ?_) rfl
    refine Emits.build (fun _ => rfl) fun result => ⟨?_, fun ρ hρ => ?_⟩
    · exact List.forall_mem_singleton.mpr hv.known
    · rw [← hv.value ρ hρ]
      exact .cast (performs_castOpcode admits)
  | @cmp predicate lhs rhs same =>
    refine (lowerValue_quiet lhs).bind (fun l hl => (lowerValue_quiet rhs).bind (fun r hr => ?_)
      rfl) rfl
    have hknown := hl.known_pair hr
    split
    · rename_i hfloat
      refine Emits.build (fun _ => rfl) fun result => ⟨hknown, fun ρ hρ => ?_⟩
      rw [← hl.value ρ hρ, ← hr.value ρ hρ]
      exact .fcmp hfloat (decides_realPredicate predicate)
    · rename_i hfloat
      rw [Bool.not_eq_true] at hfloat
      refine Emits.build (fun _ => rfl) fun result => ⟨hknown, fun ρ hρ => ?_⟩
      rw [← hl.value ρ hρ, ← hr.value ρ hρ]
      exact .icmp hfloat (decides_intPredicate predicate hfloat)
  | @select condition ifTrue ifFalse bool same =>
    refine (lowerValue_quiet condition).bind (fun c hc => (lowerValue_quiet ifTrue).bind
      (fun t ht => (lowerValue_quiet ifFalse).bind (fun e he => ?_) rfl) rfl) rfl
    refine Emits.build (fun _ => rfl) fun result => ⟨?_, fun ρ hρ => ?_⟩
    · exact List.forall_mem_cons.mpr ⟨hc.known, ht.known_pair he⟩
    · rw [← hc.value ρ hρ, ← ht.value ρ hρ, ← he.value ρ hρ]
      exact .select
  | phi nonempty same =>
    exact Emits.build (fun _ => rfl) fun result => ⟨fun v hv => (nomatch hv), fun ρ _ => .phi⟩
  | @call callee type args attributes args_eq =>
    have hlookup : site.callees.lookup callee = some (.ofFuncType type) := hcall _ rfl
    rw [lowerInstr, hlookup]
    refine (Quiet.mapM (Denotes locals) fun v _ => lowerValue_quiet v).bind (fun ws hws => ?_) rfl
    obtain ⟨hknown, hvalues⟩ := Denotes.forall₂ hws
    refine Emits.bind (Emits.build (fun _ => rfl) fun _ => rfl) (fun result calls hcalls => ?_)
      fun _ h => h
    rw [← hcalls]
    have hattributes : Emits (attributes.forM fun a =>
        liftM (Emit.call (.addCallSiteAttribute result (enumAttribute a))))
        (fun _ calls => calls =
          attributes.map fun a => .addCallSiteAttribute result (enumAttribute a))
        fun _ => False :=
      Emits.forM_map _ fun done a rest _ => Emits.call rfl rfl
    refine hattributes.bind (fun _ more hmore => ?_) fun _ h => h.elim
    refine Emits.pure ⟨hknown, fun ρ hρ => ?_⟩
    rw [hmore, List.append_nil, List.singleton_append, ← hvalues ρ hρ]
    exact .call

/-- The phis that are still to be given their values. -/
def pending (ρ : Valuation) {k : Nat} (block : Fin k)
    (phis : List (LocalName × List (Value × Label))) : List (PendingPhi k) :=
  phis.map fun p => ⟨ρ p.1, block, p.2⟩

/-- Only what has a result is bound, and so a phi is. -/
theorem lowerBody_cons {n : Named} (h : n.instr.HasType n.resultType) {k : Nat} (block : Fin k)
    (body : List Named) :
    site.lowerBody block (n :: body) locals = (do
      let v ← site.lowerInstr locals n.instr
      let r ← site.lowerBody block body (n.name?.toList.map (fun name => (name, v)) ++ locals)
      pure (r.1, (n.phi?.toList.map fun p => ⟨v, block, p.2⟩) ++ r.2)) := by
  cases n with
  | bind name ty i => cases i <;> rfl
  | discard i =>
    cases i with
    | phi ty incoming => cases h
    | _ => rfl

theorem name?_of_phi? {n : Named} {p : LocalName × List (Value × Label)} (h : n.phi? = some p) :
    n.name? = some p.1 := by
  unfold Named.phi? at h
  split at h
  · cases h
    rfl
  · cases h

/-- By induction on the body: an instruction is built from the locals known so far, and its result
is known to the rest. Phis are put aside, with the value that stands for each. -/
theorem lowerBody_emits {body : List Named} (htyped : ∀ n ∈ body, n.instr.HasType n.resultType)
    (hcalls : ∀ n ∈ body, ∀ call, n.instr.callee? = some call →
      site.callees.lookup call.1 = some (.ofFuncType call.2)) {k : Nat} (block : Fin k) :
    (site.lowerBody block body locals).Emits (fun r calls => ∃ new, r.1 = new ++ locals ∧
      Ran f site.builder locals (body.map .instr) new calls ∧
      ∀ ρ : Valuation, ρ.Agrees r.1 → r.2 = pending ρ block (body.filterMap Named.phi?))
      (Progress f site.builder locals (body.map .instr)) := by
  induction body generalizing locals with
  | nil => exact Emits.pure ⟨[], rfl, .nil, fun _ _ => rfl⟩
  | cons n body ih =>
    rw [List.forall_mem_cons] at htyped hcalls
    rw [lowerBody_cons htyped.1]
    refine Emits.bind (lowerInstr_emits htyped.1 hcalls.1) (fun v calls hhead => ?_)
      fun calls h => h ▸ .nil
    obtain ⟨hreads, hinstr⟩ := hhead
    have hran : Ran f site.builder locals [.instr n]
        (n.name?.toList.map fun name => (name, v)) calls := by
      refine ⟨?_, fun ρ hρ => ?_⟩
      · cases hn : n.name? <;> simp [Step.name?, hn]
      · have hname : ∀ name, n.name? = some name → ρ name = v := fun name hname =>
          hρ (name, v) (List.mem_append_left _ (by simp [hname]))
        exact .single hreads (.instr (hinstr ρ hρ.of_append) hname)
    refine Emits.bind (ih htyped.2 hcalls.2) (fun r more hr => ?_) fun more h => hran.progress h
    obtain ⟨new, hlocals, hrest, hphis⟩ := hr
    refine Emits.pure ⟨new ++ n.name?.toList.map fun name => (name, v), ?_, ?_, fun ρ hρ => ?_⟩
    · rw [hlocals, List.append_assoc]
    · rw [List.append_nil]
      exact hran.append hrest
    · rw [hphis ρ hρ, List.filterMap_cons]
      cases hp : n.phi? with
      | none => rfl
      | some p =>
        have hv : ρ p.1 = v := by
          refine hρ (p.1, v) ?_
          rw [hlocals, name?_of_phi? hp]
          simp
        simp [pending, hv]

/-! ## Blocks -/

/-- The blocks of all cases are known, so adding them cannot fail. -/
theorem addCases_emits (ty : Scalar) {cases : List (Const × Label)}
    (hlabels : ∀ c ∈ cases, c.2 ∈ site.labels) :
    Emits (cases.forM fun c => do
        let b ← site.block c.2
        liftM (Emit.call (.addCase (constVal ty c.1) b)))
      (fun _ calls => calls = cases.map fun c => .addCase (constVal ty c.1) ⟨site.function, c.2⟩)
      fun _ => False := by
  refine Emits.forM_map _ fun done c rest hl => ?_
  rw [block_eq (hlabels c (by simp [hl])), pure_bind]
  exact Emits.call rfl rfl

/-- A terminator is built by its calls if its operands are known. If one is not, no call has been
made yet. -/
theorem lowerTerminator_emits {t : Terminator}
    (hlabels : ∀ label ∈ t.successors, label ∈ site.labels) :
    (site.lowerTerminator locals t).Emits (fun _ calls =>
      (∀ v ∈ t.operands, ∀ name, v.name? = some name → name ∈ locals.map Prod.fst) ∧
        ∀ ρ : Valuation, ρ.Agrees locals →
          calls = terminatorCalls site.function site.builder ρ t) (· = []) := by
  cases t with
  | ret => exact Emits.finish rfl ⟨fun v hv => (List.not_mem_nil hv).elim, fun ρ _ => rfl⟩
  | retVal value =>
    refine (lowerValue_quiet value).bind (fun v hv => ?_) rfl
    refine Emits.finish rfl ⟨List.forall_mem_singleton.mpr hv.known, fun ρ hρ => ?_⟩
    rw [terminatorCalls, hv.value ρ hρ]
  | br target =>
    rw [lowerTerminator, block_eq (hlabels target (by simp [Terminator.successors])), pure_bind]
    exact Emits.finish rfl ⟨fun v hv => (List.not_mem_nil hv).elim, fun ρ _ => rfl⟩
  | condBr condition ifTrue ifFalse =>
    refine (lowerValue_quiet condition).bind (fun v hv => ?_) rfl
    rw [block_eq (hlabels ifTrue (by simp [Terminator.successors])), pure_bind,
      block_eq (hlabels ifFalse (by simp [Terminator.successors])), pure_bind]
    refine Emits.finish rfl ⟨List.forall_mem_singleton.mpr hv.known, fun ρ hρ => ?_⟩
    rw [terminatorCalls, hv.value ρ hρ]
  | switch scrutinee default cases =>
    refine (lowerValue_quiet scrutinee).bind (fun v hv => ?_) rfl
    rw [block_eq (hlabels default (by simp [Terminator.successors])), pure_bind]
    have hswitch : (site.finish (.switch v ⟨site.function, default⟩ cases.length)).Emits
        (fun _ calls => calls =
          [.build site.builder (.switch v ⟨site.function, default⟩ cases.length)]) (· = []) :=
      Emits.finish rfl rfl
    refine hswitch.bind (fun _ calls hcalls => ?_) fun _ h => h
    refine Emits.imp (addCases_emits scrutinee.ty fun c hc =>
      hlabels c.2 (List.mem_cons_of_mem _ (List.mem_map_of_mem hc))) (fun _ more hmore => ?_)
      fun _ h => h.elim
    refine ⟨List.forall_mem_singleton.mpr hv.known, fun ρ hρ => ?_⟩
    rw [hcalls, hmore, terminatorCalls, hv.value ρ hρ]
    rfl

end Site

/-- What lowering relies on: the function is finished, and `callees` has what it calls. -/
structure Lowerable (callees : List (Label × FuncType)) (f : Func) : Prop where
  sound : f.Sound
  typed : f.Typed
  calls (call : Label × TypedSSA.FuncType) : call ∈ f.calls →
    callees.lookup call.1 = some (.ofFuncType call.2)

/-- Where the body of a function is lowered. -/
abbrev siteOf (f : Func) (builder : Nat) (callees : List (Label × FuncType)) : Site :=
  ⟨f.label, builder, f.blocks.map Block.label, callees⟩

section Functions

variable {callees : List (Label × FuncType)}

/-- A block is entered, its instructions are built, and its terminator. Where it stops, the steps up
to there have been done. -/
theorem lowerBlock_emits (hf : Lowerable callees f) (i : Fin f.blocks.length) :
    ((siteOf f builder callees).lowerBlock i (f.blocks.get i) locals).Emits
      (fun r calls => ∃ new, r.1 = new ++ locals ∧
        Ran f builder locals (f.blocks.get i).steps new calls ∧
        ∀ ρ : Valuation, ρ.Agrees r.1 → r.2 = Site.pending ρ i (f.blocks.get i).phis)
      (Progress f builder locals (f.blocks.get i).steps) := by
  have hb := List.get_mem f.blocks i
  generalize f.blocks.get i = b at hb ⊢
  obtain ⟨scope, hw⟩ := hf.sound.wellFormed
  have hcalls : ∀ n ∈ b.body, ∀ call, n.instr.callee? = some call →
      callees.lookup call.1 = some (.ofFuncType call.2) := fun n hn call hc =>
    hf.calls call (List.mem_flatMap.mpr ⟨b, hb, List.mem_filterMap.mpr ⟨n, hn, hc⟩⟩)
  have hlabels : ∀ label ∈ b.terminator.successors, label ∈ f.blocks.map Block.label := by
    intro label hl
    obtain ⟨target, ht, rfl⟩ := hw.labels b hb label (Block.mem_mentions_iff.mpr (.inr hl))
    exact List.mem_map_of_mem ht
  have hposition : ((siteOf f builder callees).finish (.positionAtEnd ⟨f.label, b.label⟩)).Emits
      (fun _ calls => Ran f builder locals [.enter b.label] [] calls) (· = []) :=
    Emits.finish rfl (.single rfl (fun v hv => nomatch hv) fun ρ _ => .enter b.label)
  rw [Site.lowerBlock, Site.block_eq (List.mem_map_of_mem hb), pure_bind]
  refine hposition.bind (fun _ first henter => ?_) fun _ h => h ▸ .nil
  refine Emits.bind (Site.lowerBody_emits (hf.typed.instrs b hb) hcalls i) (fun r calls hr => ?_)
    fun calls h => henter.progress (h.append_right _)
  obtain ⟨new, hlocals, hbody, hphis⟩ := hr
  have hran : Ran f builder locals (.enter b.label :: b.body.map .instr) new (first ++ calls) := by
    simpa using henter.append hbody
  refine Emits.bind (Site.lowerTerminator_emits hlabels) (fun _ last hlast => ?_) fun last h => ?_
  · have hleave : Ran f builder (new ++ locals) [.leave b.terminator] [] last := by
      rw [← hlocals]
      refine .single rfl hlast.1 fun ρ hρ => ?_
      rw [hlast.2 ρ hρ]
      exact .leave b.terminator
    refine Emits.pure ⟨new, hlocals, ?_, hphis⟩
    rw [List.append_nil, ← List.append_assoc]
    exact hran.append hleave
  · rw [h, List.append_nil]
    exact ⟨_, new, List.prefix_append (Step.enter b.label :: b.body.map Step.instr) _, hran⟩

/-- By induction on the order. Every block starts from the locals of those before it, and the phis
of all of them are left for the end. -/
theorem lowerBlocks_emits (hf : Lowerable callees f) (order : List (Fin f.blocks.length)) :
    ((siteOf f builder callees).lowerBlocks f.blocks order locals).Emits
      (fun r calls => ∃ new, r.1 = new ++ locals ∧
        Ran f builder locals ((order.map f.blocks.get).flatMap Block.steps) new calls ∧
        ∀ ρ : Valuation, ρ.Agrees r.1 →
          r.2 = order.flatMap fun i => Site.pending ρ i (f.blocks.get i).phis)
      (Progress f builder locals ((order.map f.blocks.get).flatMap Block.steps)) := by
  induction order generalizing locals with
  | nil => exact Emits.pure ⟨[], rfl, .nil, fun _ _ => rfl⟩
  | cons i order ih =>
    refine Emits.bind (lowerBlock_emits hf i) (fun here calls hhere => ?_)
      fun calls h => h.append_right _
    obtain ⟨new, hlocals, hran, hphis⟩ := hhere
    refine Emits.bind (@ih here.1) (fun later more hlater => ?_) fun more h =>
      hran.progress (hlocals ▸ h)
    obtain ⟨new', hlocals', hran', hphis'⟩ := hlater
    refine Emits.pure ⟨new' ++ new, ?_, ?_, fun ρ hρ => ?_⟩
    · rw [hlocals', hlocals, List.append_assoc]
    · rw [List.append_nil, List.map_cons, List.flatMap_cons]
      exact hran.append (hlocals ▸ hran')
    · have hhere : ρ.Agrees here.1 := Valuation.Agrees.of_append (hlocals' ▸ hρ)
      rw [hphis ρ hhere, hphis' ρ hρ, List.flatMap_cons]

/-- The predecessors that a label names are as many as the edges that come from there. -/
theorem length_filter_pred {blocks : List Block} (hlabels : (blocks.map Block.label).Nodup)
    (i : Fin blocks.length) (label : Label) :
    (((Cfg.ofBlocks blocks).pred i).filter fun j => some j = blockIndex? blocks label).length =
      edges blocks label (blocks.get i).label := by
  have hcount : ∀ a : Fin blocks.length, (((flowGraph blocks).succ a).filter (· = i)).length =
      (blocks.get a).terminator.successors.count (blocks.get i).label := by
    intro a
    rw [flowGraph, Flow.Graph.succ_ofFn, ← List.countP_eq_length_filter, List.countP_filterMap,
      List.count]
    refine List.countP_congr fun l _ => ?_
    rw [beq_iff_eq, @eq_comm _ l, ← blockIndex?_eq_some_iff hlabels]
    cases blockIndex? blocks l <;> simp
  have hterm : ∀ a : Fin blocks.length,
      (((((flowGraph blocks).succ a).filter (· = i)).map fun _ => a).filter
        fun j => some j = blockIndex? blocks label).length =
      (if (blocks.get a).label = label then (blocks.get a).terminator.successors else []).count
        (blocks.get i).label := by
    intro a
    by_cases hl : (blocks.get a).label = label
    · have hidx := (blockIndex?_eq_some_iff hlabels).mpr hl
      rw [if_pos hl, ← hcount a, List.filter_eq_self.mpr, List.length_map]
      intro j hj
      obtain ⟨-, -, rfl⟩ := List.mem_map.mp hj
      simp [hidx]
    · have hidx : blockIndex? blocks label ≠ some a := fun h => hl (label_of_blockIndex? h)
      rw [if_neg hl, List.count_nil, List.length_eq_zero_iff, List.filter_eq_nil_iff]
      intro j hj
      obtain ⟨-, -, rfl⟩ := List.mem_map.mp hj
      simpa using Ne.symm hidx
  have hmap : ∀ g : Block → Nat,
      blocks.map g = (List.finRange blocks.length).map (g ∘ blocks.get) :=
    fun g => by rw [← List.map_map, List.map_get_finRange]
  rw [Cfg.ofBlocks, Cfg.pred_ofGraph, Flow.Graph.pred, List.filter_flatMap, List.length_flatMap,
    edges, List.count_flatMap, hmap]
  exact congrArg List.sum (List.map_congr_left fun a _ => hterm a)

/-- What is added to a phi for the values that are to arrive. -/
theorem Denotes.flatten {function : Label} {target : Label} {blocks : List Block}
    {incoming : List (Value × Label)} {entries : List (List (Val × BlockRef))}
    (h : List.Forall₂ (fun p entry => ∃ w, Denotes locals p.1 w ∧
      entry = List.replicate (edges blocks p.2 target) (w, ⟨function, p.2⟩)) incoming entries) :
    (∀ v ∈ incoming.map (·.1), ∀ name, v.name? = some name → name ∈ locals.map Prod.fst) ∧
      ∀ ρ : Valuation, ρ.Agrees locals → entries.flatten = incoming.flatMap fun p =>
        List.replicate (edges blocks p.2 target) (ρ.value p.1, ⟨function, p.2⟩) := by
  induction h with
  | nil => exact ⟨fun v hv => (nomatch hv), fun ρ _ => rfl⟩
  | cons hp _ ih =>
    obtain ⟨w, hw, rfl⟩ := hp
    refine ⟨List.forall_mem_cons.mpr ⟨hw.known, ih.1⟩, fun ρ hρ => ?_⟩
    rw [List.flatten_cons, List.flatMap_cons, hw.value ρ hρ, ih.2 ρ hρ]

/-- A phi gets one value for each edge that leads to its block, taken from the pair with the label
of the block that the edge comes from. All of them go into one call, so there is none if one is not
known. -/
theorem resolvePhi_emits (hf : f.Sound) {ρ : Valuation} (hρ : ρ.Agrees locals)
    (i : Fin f.blocks.length) (name : LocalName) (incoming : List (Value × Label)) :
    ((siteOf f builder callees).resolvePhi f.blocks (Cfg.ofBlocks f.blocks) locals
      ⟨ρ name, i, incoming⟩).Emits
      (fun _ calls => Lowered f builder ρ (locals.map Prod.fst)
        [.merge (f.blocks.get i).label name incoming] calls) (· = []) := by
  refine Quiet.bind (Quiet.mapM (fun p entry => ∃ w, Denotes locals p.1 w ∧
    entry = List.replicate (edges f.blocks p.2 (f.blocks.get i).label) (w, ⟨f.label, p.2⟩))
    fun p _ => ?_) (fun entries hentries => ?_) rfl
  · refine (lowerValue_quiet p.1).bind (fun w hw => (Site.block_quiet p.2).bind (fun b hb => ?_)
      rfl) rfl
    refine Quiet.pure ⟨w, hw, ?_⟩
    rw [List.map_const', length_filter_pred hf.distinct.labels, hb]
  · obtain ⟨hknown, hvalues⟩ := Denotes.flatten hentries
    refine Emits.call rfl ?_
    rw [hvalues ρ hρ]
    exact .single hknown (.merge _ name incoming)

/-- The phis of blocks in this order, each with its block. -/
def phisAlong (f : Func) (order : List (Fin f.blocks.length)) :
    List (Fin f.blocks.length × LocalName × List (Value × Label)) :=
  order.flatMap fun i => (f.blocks.get i).phis.map (Prod.mk i)

theorem pending_phisAlong (ρ : Valuation) (order : List (Fin f.blocks.length)) :
    (order.flatMap fun i => Site.pending ρ i (f.blocks.get i).phis) =
      (phisAlong f order).map fun q => ⟨ρ q.2.1, q.1, q.2.2⟩ := by
  rw [phisAlong, List.map_flatMap]
  exact congrArg (order.flatMap ·) (funext fun i => by simp [Site.pending])

theorem merges_phisAlong (order : List (Fin f.blocks.length)) :
    (order.map f.blocks.get).flatMap Block.merges =
      (phisAlong f order).map fun q => .merge (f.blocks.get q.1).label q.2.1 q.2.2 := by
  rw [phisAlong, List.map_flatMap, List.flatMap_map]
  exact congrArg (order.flatMap ·) (funext fun i => by simp [Block.merges])

/-- The phis that were put aside are resolved in the order of their blocks, and where this stops the
ones before have been resolved. -/
theorem resolvePhis_emits (builder : Nat) (callees : List (Label × FuncType)) (hf : f.Sound)
    {ρ : Valuation} (hρ : ρ.Agrees locals) (order : List (Fin f.blocks.length)) :
    ((order.flatMap fun i => Site.pending ρ i (f.blocks.get i).phis).forM
      ((siteOf f builder callees).resolvePhi f.blocks (Cfg.ofBlocks f.blocks) locals)).Emits
      (fun _ calls => Lowered f builder ρ (locals.map Prod.fst)
        ((order.map f.blocks.get).flatMap Block.merges) calls)
      (fun calls => ∃ done, done <+: (order.map f.blocks.get).flatMap Block.merges ∧
        Lowered f builder ρ (locals.map Prod.fst) done calls) := by
  rw [pending_phisAlong, merges_phisAlong, List.forM_eq_forM, List.forM_map, ← List.forM_eq_forM]
  refine Emits.forM (fun (done : List (Fin f.blocks.length × LocalName × List (Value × Label)))
    calls => Lowered f builder ρ (locals.map Prod.fst) (done.map fun q =>
      .merge (f.blocks.get q.1).label q.2.1 q.2.2) calls) .nil
    fun done q rest calls hl hinv => ?_
  refine Emits.imp (resolvePhi_emits hf hρ q.1 q.2.1 q.2.2) (fun _ more hmore => ?_)
    fun more h => ?_
  · rw [List.map_append, List.map_singleton]
    exact hinv.append (hmore.mono (List.subset_append_right _ _))
  · rw [h, List.append_nil, hl, List.map_append]
    exact ⟨_, List.prefix_append _ _, hinv⟩

/-! ## Functions -/

/-- Every block is emitted once: those that control can get to, and then the others. -/
theorem perm_emissionOrder (f : Func) :
    ((Cfg.ofBlocks f.blocks).emissionOrder.map f.blocks.get).Perm f.blocks := by
  have hmap := (Cfg.perm_finRange_emissionOrder (flowGraph f.blocks)).map f.blocks.get
  rwa [List.map_get_finRange] at hmap

theorem names_flatMap_steps (order : List Block) :
    (order.flatMap Block.steps).filterMap Step.name? = order.flatMap Block.names := by
  rw [List.filterMap_flatMap]
  exact congrArg (order.flatMap ·) (funext Block.names_steps)

theorem map_fst_paramLocals (f : Func) : (paramLocals f).map Prod.fst = f.params.reverse := by
  have hfst : (f.params.zipIdx.map fun p => (p.1, Val.param f.label p.2)).map Prod.fst =
      f.params := by
    rw [List.map_map]
    exact List.zipIdx_map_fst 0 f.params
  exact (List.map_reverse ..).trans (congrArg List.reverse hfst)

/-- No local is bound twice on the way. -/
theorem nodup_locals (hf : f.Sound) {order : List Block} (horder : order.Perm f.blocks)
    {steps : List Step} (hsteps : steps <+: order.flatMap Block.steps) {new : Locals}
    (hnew : new.map Prod.fst = (steps.filterMap Step.name?).reverse) :
    ((new ++ paramLocals f).map Prod.fst).Nodup := by
  have hsub : (steps.filterMap Step.name?).Sublist (order.flatMap Block.names) := by
    rw [← names_flatMap_steps]
    exact hsteps.sublist.filterMap _
  have hall : (f.params ++ order.flatMap Block.names).Nodup :=
    (((horder.flatMap_right Block.names).append_left f.params).nodup_iff).mpr hf.distinct.names
  have hnames : (f.params ++ steps.filterMap Step.name?).Nodup :=
    hall.sublist ((List.Sublist.refl _).append hsub)
  rw [List.map_append, hnew, map_fst_paramLocals, ← List.reverse_append, List.nodup_reverse]
  exact hnames

theorem param_of_agrees {ρ : Valuation} (hρ : ρ.Agrees (paramLocals f)) {k : Nat}
    {name : LocalName} (h : f.params[k]? = some name) : ρ name = .param f.label k := by
  refine hρ (name, .param f.label k) ?_
  rw [paramLocals, List.mem_reverse, List.mem_map]
  exact ⟨(name, k), List.mem_zipIdx_iff_getElem?.mpr h, rfl⟩

/-- Locals are the parameters to begin with, so steps that were done from there, under values that
agree with them, are those of the body. -/
theorem traced_of_agrees {ρ : Valuation} {new : Locals} (hρ : ρ.Agrees (new ++ paramLocals f))
    {steps : List Step} {body : List Call}
    (h : Lowered f builder ρ ((paramLocals f).map Prod.fst) steps body) (appended : List Block) :
    Emission.Traced ⟨f, builder, ρ, appended, steps, body⟩ := by
  refine ⟨fun k name hk => param_of_agrees hρ.of_append hk, h.mono ?_⟩
  rw [map_fst_paramLocals]
  exact (List.reverse_perm _).subset

theorem appendBlocks_emits (context : Nat) (f : Func) :
    Emits (f.blocks.forM fun b => do
        Lower.checkText b.label
        liftM (Emit.call (.appendBasicBlock context ⟨f.label, b.label⟩)))
      (fun _ calls => calls = f.blocks.map fun b =>
        .appendBasicBlock context ⟨f.label, b.label⟩)
      (fun calls => ∃ done, done <+: f.blocks ∧
        calls = done.map fun b => .appendBasicBlock context ⟨f.label, b.label⟩) := by
  refine Emits.forM_map _ fun done b rest hl => ?_
  have hdone : done <+: f.blocks := hl ▸ List.prefix_append _ _
  exact (Quiet.checkText b.label).bind (fun _ _ => Emits.call rfl rfl)
    ⟨done, hdone, List.append_nil _⟩

/-- Lowering a function emits all that is to be emitted for it, or fails when it has emitted the
beginning. -/
theorem lowerFunc_emits (hf : Lowerable callees f) (context : Nat) :
    (lowerFunc context callees f).Emits
      (fun _ calls => ∃ e : Emission, e.func = f ∧ e.Complete ∧ calls = e.calls context)
      (fun calls => ∃ e : Emission, e.func = f ∧ e.Valid ∧ calls = e.calls context) := by
  have hperm := perm_emissionOrder f
  have hcreate : Emits (liftM (Emit.create (·.builders)
      (fun c => { c with builders := c.builders + 1 }) (.createBuilder context)))
      (fun n calls => calls = [.createBuilder context n]) fun _ => False := by
    refine Emits.create ?_ ?_ ?_
    all_goals exact fun _ => rfl
  rw [lowerFunc]
  refine hcreate.bind (fun builder first hfirst => Emits.ensuring rfl ?_) fun _ h => h.elim
  rw [hfirst]
  refine Emits.bind (appendBlocks_emits context f) (fun _ appends happends => ?_) fun calls h => ?_
  rotate_left
  · -- a label that cannot be handed over, before any code
    obtain ⟨done, hdone, hcalls⟩ := h
    have hnodup : ((([] : Locals) ++ paramLocals f).map Prod.fst).Nodup :=
      nodup_locals hf.sound hperm List.nil_prefix rfl
    have hagrees := Valuation.agrees_ofLocals hnodup
    refine ⟨⟨f, builder, _, done, [], []⟩, rfl, ⟨traced_of_agrees hagrees .nil done, hdone,
      fun h => (h rfl).elim, _, hperm, List.nil_prefix⟩, ?_⟩
    simp [Emission.calls, Emission.opening, hcalls]
  refine Emits.bind (lowerBlocks_emits hf _) (fun r calls hr => ?_) fun calls h => ?_
  rotate_left
  · -- a local that is not known
    obtain ⟨done, new, hdone, hran⟩ := h
    have hagrees := Valuation.agrees_ofLocals (nodup_locals hf.sound hperm hdone hran.names)
    refine ⟨⟨f, builder, _, f.blocks, done, calls⟩, rfl, ⟨traced_of_agrees hagrees
      (hran.lowered _ hagrees) _, List.prefix_rfl, fun _ => rfl, _, hperm,
      hdone.trans (List.prefix_append _ _)⟩, ?_⟩
    simp [Emission.calls, Emission.opening, happends]
  obtain ⟨new, hlocals, hran, hphis⟩ := hr
  have hagrees := Valuation.agrees_ofLocals
    (nodup_locals hf.sound hperm List.prefix_rfl hran.names)
  rw [← hlocals] at hagrees
  have hmerges := resolvePhis_emits builder callees hf.sound hagrees
    (Cfg.ofBlocks f.blocks).emissionOrder
  rw [← hphis _ hagrees] at hmerges
  rw [hlocals] at hagrees
  refine Emits.imp hmerges (fun _ last hlast => ?_) fun last h => ?_
  · rw [hlocals] at hlast
    refine ⟨⟨f, builder, _, f.blocks, _, calls ++ last⟩, rfl, ⟨traced_of_agrees hagrees
      (hran.lowered_append hagrees hlast) _, rfl, _, hperm, rfl⟩, ?_⟩
    simp [Emission.calls, Emission.opening, happends]
  · obtain ⟨done, hdone, hlast⟩ := h
    rw [hlocals] at hlast
    refine ⟨⟨f, builder, _, f.blocks, _, calls ++ last⟩, rfl, ⟨traced_of_agrees hagrees
      (hran.lowered_append hagrees hlast) _, List.prefix_rfl, fun _ => rfl, _, hperm,
      (List.prefix_append_right_inj _).mpr hdone⟩, ?_⟩
    simp [Emission.calls, Emission.opening, happends]

end Functions

/-! ## Modules -/

variable {m : Module}

theorem addFuncs_emits {α : Type} (module : Nat) (l : List α)
    (sig : α → Label × TypedSSA.FuncType) :
    (l.forM fun a => addFunc module (sig a).1 (sig a).2).Emits
      (fun _ calls => calls = (l.map sig).map fun p =>
        .addFunction module p.1 (FuncType.ofFuncType p.2))
      (fun calls => ∃ done, done <+: l.map sig ∧
        calls = done.map fun p => .addFunction module p.1 (FuncType.ofFuncType p.2)) := by
  rw [List.map_map]
  refine Emits.forM_map _ fun done a rest hl => ?_
  refine (Quiet.checkText _).bind (fun _ _ => Emits.call rfl rfl) ⟨done.map sig, ?_, ?_⟩
  · rw [hl, List.map_append]
    exact List.prefix_append _ _
  · rw [List.append_nil, List.map_map]

/-- Functions are lowered one after the other. Where this stops, it is in the last of those that
calls have been made for. -/
theorem lowerFuncs_emits {callees : List (Label × FuncType)} {definitions : List Func}
    (hdefs : ∀ f ∈ definitions, Lowerable callees f) (context : Nat) :
    (definitions.forM (lowerFunc context callees)).Emits
      (fun _ calls => ∃ bodies : List Emission, bodies.map Emission.func = definitions ∧
        (∀ e ∈ bodies, e.Complete) ∧ calls = bodies.flatMap (Emission.calls context))
      (fun calls => ∃ bodies : List Emission, bodies.map Emission.func <+: definitions ∧
        (∀ e ∈ bodies, e.Valid) ∧ calls = bodies.flatMap (Emission.calls context)) := by
  refine Emits.forM (fun done calls => ∃ bodies : List Emission,
    bodies.map Emission.func = done ∧ (∀ e ∈ bodies, e.Complete) ∧
      calls = bodies.flatMap (Emission.calls context)) ⟨[], rfl, fun e he => (nomatch he), rfl⟩
    fun done f rest calls hl hinv => ?_
  obtain ⟨bodies, hfuncs, hcomplete, hcalls⟩ := hinv
  refine Emits.imp (lowerFunc_emits (hdefs f (by simp [hl])) context) (fun _ more h => ?_)
    fun more h => ?_
  · obtain ⟨e, he, hthis, hmore⟩ := h
    refine ⟨bodies ++ [e], by simp [hfuncs, he], ?_, by simp [hcalls, hmore]⟩
    exact List.forall_mem_append.mpr ⟨hcomplete, List.forall_mem_singleton.mpr hthis⟩
  · obtain ⟨e, he, hthis, hmore⟩ := h
    refine ⟨bodies ++ [e], by simp [hl, hfuncs, he], ?_, by simp [hcalls, hmore]⟩
    exact List.forall_mem_append.mpr ⟨fun e he => (hcomplete e he).valid,
      List.forall_mem_singleton.mpr hthis⟩

/-- In a module of finished functions that passes validation, all functions can be lowered with the
callees that there are. -/
theorem lowerable_of_validate (hm : m.Reachable Func.Finished) (hv : m.validate = .ok ())
    {f : Func} (hf : f ∈ m.definitions) : Lowerable (callees m) f := by
  have hfinished := hm.of_mem_definitions hf
  have htable := hm.tabled
  have hcallees : callees m = m.functions.map fun p => (p.1, FuncType.ofFuncType p.2) := rfl
  refine ⟨hfinished.sound, hfinished.typed, fun call hc => ?_⟩
  have hnodup : ((callees m).map Prod.fst).Nodup := by
    rw [hcallees, List.map_map]
    exact htable.nodup
  have hmem := (htable.lookup _ _).mp (Module.lookup_of_call hv hf hc)
  rw [lookup_eq_some_iff_mem hnodup, hcallees]
  exact List.mem_map.mpr ⟨call, hmem, rfl⟩

/-- Functions are added first, the declared and then the defined ones, and then bodies are lowered.
At any point where this may stop, there is a rendering of what is done. -/
theorem lowerContent_emits (hm : m.Reachable Func.Finished) (hv : m.validate = .ok ())
    (context module : Nat) :
    Emits (do
        m.declarations.forM fun d => addFunc module d.1 d.2
        m.definitions.forM fun f => addFunc module f.label f.type
        m.definitions.forM (lowerFunc context (callees m)))
      (fun _ calls => ∃ r : Rendering, r.module = module ∧ r.Complete m ∧
        calls = r.content context)
      (fun calls => ∃ r : Rendering, r.module = module ∧ r.Valid m ∧
        calls = r.content context) := by
  have hbodies := lowerFuncs_emits (fun f hf => lowerable_of_validate hm hv hf) context
  have hdeclared : (m.declarations.map id) = m.declarations := List.map_id _
  refine Emits.bind (addFuncs_emits module m.declarations id) (fun _ declared h₁ => ?_)
    fun calls h => ?_
  rotate_left
  · obtain ⟨done, hdone, hcalls⟩ := h
    rw [hdeclared] at hdone
    refine ⟨⟨module, done, []⟩, rfl, ⟨hdone.trans (List.prefix_append _ _), fun h => (h rfl).elim,
      List.nil_prefix, fun e he => nomatch he⟩, ?_⟩
    rw [hcalls, Rendering.content, List.flatMap_nil, List.append_nil]
  rw [hdeclared] at h₁
  refine Emits.bind (addFuncs_emits module m.definitions fun f => (f.label, f.type))
    (fun _ defined h₂ => ?_) fun calls h => ?_
  rotate_left
  · obtain ⟨done, hdone, hcalls⟩ := h
    refine ⟨⟨module, m.declarations ++ done, []⟩, rfl,
      ⟨(List.prefix_append_right_inj _).mpr hdone, fun h => (h rfl).elim,
      List.nil_prefix, fun e he => nomatch he⟩, ?_⟩
    rw [h₁, hcalls, Rendering.content, List.flatMap_nil, List.append_nil, List.map_append]
  have hadded : declared ++ defined = m.functions.map fun p =>
      .addFunction module p.1 (FuncType.ofFuncType p.2) := by
    rw [h₁, h₂, Module.functions, List.map_append]
  refine Emits.imp hbodies (fun _ calls h => ?_) fun calls h => ?_
  · obtain ⟨bodies, hfuncs, hcomplete, hcalls⟩ := h
    refine ⟨⟨module, m.functions, bodies⟩, rfl, ⟨rfl, hfuncs, hcomplete⟩, ?_⟩
    rw [← List.append_assoc, hadded, hcalls, Rendering.content]
  · obtain ⟨bodies, hfuncs, hvalid, hcalls⟩ := h
    refine ⟨⟨module, m.functions, bodies⟩, rfl, ⟨List.prefix_rfl, fun _ => rfl, hfuncs, hvalid⟩, ?_⟩
    rw [← List.append_assoc, hadded, hcalls, Rendering.content]

/-- Lowering a module emits all that is to be emitted for it, or fails when it has emitted the
beginning and disposed of the LLVM module. -/
theorem lowerModule_emits (hm : m.Reachable Func.Finished) (hv : m.validate = .ok ())
    (context : Nat) :
    (lowerModule context m).Emits
      (fun module calls => ∃ r : Rendering, r.module = module ∧ r.Complete m ∧
        calls = r.calls context m)
      (fun calls => calls = [] ∨ ∃ r : Rendering, r.Valid m ∧
        calls = r.calls context m ++ [.disposeModule r.module]) := by
  have hcreate : Emits (liftM (Emit.create (·.modules)
      (fun c => { c with modules := c.modules + 1 }) (.moduleCreate m.name context)))
      (fun n calls => calls = [.moduleCreate m.name context n]) fun _ => False := by
    refine Emits.create ?_ ?_ ?_
    all_goals exact fun _ => rfl
  have hcall : ∀ c : Call, c.result? = none →
      Emits (liftM (Emit.call c)) (fun _ calls => calls = [c]) fun _ => False :=
    fun c hc => Emits.call hc rfl
  rw [lowerModule]
  refine (Quiet.checkText _).bind (fun _ _ => (Quiet.checkText _).bind (fun _ _ =>
    (Quiet.checkText _).bind (fun _ _ => ?_) (.inl rfl)) (.inl rfl)) (.inl rfl)
  refine hcreate.bind (fun module c₁ h₁ => ?_) fun _ h => h.elim
  refine (hcall _ rfl).bind (fun _ c₂ h₂ => ?_) fun _ h => h.elim
  refine (hcall _ rfl).bind (fun _ c₃ h₃ => ?_) fun _ h => h.elim
  have hcontent : Emits (Lower.onFailure (do
        m.declarations.forM fun d => addFunc module d.1 d.2
        m.definitions.forM fun f => addFunc module f.label f.type
        m.definitions.forM (lowerFunc context (callees m))) (Emit.call (.disposeModule module)))
      (fun _ calls => ∃ r : Rendering, r.module = module ∧ r.Complete m ∧
        calls = r.content context)
      (fun calls => ∃ r : Rendering, r.module = module ∧ r.Valid m ∧
        calls = r.content context ++ [.disposeModule module]) := by
    refine Emits.onFailure rfl (Emits.imp (lowerContent_emits hm hv context module)
      (fun _ _ h => h) fun calls h => ?_)
    obtain ⟨r, hr, hvalid, hcalls⟩ := h
    exact ⟨r, hr, hvalid, by rw [hcalls]⟩
  refine hcontent.bind (fun _ calls h => Emits.pure ?_) fun calls h => .inr ?_
  · obtain ⟨r, rfl, hcomplete, hcalls⟩ := h
    refine ⟨r, rfl, hcomplete, ?_⟩
    rw [h₁, h₂, h₃, hcalls, List.append_nil]
    rfl
  · obtain ⟨r, rfl, hvalid, hcalls⟩ := h
    refine ⟨r, hvalid, ?_⟩
    rw [h₁, h₂, h₃, hcalls]
    rfl

end TypedSSA.LLVM
