import Mathlib.Data.List.Induction
import Mathlib.Data.List.Nodup
import TypedSSA.Proofs.LLVM.Target

/-!
# Who disposes of what

Some of the objects that LLVM creates have to be disposed of (`Resource`). Calls are `Orderly` if
each of them may be made after those before it (`Permitted`): what it creates is new, what it uses
or disposes of has been created and not disposed of yet, and a context is disposed of only when
nothing in it is left. `Holds live` is the assertion that calls have been orderly and that `live` is
what is left of all that they have created.

Each part of a compilation has a triple with it: what it holds when it starts, and what it leaves if
it succeeds and if it fails. A target that is described, a module compiled for it and the machine
code let go of again leave nothing (`Target.lifetime_holds`), so everything is disposed of exactly
once, whichever request fails (`Target.lifetime_orderly`).
-/

namespace TypedSSA

namespace LLVM

/-! ## Resources -/

/-- A kind of object that has to be disposed of. -/
inductive Kind where
  | machine
  | targetData
  | context
  | module
  | builder
  | passOptions
  | engine
deriving DecidableEq, Repr

/-- An object that has to be disposed of. -/
structure Resource where
  kind : Kind
  number : Nat
deriving DecidableEq, Repr

/-- How many objects of a kind have been created. -/
def Counters.count (c : Counters) : Kind → Nat
  | .machine => c.machines
  | .targetData => c.targetDatas
  | .context => c.contexts
  | .module => c.modules
  | .builder => c.builders
  | .passOptions => c.passOptions
  | .engine => c.engines

/-- One more object of a kind has been created. -/
def Counters.next (c : Counters) : Kind → Counters
  | .machine => { c with machines := c.machines + 1 }
  | .targetData => { c with targetDatas := c.targetDatas + 1 }
  | .context => { c with contexts := c.contexts + 1 }
  | .module => { c with modules := c.modules + 1 }
  | .builder => { c with builders := c.builders + 1 }
  | .passOptions => { c with passOptions := c.passOptions + 1 }
  | .engine => { c with engines := c.engines + 1 }

theorem Counters.count_next (c : Counters) (kind kind' : Kind) :
    (c.next kind).count kind' = c.count kind' + if kind' = kind then 1 else 0 := by
  cases kind <;> cases kind' <;> rfl

namespace Call

def created? : Call → Option Resource
  | createTargetMachine _ _ _ _ machine => some ⟨.machine, machine⟩
  | createTargetData _ data => some ⟨.targetData, data⟩
  | contextCreate context => some ⟨.context, context⟩
  | moduleCreate _ _ module => some ⟨.module, module⟩
  | createBuilder _ builder => some ⟨.builder, builder⟩
  | createPassOptions passOptions => some ⟨.passOptions, passOptions⟩
  | createEngine _ _ engine => engine.map (⟨.engine, ·⟩)
  | _ => none

/-- What a call disposes of. A module that an engine is to be created for is the engine's from then
on, and it is nobody's if none is created. -/
def disposed? : Call → Option Resource
  | disposeTargetData data => some ⟨.targetData, data⟩
  | disposeTargetMachine machine => some ⟨.machine, machine⟩
  | contextDispose context => some ⟨.context, context⟩
  | disposeModule module => some ⟨.module, module⟩
  | disposeBuilder builder => some ⟨.builder, builder⟩
  | disposePassOptions passOptions => some ⟨.passOptions, passOptions⟩
  | createEngine module _ _ => some ⟨.module, module⟩
  | disposeEngine engine => some ⟨.engine, engine⟩
  | _ => none

/-- What a call works with. -/
def used : Call → List Resource
  | createTargetData machine _ => [⟨.machine, machine⟩]
  | copyTargetData data => [⟨.targetData, data⟩]
  | moduleCreate _ context _ => [⟨.context, context⟩]
  | setTarget module _ => [⟨.module, module⟩]
  | setDataLayout module _ => [⟨.module, module⟩]
  | addFunction module _ _ => [⟨.module, module⟩]
  | createBuilder context _ => [⟨.context, context⟩]
  | appendBasicBlock context _ => [⟨.context, context⟩]
  | build builder _ => [⟨.builder, builder⟩]
  | verifyModule module => [⟨.module, module⟩]
  | runPasses module _ passOptions => [⟨.module, module⟩, ⟨.passOptions, passOptions⟩]
  | getFunctionAddress engine _ => [⟨.engine, engine⟩]
  | _ => []

/-- Works on blocks and instructions, which are part of a module. -/
def editsCode : Call → Bool
  | appendBasicBlock .. | build .. | addIncoming .. | addCallSiteAttribute .. | addCase .. => true
  | _ => false

variable {c : Call} {r : Resource}

theorem editsCode_of_created? (h : c.created? = some r) : c.editsCode = false := by
  cases c <;> first | rfl | cases h

theorem editsCode_of_disposed? (h : c.disposed? = some r) : c.editsCode = false := by
  cases c <;> first | rfl | cases h

theorem used_of_disposed? (h : c.disposed? = some r) : c.used = [] := by
  cases c <;> first | rfl | cases h

/-- Nothing is created in place of a context. -/
theorem kind_ne_context_of_created? (h : c.disposed? = some r) {new : Resource}
    (hnew : c.created? = some new) : r.kind ≠ .context := by
  cases c with
  | createEngine => cases h; simp
  | _ => cases h <;> cases hnew

end Call

def created (calls : List Call) : List Resource := calls.filterMap Call.created?

def disposed (calls : List Call) : List Resource := calls.filterMap Call.disposed?

/-- Has been created, and not been disposed of. -/
def Alive (past : List Call) (r : Resource) : Prop := r ∈ created past ∧ r ∉ disposed past

/-- Has been created in this context. An engine is in the context of its module. -/
inductive InContext (past : List Call) (context : Nat) : Resource → Prop
  | module {name : String} {module : Nat} :
    .moduleCreate name context module ∈ past → InContext past context ⟨.module, module⟩
  | builder {builder : Nat} :
    .createBuilder context builder ∈ past → InContext past context ⟨.builder, builder⟩
  | engine {module : Nat} {level : OptLevel} {engine : Nat} :
    .createEngine module level (some engine) ∈ past → InContext past context ⟨.module, module⟩ →
      InContext past context ⟨.engine, engine⟩

/-- May be called after these calls. -/
structure Permitted (past : List Call) (c : Call) : Prop where
  /-- Nothing is given out a second time, not even when it has been disposed of. -/
  fresh (r : Resource) : c.created? = some r → r ∉ created past
  /-- What a call works with has been made, and not yet been disposed of. -/
  used (r : Resource) : r ∈ c.used → Alive past r
  /-- So has what it disposes of. In particular nothing is disposed of twice. -/
  disposed (r : Resource) : c.disposed? = some r → Alive past r
  /-- Code that is edited is part of some module, so there is one. -/
  code : c.editsCode = true → ∃ module, Alive past ⟨.module, module⟩
  /-- A context goes last of all that was made in it. -/
  emptied (context : Nat) : c = .contextDispose context → ∀ r, InContext past context r →
    ¬ Alive past r

/-- Each of these calls may be made after those before it. -/
def Orderly (calls : List Call) : Prop :=
  ∀ before c after, calls = before ++ c :: after → Permitted before c

@[simp]
theorem created_concat (past : List Call) (c : Call) :
    created (past ++ [c]) = created past ++ c.created?.toList := by
  rw [created, List.filterMap_append]
  cases h : c.created? <;> simp [created, h]

@[simp]
theorem disposed_concat (past : List Call) (c : Call) :
    disposed (past ++ [c]) = disposed past ++ c.disposed?.toList := by
  rw [disposed, List.filterMap_append]
  cases h : c.disposed? <;> simp [disposed, h]

namespace Orderly

variable {past : List Call} {c : Call} {r : Resource}

theorem nil : Orderly [] := by
  intro before c after h
  cases before <;> cases h

/-- A call at the end is permitted in view of all the others, which it does not affect. -/
theorem concat_iff : Orderly (past ++ [c]) ↔ Orderly past ∧ Permitted past c := by
  constructor
  · intro h
    refine ⟨fun before d after heq => h before d (after ++ [c]) ?_, h past c [] rfl⟩
    rw [heq, List.append_assoc, List.cons_append]
  · rintro ⟨hpast, hc⟩ before d after heq
    rcases List.eq_nil_or_concat after with rfl | ⟨init, last, rfl⟩
    · obtain ⟨rfl, hd⟩ := List.append_inj' heq rfl
      cases hd
      exact hc
    · have hsplit : past ++ [c] = (before ++ d :: init) ++ [last] := by
        rw [heq, List.concat_eq_append, List.append_assoc, List.cons_append]
      exact hpast before d init (List.append_inj' hsplit rfl).1

/-- Nothing is disposed of that has not been created. -/
theorem mem_created_of_mem_disposed (h : Orderly past) (hr : r ∈ disposed past) :
    r ∈ created past := by
  induction past using List.reverseRecOn with
  | nil => cases hr
  | append_singleton past c ih =>
    obtain ⟨hpast, hc⟩ := concat_iff.mp h
    rw [created_concat]
    rw [disposed_concat, List.mem_append, Option.mem_toList] at hr
    refine List.mem_append_left _ ?_
    rcases hr with hr | hr
    · exact ih hpast hr
    · exact (hc.disposed r hr).1

/-- Nothing is disposed of twice. -/
theorem nodup_disposed (h : Orderly past) : (disposed past).Nodup := by
  induction past using List.reverseRecOn with
  | nil => exact List.nodup_nil
  | append_singleton past c ih =>
    obtain ⟨hpast, hc⟩ := concat_iff.mp h
    rw [disposed_concat]
    cases hr : c.disposed? with
    | none => simpa using ih hpast
    | some r =>
      refine List.nodup_append.mpr ⟨ih hpast, List.nodup_singleton r, fun a ha b hb => ?_⟩
      obtain rfl := List.mem_singleton.mp hb
      rintro rfl
      exact (hc.disposed a hr).2 ha

end Orderly

theorem InContext.kind_ne {past : List Call} {context : Nat} {r : Resource}
    (h : InContext past context r) : r.kind ≠ .context := by
  cases h <;> exact nofun

/-! ## What is left -/

/-- Calls have been orderly, and `live` is what is left of what they have created. -/
structure Holds (live : List Resource) (counters : Counters) (past : List Call) : Prop where
  orderly : Orderly past
  numbered (r : Resource) : r ∈ created past → r.number < counters.count r.kind
  alive (r : Resource) : Alive past r ↔ r ∈ live
  nodup : live.Nodup

namespace Holds

variable {live live' : List Resource} {counters counters' : Counters} {past : List Call} {c : Call}

theorem start (counters : Counters) : Holds [] counters [] where
  orderly := .nil
  numbered _ hr := nomatch hr
  alive _ := iff_of_false (fun h => nomatch h.1) nofun
  nodup := List.nodup_nil

/-- A call may be made that works with what is left and creates something with a number not given
yet. If it disposes of a context, nothing else may be left. -/
theorem permitted (h : Holds live counters past)
    (fresh : ∀ r, c.created? = some r → counters.count r.kind ≤ r.number)
    (used : ∀ r ∈ c.used, r ∈ live) (disposed : ∀ r, c.disposed? = some r → r ∈ live)
    (code : c.editsCode = true → ∃ module, ⟨.module, module⟩ ∈ live)
    (emptied : ∀ context, c.disposed? = some ⟨.context, context⟩ →
      ∀ r ∈ live, r = ⟨.context, context⟩) : Permitted past c where
  fresh r hr hmem := Nat.not_lt_of_le (fresh r hr) (h.numbered r hmem)
  used r hr := (h.alive r).mpr (used r hr)
  disposed r hr := (h.alive r).mpr (disposed r hr)
  code hc := (code hc).imp fun _ hm => (h.alive _).mpr hm
  emptied context hc r hin halive := by
    subst hc
    refine hin.kind_ne ?_
    rw [emptied context rfl r ((h.alive r).mp halive)]

/-- What is left after one more call. -/
theorem concat (h : Holds live counters past) (hc : Permitted past c)
    (hcount : ∀ kind, counters.count kind ≤ counters'.count kind)
    (hnew : ∀ r, c.created? = some r → r.number < counters'.count r.kind)
    (hlive : ∀ r, r ∈ live' ↔ (r ∈ live ∨ c.created? = some r) ∧ c.disposed? ≠ some r)
    (hnodup : live'.Nodup) : Holds live' counters' (past ++ [c]) where
  orderly := Orderly.concat_iff.mpr ⟨h.orderly, hc⟩
  numbered r hr := by
    rw [created_concat, List.mem_append, Option.mem_toList] at hr
    rcases hr with hr | hr
    · exact Nat.lt_of_lt_of_le (h.numbered r hr) (hcount r.kind)
    · exact hnew r hr
  alive r := by
    have hfresh : c.created? = some r → r ∉ disposed past := fun hr hmem =>
      hc.fresh r hr (h.orderly.mem_created_of_mem_disposed hmem)
    rw [hlive, ← h.alive, Alive, Alive, created_concat, disposed_concat,
      List.mem_append, List.mem_append, Option.mem_toList, Option.mem_toList, not_or]
    tauto
  nodup := hnodup

theorem mono (h : Holds live counters past)
    (hcount : ∀ kind, counters.count kind ≤ counters'.count kind) : Holds live counters' past :=
  { h with numbered := fun r hr => Nat.lt_of_lt_of_le (h.numbered r hr) (hcount r.kind) }

/-- A call that neither creates nor disposes of anything. -/
theorem use (h : Holds live counters past) (hcreated : c.created? = none)
    (hdisposed : c.disposed? = none) (used : ∀ r ∈ c.used, r ∈ live)
    (code : c.editsCode = true → ∃ module, ⟨.module, module⟩ ∈ live) :
    Holds live counters (past ++ [c]) := by
  have hc : Permitted past c := h.permitted (by simp [hcreated]) used (by simp [hdisposed]) code
    (by simp [hdisposed])
  exact h.concat hc (fun _ => Nat.le_refl _) (by simp [hcreated]) (by simp [hcreated, hdisposed])
    h.nodup

end Holds

section Rules

variable {live : List Resource}

theorem call_holds {c : Call} (hcreated : c.created? = none) (hdisposed : c.disposed? = none)
    (hcode : c.editsCode = false) (used : ∀ r ∈ c.used, r ∈ live) :
    Emit.Triple (Holds live) (Emit.call c) fun _ => Holds live :=
  .call fun _ _ h => h.use hcreated hdisposed used (by simp [hcode])

/-- A call that disposes of something. A context has to be the last. -/
theorem dispose_holds {c : Call} {kind : Kind} {n : Nat} (hcreated : c.created? = none)
    (hdisposed : c.disposed? = some ⟨kind, n⟩) (emptied : kind ≠ .context ∨ live = []) :
    Emit.Triple (Holds (⟨kind, n⟩ :: live)) (Emit.call c) fun _ => Holds live := by
  refine .call fun counters past h => ?_
  obtain ⟨hnot, hnodup⟩ := List.nodup_cons.mp h.nodup
  have hc : Permitted past c := by
    refine h.permitted (by simp [hcreated]) (by simp [Call.used_of_disposed? hdisposed])
      (by simp [hdisposed]) (by simp [Call.editsCode_of_disposed? hdisposed])
      fun context hcontext => ?_
    cases hdisposed.symm.trans hcontext
    simp [emptied.resolve_left (absurd rfl)]
  refine h.concat hc (fun _ => Nat.le_refl _) (by simp [hcreated]) (fun r' => ?_) hnodup
  have hne : r' ∈ live → ⟨kind, n⟩ ≠ r' := fun hr' heq => hnot (heq ▸ hr')
  simp only [hcreated, hdisposed, List.mem_cons, reduceCtorEq, or_false, ne_eq, Option.some.injEq]
  tauto

/-- A call for something new, which may take the place of something old. -/
theorem create_holds (kind : Kind) (old : Option Resource) {c : Nat → Call}
    (hcreated : ∀ n, (c n).created? = some ⟨kind, n⟩) (hdisposed : ∀ n, (c n).disposed? = old)
    (used : ∀ n, ∀ r ∈ (c n).used, r ∈ live) :
    Emit.Triple (Holds (old.toList ++ live)) (Emit.create (·.count kind) (·.next kind) c)
      fun n => Holds (⟨kind, n⟩ :: live) := by
  refine .create fun counters past h => ?_
  have hnew : ⟨kind, counters.count kind⟩ ∉ old.toList ++ live := fun hmem =>
    Nat.lt_irrefl _ (h.numbered _ ((h.alive _).mpr hmem).1)
  have hc : Permitted past (c (counters.count kind)) := by
    refine h.permitted (fun r hr => ?_) (fun r hr => List.mem_append_right _ (used _ r hr))
      (fun r hr => ?_) (by simp [Call.editsCode_of_created? (hcreated _)])
      fun context hcontext => ?_
    · obtain rfl := Option.some.inj ((hcreated _).symm.trans hr)
      exact Nat.le_refl _
    · exact List.mem_append_left _ (Option.mem_toList.mpr ((hdisposed _).symm.trans hr))
    · exact absurd rfl (Call.kind_ne_context_of_created? hcontext (hcreated _))
  obtain ⟨-, hnodup, hdisjoint⟩ := List.nodup_append.mp h.nodup
  refine h.concat hc (fun kind' => ?_) (fun r hr => ?_) (fun r => ?_) ?_
  · rw [Counters.count_next]
    exact Nat.le_add_right _ _
  · obtain rfl := Option.some.inj ((hcreated _).symm.trans hr)
    rw [Counters.count_next, if_pos rfl]
    exact Nat.lt_succ_self _
  · have hlive : r ∈ live → old ≠ some r := fun hr heq =>
      hdisjoint r (Option.mem_toList.mpr heq) r hr rfl
    have hother : ⟨kind, counters.count kind⟩ = r → old ≠ some r := by
      rintro rfl heq
      exact hnew (List.mem_append_left _ (Option.mem_toList.mpr heq))
    rw [hcreated, hdisposed, List.mem_cons, List.mem_append, Option.mem_toList, Option.some.injEq,
      eq_comm (a := r)]
    tauto
  · exact List.nodup_cons.mpr ⟨fun hmem => hnew (List.mem_append_right _ hmem), hnodup⟩

/-- Code is added while there are a builder to add it with and a module to add it to. -/
theorem stable_holds {builder module : Nat} (hbuilder : ⟨.builder, builder⟩ ∈ live)
    (hmodule : ⟨.module, module⟩ ∈ live) : Assertion.Stable (Holds live) builder := by
  intro counters past c results hc h
  have hcount : ∀ kind, counters.count kind ≤ { counters with results := results }.count kind :=
    fun kind => by cases kind <;> exact Nat.le_refl _
  refine Holds.mono ?_ hcount
  cases c with
  | build b instruction =>
    obtain rfl : b = builder := hc
    exact h.use rfl rfl (by simpa [Call.used] using hbuilder) fun _ => ⟨module, hmodule⟩
  | addIncoming | addCallSiteAttribute | addCase =>
    exact h.use rfl rfl (by simp [Call.used]) fun _ => ⟨module, hmodule⟩
  | _ => exact absurd hc id

end Rules

/-! ## The parts of a compilation -/

section Parts

variable {live : List Resource} {context module : Nat}

/-- A function has a builder of its own, which is disposed of when the function is lowered and also
when that fails. In between, all that is used is the builder, the context and the module. -/
theorem lowerFunc_holds (hcontext : ⟨.context, context⟩ ∈ live)
    (hmodule : ⟨.module, module⟩ ∈ live) (callees : List (Label × FuncType)) (f : Func) :
    Lower.Triple (Holds live) (lowerFunc context callees f) (fun _ => Holds live)
      fun _ => Holds live := by
  refine .bind (.lift (create_holds .builder none (fun _ => rfl) (fun _ => rfl)
    (by simpa [Call.used] using hcontext))) fun builder => ?_
  -- the builder goes whether the body could be lowered or not
  refine .ensuring (Lower.Keeps.triple ?_) (fun _ => dispose_holds rfl rfl (.inl (by decide)))
    fun _ => dispose_holds rfl rfl (.inl (by decide))
  have hstable : Assertion.Stable (Holds (⟨.builder, builder⟩ :: live)) builder :=
    stable_holds List.mem_cons_self (List.mem_cons_of_mem _ hmodule)
  refine .bind (.forM fun b => ?_) fun _ => (Site.lowerBlocks_keeps hstable _ _ _).bind fun r =>
    .forM (Site.resolvePhi_keeps hstable _ _ _)
  refine (Lower.Keeps.checkText b.label).bind fun _ => .lift (.call fun _ _ h => ?_)
  exact h.use rfl rfl (by simpa [Call.used] using hcontext)
    fun _ => ⟨module, List.mem_cons_of_mem _ hmodule⟩

theorem addFunc_keeps (hmodule : ⟨.module, module⟩ ∈ live) (symbol : Label)
    (type : TypedSSA.FuncType) : Lower.Keeps (Holds live) (addFunc module symbol type) :=
  (Lower.Keeps.checkText symbol).bind fun _ =>
    .lift (call_holds rfl rfl rfl (by simpa [Call.used] using hmodule))

/-- A module is left if it could be lowered. -/
theorem lowerModule_holds (context : Nat) (m : Module) :
    Lower.Triple (Holds [⟨.context, context⟩]) (lowerModule context m)
      (fun module => Holds [⟨.module, module⟩, ⟨.context, context⟩])
      fun _ => Holds [⟨.context, context⟩] := by
  refine .bind (.checkText fun _ _ _ h => h) fun _ => .bind (.checkText fun _ _ _ h => h) fun _ =>
    .bind (.checkText fun _ _ _ h => h) fun _ => ?_
  refine .bind (.lift (create_holds .module none (fun _ => rfl) (fun _ => rfl)
    (by simp [Call.used]))) fun module => ?_
  refine .bind (.lift (call_holds rfl rfl rfl (by simp [Call.used]))) fun _ =>
    .bind (.lift (call_holds rfl rfl rfl (by simp [Call.used]))) fun _ => ?_
  have hdispose : Emit.Triple (Holds [⟨.module, module⟩, ⟨.context, context⟩])
      (Emit.call (.disposeModule module)) fun _ => Holds [⟨.context, context⟩] :=
    dispose_holds rfl rfl (.inl (by decide))
  refine .bind (.onFailure ?_ fun _ => hdispose) fun _ => .pure fun _ _ h => h
  refine .bind (.forM fun entry _ => ?_) fun _ => .bind (.forM fun f _ => ?_) fun _ =>
    .forM fun f _ => ?_
  · exact (addFunc_keeps List.mem_cons_self entry.1 entry.2).triple
  · exact (addFunc_keeps List.mem_cons_self f.label f.type).triple
  · exact lowerFunc_holds (by simp) List.mem_cons_self (callees m) f

theorem optimize_holds (hmodule : ⟨.module, module⟩ ∈ live) (level : OptLevel) :
    Lower.Triple (Holds live) (optimize level module) (fun _ => Holds live)
      fun _ => Holds live := by
  refine .bind .replies fun r =>
    .bind (.lift (call_holds rfl rfl rfl (by simpa [Call.used] using hmodule))) fun _ =>
      .bind (.failOn fun _ _ _ h => h) fun _ => ?_
  refine .bind (.lift (create_holds .passOptions none (fun _ => rfl) (fun _ => rfl)
    (by simp [Call.used]))) fun options => ?_
  exact .bind (.lift (call_holds rfl rfl rfl (by simpa [Call.used] using hmodule))) fun _ =>
    .bind (.lift (dispose_holds rfl rfl (.inl (by decide)))) fun _ => .failOn fun _ _ _ h => h

/-- The module is gone whether there is an engine or not. -/
theorem createEngine_holds (level : OptLevel) (module : Nat) :
    Lower.Triple (Holds (⟨.module, module⟩ :: live)) (createEngine level module)
      (fun engine => Holds (⟨.engine, engine⟩ :: live)) fun _ => Holds live := by
  refine .bind .replies fun r => ?_
  cases r.engineError with
  | some message =>
    exact .bind (.lift (dispose_holds rfl rfl (.inl (by decide)))) fun _ => .throw fun _ _ h => h
  | none =>
    exact .lift (create_holds .engine (some ⟨.module, module⟩) (fun _ => rfl) (fun _ => rfl)
      (by simp [Call.used]))

theorem findAddress_holds {engine : Nat} (hengine : ⟨.engine, engine⟩ ∈ live) (f : Func) :
    Lower.Triple (Holds live) (findAddress engine f) (fun _ => Holds live)
      fun _ => Holds live := by
  refine .bind (.checkText fun _ _ _ h => h) fun _ => .bind .replies fun r =>
    .bind (.lift (call_holds rfl rfl rfl (by simpa [Call.used] using hengine))) fun _ => ?_
  split
  · exact .throw fun _ _ h => h
  · exact .pure fun _ _ h => h

theorem Jit.drop_holds (j : Jit) :
    Emit.Triple (Holds [⟨.engine, j.engine⟩, ⟨.context, j.context⟩]) j.drop fun _ => Holds [] :=
  .bind (dispose_holds rfl rfl (.inl (by decide))) fun _ => dispose_holds rfl rfl (.inr rfl)

/-- If compilation succeeds, the engine and the context are left. If it fails, at whatever point,
nothing is: each step of it that can fail comes with the cleanup that is needed there. -/
theorem compileModule_holds (level : OptLevel) (m : Module) :
    Lower.Triple (Holds []) (compileModule level m)
      (fun j => Holds [⟨.engine, j.engine⟩, ⟨.context, j.context⟩]) fun _ => Holds [] := by
  refine .bind (.lift (create_holds .context none (fun _ => rfl) (fun _ => rfl)
    (by simp [Call.used]))) fun context => ?_
  have hdispose : Emit.Triple (Holds [⟨.context, context⟩])
      (Emit.call (.contextDispose context)) fun _ => Holds [] := dispose_holds rfl rfl (.inr rfl)
  -- until there is an engine, a failure leaves the context behind, and the module if there is one
  refine .bind (.onFailure (lowerModule_holds context m) fun _ => hdispose) fun module => ?_
  refine .bind (.onFailure (optimize_holds List.mem_cons_self level) fun _ =>
    .bind (dispose_holds rfl rfl (.inl (by decide))) fun _ => hdispose) fun _ => ?_
  refine .bind (.onFailure (createEngine_holds level module) fun _ => hdispose) fun engine => ?_
  exact .bind (.onFailure (.mapM fun f _ => findAddress_holds List.mem_cons_self f) fun _ =>
    Jit.drop_holds ⟨engine, context, []⟩) fun addresses => .pure fun _ _ h => h

theorem setUp_holds : Emit.Triple (Holds live) Emit.setUp fun _ => Holds live :=
  .setUp (fun _ _ _ h => h.use rfl rfl (by simp [Call.used]) (by simp [Call.editsCode]))
    fun _ _ h => h.mono fun kind => by cases kind <;> exact Nat.le_refl _

theorem chooseMachine_holds (options : Options) :
    Emit.Triple (Holds live) (chooseMachine options) fun _ => Holds live := by
  unfold chooseMachine
  split
  · exact .pure fun _ _ h => h
  · exact .bind .replies fun r => .bind (call_holds rfl rfl rfl (by simp [Call.used])) fun _ =>
      .bind (call_holds rfl rfl rfl (by simp [Call.used])) fun _ =>
        .bind (call_holds rfl rfl rfl (by simp [Call.used])) fun _ => .pure fun _ _ h => h

/-- The data of a machine and the machine are disposed of as soon as they have been asked. -/
theorem queryDescription_holds (options : Options) :
    Lower.Triple (Holds live) (queryDescription options) (fun _ => Holds live)
      fun _ => Holds live := by
  refine .bind (.lift setUp_holds) fun _ => .bind .replies fun r =>
    .bind (.lift (chooseMachine_holds options)) fun names => ?_
  obtain ⟨triple, cpu, features⟩ := names
  refine .bind (.checkText fun _ _ _ h => h) fun _ => .bind (.checkText fun _ _ _ h => h) fun _ =>
    .bind (.checkText fun _ _ _ h => h) fun _ => ?_
  refine .bind (.lift (call_holds rfl rfl rfl (by simp [Call.used]))) fun _ =>
    .bind (.failOn fun _ _ _ h => h) fun _ => ?_
  refine .bind (.lift (create_holds .machine none (fun _ => rfl) (fun _ => rfl)
    (by simp [Call.used]))) fun machine => ?_
  refine .bind (.lift (create_holds .targetData none (fun _ => rfl) (fun _ => rfl)
    (by simp [Call.used]))) fun data => ?_
  exact .bind (.lift (call_holds rfl rfl rfl (by simp [Call.used]))) fun _ =>
    .bind (.lift (dispose_holds rfl rfl (.inl (by decide)))) fun _ =>
      .bind (.lift (dispose_holds rfl rfl (.inl (by decide)))) fun _ => .pure fun _ _ h => h

end Parts

/-! ## A whole life -/

namespace Target

variable {t : Target} {m : Module}

theorem describe_holds (t : Target) :
    Emit.Triple (Holds []) t.describe fun _ => Holds [] := by
  unfold describe
  cases t.description with
  | some d => exact .pure fun _ _ h => h
  | none =>
    refine .bind (queryDescription_holds t.options) fun d => .pure fun _ _ h => ?_
    cases d <;> exact h

/-- What a compilation leaves: what the machine code is in, if there is any. -/
def left : Except CodegenError Jit → List Resource
  | .ok j => [⟨.engine, j.engine⟩, ⟨.context, j.context⟩]
  | .error _ => []

theorem compile_holds (t : Target) (m : Module) :
    Emit.Triple (Holds []) (t.compile m) fun result => Holds (left result.1) := by
  refine .bind t.describe_holds fun described => ?_
  obtain ⟨d, t'⟩ := described
  dsimp only
  cases d.bind m.checkFor with
  | error e => exact .pure fun _ _ h => h
  | ok u =>
    refine .bind (compileModule_holds t'.options.level m) fun result => .pure fun _ _ h => ?_
    cases result <;> exact h

/-- A target is described, a module compiled for it, and the machine code let go of if there is
any. -/
def lifetime (t : Target) (m : Module) : Emit Unit := do
  let (_, t) ← t.describe
  let (outcome, _) ← t.compile m
  match outcome with
  | .ok j => j.drop
  | .error _ => pure ()

/-- Code that was compiled is dropped in the end, so nothing is left of it. -/
theorem lifetime_holds (t : Target) (m : Module) :
    Emit.Triple (Holds []) (t.lifetime m) fun _ => Holds [] := by
  refine .bind t.describe_holds fun described =>
    .bind (described.2.compile_holds m) fun result => ?_
  obtain ⟨result, t'⟩ := result
  cases result with
  | ok j => exact j.drop_holds
  | error e => exact .pure fun _ _ h => h

theorem contextCreate_mem_compileModule (level : OptLevel) (m : Module) (r : Replies)
    (c : Counters) : .contextCreate c.contexts ∈ ((compileModule level m).run r c).calls :=
  List.mem_cons_self

/-- There is a context just if the module passes the checks. -/
theorem contextCreate_mem_lifetime_iff (t : Target) (m : Module) (r : Replies) (c : Counters) :
    (∃ context, .contextCreate context ∈ (t.lifetime m r c).calls) ↔
      (t.describe r c).value.1.bind m.checkFor = .ok () := by
  have hnone : ∀ context, .contextCreate context ∉ (t.describe r c).calls := fun _ hmem =>
    t.not_ofCompilation_of_mem_describe r c hmem ⟨rfl, rfl⟩
  have hkept := t.description_describe r c
  unfold lifetime
  rw [Emit.bind_apply]
  generalize t.describe r c = described at *
  obtain ⟨⟨d, t'⟩, c', asked⟩ := described
  dsimp only at hnone hkept ⊢
  -- the target is not described again
  have hagain : t'.describe r c' = ⟨(d, t'), c', []⟩ := by
    rw [describe_of_described hkept]
    rfl
  rw [Emit.bind_apply]
  cases hcheck : d.bind m.checkFor with
  | error e =>
    rw [compile_of_error (by rw [hagain]; exact hcheck), hagain]
    simpa [Pure.pure, Emit.pure] using hnone
  | ok u =>
    rw [compile_of_ok (by rw [hagain]; exact hcheck), hagain]
    refine iff_of_true ⟨c'.contexts, List.mem_append_right _ (List.mem_append_left _ ?_)⟩ rfl
    exact contextCreate_mem_compileModule t'.options.level m r c'

/-- Whatever LLVM replies, calls are orderly and all that is created is disposed of exactly once.
There is a context just if the module is for the target and its calls agree. -/
theorem lifetime_orderly (t : Target) (m : Module) (r : Replies) (c : Counters) :
    Orderly (t.lifetime m r c).calls ∧
      (∀ x ∈ created (t.lifetime m r c).calls, (disposed (t.lifetime m r c).calls).count x = 1) ∧
      ((∃ context, .contextCreate context ∈ (t.lifetime m r c).calls) ↔
        ∃ desc, (t.describe r c).value.1 = .ok desc ∧ m.target = desc ∧ m.validate = .ok ()) := by
  have hends : Holds [] (t.lifetime m r c).counters (t.lifetime m r c).calls :=
    t.lifetime_holds m r c [] (.start c)
  refine ⟨hends.orderly, fun x hx => ?_, ?_⟩
  · refine List.count_eq_one_of_mem hends.orderly.nodup_disposed ?_
    by_contra hnot
    -- it would be left
    exact List.not_mem_nil ((hends.alive x).mp ⟨hx, hnot⟩)
  · rw [contextCreate_mem_lifetime_iff, Module.bind_checkFor_eq_ok_iff]

/-- A module with a declaration. -/
def declaring : Module := ⟨"m", ⟨"x", ""⟩, [], [("f", ⟨[], .void⟩)], [("f", ⟨[], .void⟩)]⟩

/-- Its life if it cannot be optimized. -/
def cutShort : List Call :=
  ((new ⟨.none, some "x"⟩).lifetime declaring { passesError := some "unknown pass" } {}).calls

theorem count_disposed_cutShort :
    created cutShort = [⟨.machine, 0⟩, ⟨.targetData, 0⟩, ⟨.context, 0⟩, ⟨.module, 0⟩,
      ⟨.passOptions, 0⟩] ∧ ∀ x ∈ created cutShort, (disposed cutShort).count x = 1 :=
  ⟨by decide, (lifetime_orderly _ declaring _ _).2.1⟩

end Target

end LLVM

end TypedSSA
