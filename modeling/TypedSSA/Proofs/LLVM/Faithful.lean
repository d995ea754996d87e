import TypedSSA.Proofs.LLVM.Trace

/-!
# The calls for a module stand for the module

What can be seen of the calls when a module has been lowered (`lowerModule_faithful`): every
function is added once, every block is appended and entered once, no two instructions share a
result, no call mentions a block that is not appended, and all calls in between are those that a
`Complete` rendering of the module has. The first parts are counted in the calls themselves, which
are looked at through `Call.function?`, `Call.appended?`, `Call.entered?` and `Call.mentions`.
-/

namespace TypedSSA.LLVM

namespace Call

/-- The function that is added, with its type. -/
def function? : Call → Option (Label × FuncType)
  | addFunction _ name type => some (name, type)
  | _ => none

/-- The block that is appended. -/
def appended? : Call → Option BlockRef
  | appendBasicBlock _ block => some block
  | _ => none

/-- The block that a builder is put at the end of. -/
def entered? : Call → Option BlockRef
  | build _ (.positionAtEnd block) => some block
  | _ => none

/-- The blocks that code refers to. -/
def mentions : Call → List BlockRef
  | build _ (.positionAtEnd block) => [block]
  | build _ (.br target) => [target]
  | build _ (.condBr _ ifTrue ifFalse) => [ifTrue, ifFalse]
  | build _ (.switch _ default _) => [default]
  | addIncoming _ incoming => incoming.map Prod.snd
  | addCase _ target => [target]
  | _ => []

end Call

/-- The blocks of a function, as LLVM knows them. -/
def blockRefs (f : Func) : List BlockRef := f.blocks.map fun b => ⟨f.label, b.label⟩

theorem mem_blockRefs {f : Func} {b : Block} (hb : b ∈ f.blocks) :
    ⟨f.label, b.label⟩ ∈ blockRefs f := List.mem_map.mpr ⟨b, hb, rfl⟩

/-- The block that a step goes to. -/
def Step.label? : Step → Option Label
  | enter label => some label
  | _ => none

section Steps

variable {f : Func} {builder : Nat} {ρ : Valuation} {s : Step} {calls : List Call} {c : Call}

theorem InstrCalls.observe {i : Instr} {v : Val} (h : InstrCalls builder ρ i calls v)
    (hc : c ∈ calls) :
    c.function? = none ∧ c.appended? = none ∧ c.entered? = none ∧ c.mentions = [] := by
  cases h with
  | shift =>
    rcases List.mem_pair.mp hc with rfl | rfl
    · exact ⟨rfl, rfl, rfl, rfl⟩
    · exact ⟨rfl, rfl, rfl, rfl⟩
  | call =>
    rcases List.mem_cons.mp hc with rfl | hc
    · exact ⟨rfl, rfl, rfl, rfl⟩
    · obtain ⟨a, -, rfl⟩ := List.mem_map.mp hc
      exact ⟨rfl, rfl, rfl, rfl⟩
  | _ =>
    rw [List.mem_singleton.mp hc]
    exact ⟨rfl, rfl, rfl, rfl⟩

/-- Terminators refer to the blocks that control may go to. -/
theorem observe_terminatorCalls {function : Label} {t : Terminator}
    (hc : c ∈ terminatorCalls function builder ρ t) :
    c.function? = none ∧ c.appended? = none ∧ c.entered? = none ∧
      ∀ b ∈ c.mentions, ∃ label ∈ t.successors, b = ⟨function, label⟩ := by
  cases t with
  | switch scrutinee default cases =>
    rcases List.mem_cons.mp hc with rfl | hc
    · exact ⟨rfl, rfl, rfl, fun b hb => ⟨default, by simp [Terminator.successors],
        List.mem_singleton.mp hb⟩⟩
    · obtain ⟨p, hp, rfl⟩ := List.mem_map.mp hc
      exact ⟨rfl, rfl, rfl, fun b hb => ⟨p.2, List.mem_cons_of_mem _ (List.mem_map_of_mem hp),
        List.mem_singleton.mp hb⟩⟩
  | _ =>
    rw [List.mem_singleton.mp hc]
    refine ⟨rfl, rfl, rfl, fun b hb => ?_⟩
    simp_all [Call.mentions, Terminator.successors]

theorem StepCalls.filterMap_entered (h : StepCalls f builder ρ s calls) :
    calls.filterMap Call.entered? = s.label?.toList.map fun label => ⟨f.label, label⟩ := by
  cases h with
  | enter label => rfl
  | instr calls_eq names =>
    exact List.filterMap_eq_nil_iff.mpr fun c hc => (calls_eq.observe hc).2.2.1
  | leave t =>
    exact List.filterMap_eq_nil_iff.mpr fun c hc => (observe_terminatorCalls hc).2.2.1
  | merge target name incoming => rfl

/-- Code adds no functions and appends no blocks, and what it refers to are blocks of the
function. -/
theorem StepCalls.observe (h : StepCalls f builder ρ s calls) (hf : f.Sound) (hs : s.Of f)
    (hc : c ∈ calls) :
    c.function? = none ∧ c.appended? = none ∧ ∀ b ∈ c.mentions, b ∈ blockRefs f := by
  obtain ⟨scope, hw⟩ := hf.wellFormed
  have hmem : ∀ {b : Block} {label : Label}, b ∈ f.blocks → label ∈ b.mentions →
      ⟨f.label, label⟩ ∈ blockRefs f := by
    intro b label hb hl
    obtain ⟨target, ht, rfl⟩ := hw.labels b hb label hl
    exact mem_blockRefs ht
  cases h with
  | enter label =>
    obtain rfl := List.mem_singleton.mp hc
    refine ⟨rfl, rfl, fun b hb => ?_⟩
    rw [List.mem_singleton.mp hb]
    cases hs with
    | enter hblock => exact mem_blockRefs hblock
  | instr calls_eq names =>
    obtain ⟨h₁, h₂, -, h₄⟩ := calls_eq.observe hc
    exact ⟨h₁, h₂, fun b hb => by rw [h₄] at hb; cases hb⟩
  | leave t =>
    obtain ⟨h₁, h₂, -, h₄⟩ := observe_terminatorCalls hc
    refine ⟨h₁, h₂, fun b hb => ?_⟩
    obtain ⟨label, hl, rfl⟩ := h₄ b hb
    cases hs with
    | leave hblock => exact hmem hblock (Block.mem_mentions_iff.mpr (.inr hl))
  | merge target name incoming =>
    obtain rfl := List.mem_singleton.mp hc
    refine ⟨rfl, rfl, fun b hb => ?_⟩
    obtain ⟨e, he, rfl⟩ := List.mem_map.mp hb
    obtain ⟨p, hp, he⟩ := List.mem_flatMap.mp he
    rw [(List.mem_replicate.mp he).2]
    cases hs with
    | merge hblock hphi => exact hmem hblock (Block.mem_of_phi hphi rfl hp).2

variable {known : List LocalName} {steps : List Step}

/-- Every call belongs to one of the steps. -/
theorem Lowered.exists_step (h : Lowered f builder ρ known steps calls) (hc : c ∈ calls) :
    ∃ s ∈ steps, ∃ here, StepCalls f builder ρ s here ∧ c ∈ here := by
  induction h with
  | nil => cases hc
  | cons reads calls_eq rest ih =>
    rcases List.mem_append.mp hc with hc | hc
    · exact ⟨_, List.mem_cons_self, _, calls_eq, hc⟩
    · obtain ⟨s, hs, here, hhere⟩ := ih hc
      exact ⟨s, List.mem_cons_of_mem _ hs, here, hhere⟩

theorem Lowered.filterMap_entered (h : Lowered f builder ρ known steps calls) :
    calls.filterMap Call.entered? =
      (steps.filterMap Step.label?).map fun label => ⟨f.label, label⟩ := by
  induction h with
  | nil => rfl
  | @cons _ s _ _ _ reads calls_eq rest ih =>
    rw [List.filterMap_append, calls_eq.filterMap_entered, ih, List.filterMap_cons]
    cases s.label? <;> rfl

end Steps

theorem labels_script (order : List Block) :
    (script order).filterMap Step.label? = order.map Block.label := by
  have hsteps : ∀ b : Block, b.steps.filterMap Step.label? = [b.label] := fun b => by
    simp [Block.steps, Step.label?, Function.comp_def]
  have hmerges : ∀ b : Block, b.merges.filterMap Step.label? = [] := fun b => by
    simp [Block.merges, Step.label?, Function.comp_def]
  simp only [script, List.filterMap_append, List.filterMap_flatMap, hsteps, hmerges,
    List.map_eq_flatMap]
  rw [List.flatMap_eq_nil_iff.mpr fun _ _ => rfl, List.append_nil]

/-! ## Functions -/

namespace Emission

variable {e : Emission} {context : Nat} {c : Call}

/-- What can be seen of the calls for a function is in the blocks appended and the body. -/
theorem filterMap_calls {β : Type} {obs : Call → Option β}
    (hcreate : obs (.createBuilder context e.builder) = none)
    (hdispose : obs (.disposeBuilder e.builder) = none) :
    (e.calls context).filterMap obs =
      (e.appended.filterMap fun b => obs (.appendBasicBlock context ⟨e.func.label, b.label⟩)) ++
        e.body.filterMap obs := by
  rw [calls, opening, List.filterMap_append, List.filterMap_append,
    List.filterMap_cons_none hcreate, List.filterMap_cons_none hdispose, List.filterMap_nil,
    List.append_nil, List.filterMap_map]
  rfl

/-- The calls for a body add no functions and append no blocks, and mention blocks of the same
function only. -/
theorem Valid.observe_body (h : e.Valid) (hf : e.func.Sound) (hc : c ∈ e.body) :
    c.function? = none ∧ c.appended? = none ∧ ∀ b ∈ c.mentions, b ∈ blockRefs e.func := by
  obtain ⟨s, hs, here, hhere, hc⟩ := h.body.exists_step hc
  exact hhere.observe hf (h.of_mem_steps hs) hc

theorem Valid.filterMap_function (h : e.Valid) (hf : e.func.Sound) :
    (e.calls context).filterMap Call.function? = [] := by
  rw [filterMap_calls rfl rfl, List.append_eq_nil_iff, List.filterMap_eq_nil_iff,
    List.filterMap_eq_nil_iff]
  exact ⟨fun b _ => rfl, fun c hc => (h.observe_body hf hc).1⟩

theorem Valid.filterMap_appended (h : e.Valid) (hf : e.func.Sound) :
    (e.calls context).filterMap Call.appended? =
      e.appended.map fun b => ⟨e.func.label, b.label⟩ := by
  have hbody : e.body.filterMap Call.appended? = [] :=
    List.filterMap_eq_nil_iff.mpr fun c hc => (h.observe_body hf hc).2.1
  rw [filterMap_calls rfl rfl, hbody, List.append_nil]
  exact congrFun List.filterMap_eq_map e.appended

theorem Complete.filterMap_entered (h : e.Complete) :
    ((e.calls context).filterMap Call.entered?).Perm (blockRefs e.func) := by
  obtain ⟨order, hperm, hsteps⟩ := h.steps
  have happends : (e.appended.filterMap fun b =>
      Call.entered? (.appendBasicBlock context ⟨e.func.label, b.label⟩)) = [] :=
    List.filterMap_eq_nil_iff.mpr fun b _ => rfl
  rw [filterMap_calls rfl rfl, happends, List.nil_append,
    h.body.filterMap_entered, hsteps, labels_script, List.map_map]
  exact hperm.map _

theorem Valid.mentions (h : e.Valid) (hf : e.func.Sound) (hc : c ∈ e.calls context) {b : BlockRef}
    (hb : b ∈ c.mentions) : b ∈ blockRefs e.func := by
  simp only [calls, opening, List.mem_cons, List.mem_append, List.mem_map, List.not_mem_nil,
    or_false] at hc
  rcases hc with ((rfl | ⟨b, -, rfl⟩) | hc) | rfl
  · cases hb
  · cases hb
  · exact (h.observe_body hf hc).2.2 b hb
  · cases hb

end Emission

/-! ## Modules -/

/-- The calls for a module stand for it. -/
structure Faithful (context : Nat) (m : Module) (module : Nat) (calls : List Call) : Prop where
  /-- Each function that is declared or defined is added, at its type. -/
  functions : calls.filterMap Call.function? =
    m.functions.map fun p => (p.1, FuncType.ofFuncType p.2)
  /-- No function is added twice. -/
  functions_nodup : ((calls.filterMap Call.function?).map Prod.fst).Nodup
  /-- The blocks of each definition are appended in their order. -/
  blocks : calls.filterMap Call.appended? = m.definitions.flatMap blockRefs
  /-- No block is appended twice. -/
  blocks_nodup : (calls.filterMap Call.appended?).Nodup
  /-- The builder is put at the end of each block once. -/
  entered : (calls.filterMap Call.entered?).Perm (calls.filterMap Call.appended?)
  /-- A label stands for a block that is appended. -/
  mentions (c : Call) : c ∈ calls → ∀ b ∈ c.mentions, b ∈ calls.filterMap Call.appended?
  /-- No two calls return one value. -/
  results : (calls.filterMap Call.result?).Nodup
  /-- The calls are those of the functions and of the steps for the bodies. -/
  rendered : ∃ r : Rendering, r.module = module ∧ r.Complete m ∧ calls = r.calls context m

namespace Rendering

variable {m : Module} {r : Rendering} {context : Nat}

/-- What can be seen of the calls for a module is in the functions added and their bodies. -/
theorem filterMap_calls {β : Type} {obs : Call → Option β}
    (hcreate : obs (.moduleCreate m.name context r.module) = none)
    (htarget : obs (.setTarget r.module m.target.triple) = none)
    (hlayout : obs (.setDataLayout r.module m.target.dataLayout) = none) :
    (r.calls context m).filterMap obs =
      (r.added.filterMap fun p => obs (.addFunction r.module p.1 (.ofFuncType p.2))) ++
        r.bodies.flatMap fun e => (e.calls context).filterMap obs := by
  rw [calls, content, List.filterMap_append, List.filterMap_append, List.filterMap_flatMap,
    List.filterMap_cons_none hcreate, List.filterMap_cons_none htarget,
    List.filterMap_cons_none hlayout, List.filterMap_nil, List.nil_append, List.filterMap_map]
  rfl

theorem Valid.func_mem (h : r.Valid m) {e : Emission} (he : e ∈ r.bodies) :
    e.func ∈ m.definitions := h.bodies.subset (List.mem_map_of_mem he)

theorem Valid.filterMap_function (h : r.Valid m) (hsound : ∀ f ∈ m.definitions, f.Sound)
    (context : Nat) :
    (r.calls context m).filterMap Call.function? =
      r.added.map fun p => (p.1, FuncType.ofFuncType p.2) := by
  have hbodies : (r.bodies.flatMap fun e => (e.calls context).filterMap Call.function?) = [] :=
    List.flatMap_eq_nil_iff.mpr fun e he =>
      (h.valid e he).filterMap_function (hsound _ (h.func_mem he))
  rw [filterMap_calls rfl rfl rfl, hbodies, List.append_nil]
  exact congrFun List.filterMap_eq_map r.added

theorem Complete.filterMap_entered (h : r.Complete m) :
    ((r.calls context m).filterMap Call.entered?).Perm (m.definitions.flatMap blockRefs) := by
  have hadded : (r.added.filterMap fun p =>
      Call.entered? (.addFunction r.module p.1 (.ofFuncType p.2))) = [] :=
    List.filterMap_eq_nil_iff.mpr fun p _ => rfl
  rw [filterMap_calls rfl rfl rfl, hadded, List.nil_append, ← h.bodies, List.flatMap_map]
  exact List.Perm.flatMap_left _ fun e he => (h.complete e he).filterMap_entered

theorem Complete.filterMap_appended (h : r.Complete m) (hsound : ∀ f ∈ m.definitions, f.Sound)
    (context : Nat) :
    (r.calls context m).filterMap Call.appended? = m.definitions.flatMap blockRefs := by
  have hadded : (r.added.filterMap fun p =>
      Call.appended? (.addFunction r.module p.1 (.ofFuncType p.2))) = [] :=
    List.filterMap_eq_nil_iff.mpr fun p _ => rfl
  rw [filterMap_calls rfl rfl rfl, hadded, List.nil_append, ← h.bodies, List.flatMap_map]
  refine List.flatMap_congr fun e he => ?_
  rw [(h.complete e he).valid.filterMap_appended (hsound _ (h.valid.func_mem he)),
    (h.complete e he).appended]
  rfl

theorem Complete.mentions (h : r.Complete m) (hsound : ∀ f ∈ m.definitions, f.Sound) {c : Call}
    (hc : c ∈ r.calls context m) {b : BlockRef} (hb : b ∈ c.mentions) :
    b ∈ m.definitions.flatMap blockRefs := by
  simp only [calls, content, List.mem_append, List.mem_cons, List.not_mem_nil, or_false,
    List.mem_map, List.mem_flatMap] at hc
  rcases hc with (rfl | rfl | rfl) | ⟨p, -, rfl⟩ | ⟨e, he, hc⟩
  · cases hb
  · cases hb
  · cases hb
  · cases hb
  · have hf := h.valid.func_mem he
    exact List.mem_flatMap.mpr
      ⟨e.func, hf, (h.complete e he).valid.mentions (hsound _ hf) hc hb⟩

end Rendering

/-- No two blocks of a module have one name, since no two functions and no two blocks of a function
have. -/
theorem nodup_blockRefs {m : Module} (hm : m.Tabled) (hsound : ∀ f ∈ m.definitions, f.Sound) :
    (m.definitions.flatMap blockRefs).Nodup := by
  rw [List.nodup_flatMap]
  refine ⟨fun f hf => ?_, ?_⟩
  · have hlabels := (hsound f hf).distinct.labels
    refine List.Nodup.of_map BlockRef.label ?_
    rwa [blockRefs, List.map_map]
  · have hnames : (m.definitions.map Func.label).Nodup := by
      have hnodup := hm.nodup
      rw [Module.functions, List.map_append, List.map_map] at hnodup
      exact (List.nodup_append.mp hnodup).2.1
    refine (List.pairwise_map.mp hnames).imp fun {f g} hne b hf hg => hne ?_
    obtain ⟨_, _, rfl⟩ := List.mem_map.mp hf
    obtain ⟨_, _, he⟩ := List.mem_map.mp hg
    exact (congrArg BlockRef.function he).symm

/-- When a module of finished functions that passes validation has been lowered, the calls made
stand for the module. -/
theorem lowerModule_faithful {m : Module} (hm : m.Reachable Func.Finished)
    (hv : m.validate = .ok ()) {context module : Nat} {replies : Replies} {counters : Counters}
    (hok : ((lowerModule context m).run replies counters).value = .ok module) :
    Faithful context m module ((lowerModule context m).run replies counters).calls := by
  obtain ⟨hnumbered, hcalls, -⟩ := lowerModule_emits hm hv context replies counters
  obtain ⟨r, hmodule, hcomplete, hcalls⟩ := hcalls module hok
  have hresults := hnumbered.nodup
  rw [hcalls] at hresults ⊢
  have htable := hm.tabled
  have hsound : ∀ f ∈ m.definitions, f.Sound := fun f hf => (hm.of_mem_definitions hf).sound
  have hfunctions := hcomplete.valid.filterMap_function hsound context
  rw [hcomplete.added] at hfunctions
  have happended := hcomplete.filterMap_appended hsound context
  refine ⟨hfunctions, ?_, happended, ?_, ?_, fun c hc b hb => ?_, hresults, r, hmodule, hcomplete,
    rfl⟩
  · rw [hfunctions, List.map_map]
    exact htable.nodup
  · rw [happended]
    exact nodup_blockRefs htable hsound
  · rw [happended]
    exact hcomplete.filterMap_entered
  · rw [happended]
    exact hcomplete.mentions hsound hc hb

/-- Goes to its second block on either side of a branch, and calls a function there with what has
arrived, shifted. -/
def eitherWay : Func where
  label := "f"
  type := ⟨[.i32], .scalar .i32⟩
  params := [.number 0]
  blocks :=
    [⟨"entry", [.bind (.number 1) .bool (.cmp .eq (.loc .i32 (.number 0) none) .one)],
        .condBr (.loc .bool (.number 1) none) "join" "join"⟩,
      ⟨"join",
        [.bind (.number 2) .i32 (.phi .i32 [(.loc .i32 (.number 0) none, "entry")]),
          .bind (.number 3) .i32
            (.binary .shl (.loc .i32 (.number 2) none) (.const .u64 (.int 3) rfl)),
          .bind (.number 4) .i32
            (.call "g" ⟨[.i32], .scalar .i32⟩ [.loc .i32 (.number 3) none] [.noUnwind])],
        .retVal (.loc .i32 (.number 4) none)⟩]

theorem finished_eitherWay : eitherWay.Finished := by
  refine ⟨(Builder.new _ ⟨0⟩ "f").1.performAll
    [.tryBind (.cmp .eq (.loc .i32 (.number 0) none) .one),
      .tryTerminate (.condBr (.loc .bool (.number 1) none) "join" "join"),
      .startBlock "join",
      .tryBind (.phi .i32 [(.loc .i32 (.number 0) none, "entry")]),
      .tryBind (.binary .shl (.loc .i32 (.number 2) none) (.const .u64 (.int 3) rfl)),
      .tryBind (.call "g" ⟨[.i32], .scalar .i32⟩ [.loc .i32 (.number 3) none] [.noUnwind]),
      .tryTerminate (.retVal (.loc .i32 (.number 4) none))],
    (Builder.Reachable.new _ _).performAll _, ?_⟩
  decide +kernel

/-- A module with `eitherWay` and the function that it calls. -/
def eitherWayModule : Module :=
  (((Module.new "m" ⟨"x", ""⟩).declare "g" ⟨[.i32], .scalar .i32⟩).2.define eitherWay).2

theorem reachable_eitherWayModule : eitherWayModule.Reachable Func.Finished :=
  .define (.declare (.new _ _) _ _) eitherWay finished_eitherWay

/-- What arrives is added once for each of the two edges. -/
theorem faithful_eitherWay :
    eitherWayModule.validate = .ok () ∧
    ((lowerModule 0 eitherWayModule).run {} {}).value = .ok 0 ∧
    Faithful 0 eitherWayModule 0 ((lowerModule 0 eitherWayModule).run {} {}).calls ∧
    .addIncoming (.result 1) [(.param "f" 0, ⟨"f", "entry"⟩), (.param "f" 0, ⟨"f", "entry"⟩)] ∈
      ((lowerModule 0 eitherWayModule).run {} {}).calls := by
  have hv : eitherWayModule.validate = .ok () := by decide
  have hrun : ((lowerModule 0 eitherWayModule).run {} {}).value = .ok 0 ∧
      ((lowerModule 0 eitherWayModule).run {} {}).calls.contains
        (.addIncoming (.result 1)
          [(.param "f" 0, ⟨"f", "entry"⟩), (.param "f" 0, ⟨"f", "entry"⟩)]) = true := by
    decide +kernel
  obtain ⟨hok, hadded⟩ := hrun
  exact ⟨hv, hok, lowerModule_faithful reachable_eitherWayModule hv hok,
    List.contains_iff_mem.mp hadded⟩

end TypedSSA.LLVM
