import TypedSSA.Proofs.LLVM.Lowering
import TypedSSA.Proofs.Module.Table

/-!
# Lowering of modules

Which modules can be lowered, of those that pass validation and whose texts can be handed to LLVM
(`LLVM.lowerModule_spec`). Labels and callees are never a problem, and neither is any block that
control can get to. But a block that it cannot get to may read a local before the place where it is
bound, which nothing forbids, and then lowering fails. `LLVM.forwardRead` is a function with such
blocks.
-/

namespace TypedSSA

/-- No text of the module has a nul in it. -/
structure Module.NulFree (m : Module) : Prop where
  name : '\x00' ∉ m.name.toList
  triple : '\x00' ∉ m.target.triple.toList
  dataLayout : '\x00' ∉ m.target.dataLayout.toList
  symbols (symbol : Label) : symbol ∈ m.symbolNames → '\x00' ∉ symbol.toList
  labels (f : Func) : f ∈ m.definitions → ∀ b ∈ f.blocks, '\x00' ∉ b.label.toList

namespace LLVM

open Lower

variable {m : Module}

/-- Every function of the module is known by the time that bodies are lowered, the one being lowered
included. -/
theorem exists_lookup_callees {symbol : Label} (h : symbol ∈ m.symbolNames) :
    ∃ type, (callees m).lookup symbol = some type := by
  have hmap : (callees m).map Prod.fst = m.symbolNames := by
    simp only [callees, Module.symbolNames, List.map_append, List.map_map]
    rfl
  rw [← Option.isSome_iff_exists, List.lookup_isSome_iff]
  rw [← hmap] at h
  obtain ⟨p, hp, rfl⟩ := List.mem_map.mp h
  exact ⟨p, hp, beq_self_eq_true _⟩

theorem addFunc_total {symbol : Label} (h : '\x00' ∉ symbol.toList) (module : Nat)
    (type : TypedSSA.FuncType) : (addFunc module symbol type).Total fun _ => True :=
  (checkText_total h).bind fun _ _ => Total.lift _

/-- The only error that lowering can end in is that of a local that some function reads late. All
other reasons to fail are ruled out one by one: texts have no nul, the functions called are those of
the symbol table, which are all added before the first body, and a body alone fails for its locals
only (`lowerFunc_spec`). -/
theorem lowerModule_spec (hm : m.Reachable Func.Finished) (hv : m.validate = .ok ())
    (hnul : m.NulFree) (context : Nat) :
    (lowerModule context m).Spec (fun name => ∃ f ∈ m.definitions, f.ReadsLate name)
      fun _ => True := by
  have hfuncs : (m.definitions.forM (lowerFunc context (callees m))).Spec
      (fun name => ∃ f ∈ m.definitions, f.ReadsLate name) fun _ => True := by
    refine Spec.forM fun f hf => lowerFunc_spec (hm.of_mem_definitions hf).sound (fun call hc => ?_)
      (hnul.labels f hf) context
    exact exists_lookup_callees (hm.tabled.mem_symbolNames_of_call hv hf hc)
  have hall : ∀ module, (do
      m.declarations.forM fun d => addFunc module d.1 d.2
      m.definitions.forM fun f => addFunc module f.label f.type
      m.definitions.forM (lowerFunc context (callees m)) : Lower Unit).Spec
      (fun name => ∃ f ∈ m.definitions, f.ReadsLate name) fun _ => True := by
    intro module
    refine (Total.forM fun d hd => addFunc_total (hnul.symbols d.1 ?_) module d.2).bind fun _ _ =>
      (Total.forM fun f hf => addFunc_total (hnul.symbols f.label ?_) module f.type).bind
        fun _ _ => hfuncs
    · exact List.mem_append_left _ (List.mem_map_of_mem hd)
    · exact List.mem_append_right _ (List.mem_map_of_mem hf)
  exact (checkText_total hnul.name).bind fun _ _ => (checkText_total hnul.triple).bind fun _ _ =>
    (checkText_total hnul.dataLayout).bind fun _ _ => Total.bind (Total.lift _) fun module _ =>
    Total.bind (Total.lift _) fun _ _ => Total.bind (Total.lift _) fun _ _ =>
    ((hall module).onFailure _).bind_total fun _ _ => Total.pure trivial

/-- A module of finished functions that passes validation is lowered unless a block that control
cannot get to reads a local that is bound later, and that is then the error. -/
theorem lowerModule_ok_iff (hm : m.Reachable Func.Finished) (hv : m.validate = .ok ())
    (hnul : m.NulFree) (context : Nat) (replies : Replies) (counters : Counters) :
    ((∃ module, ((lowerModule context m).run replies counters).value = .ok module) ↔
      ∀ f ∈ m.definitions, ∀ name, ¬ f.ReadsLate name) ∧
    ∀ e, ((lowerModule context m).run replies counters).value = .error e →
      ∃ f ∈ m.definitions, ∃ name, f.ReadsLate name ∧
        e = .llvm ("use of " ++ name.text ++ " before its definition") := by
  rcases lowerModule_spec hm hv hnul context replies counters with
    ⟨module, hok, hnone, -⟩ | ⟨name, herror, f, hf, hlate⟩
  · refine ⟨iff_of_true ⟨module, hok⟩ fun f hf name h => hnone name ⟨f, hf, h⟩, fun e he => ?_⟩
    rw [hok] at he
    cases he
  · refine ⟨iff_of_false ?_ fun h => h f hf name hlate, fun e he => ?_⟩
    · rintro ⟨module, hok⟩
      rw [hok] at herror
      cases herror
    · rw [herror] at he
      exact ⟨f, hf, name, hlate, (Except.error.inj he).symm⟩

/-- Returns at once. Of the two blocks that control cannot get to, the first reads what the second
binds. -/
def forwardRead : Func where
  label := "f"
  type := ⟨[], .void⟩
  params := []
  blocks :=
    [⟨"entry", [], .ret⟩,
      ⟨"early", [.bind (.number 0) .i32
        (.binary .add (.loc .i32 (.number 1) none) Value.one)], .ret⟩,
      ⟨"late", [.bind (.number 1) .i32
        (.binary .add Value.one Value.one)], .ret⟩]

theorem finished_forwardRead : forwardRead.Finished := by
  refine ⟨(Builder.new _ ⟨0⟩ "f").1.performAll
    [.tryTerminate .ret,
      .startBlock "early",
      .tryBind (.binary .add (.loc .i32 (.number 1) none) Value.one),
      .tryTerminate .ret,
      .startBlock "late",
      .tryBind (.binary .add Value.one Value.one),
      .tryTerminate .ret], (Builder.Reachable.new _ _).performAll _, ?_⟩
  decide +kernel

/-- No block has an edge to another, so control can get to the entry alone. What `early` reads is
bound in `late`, which comes after it. -/
theorem readsLate_forwardRead : forwardRead.ReadsLate (.number 1) := by
  have hreach : ∀ i : Fin forwardRead.blocks.length, 0 < i.val →
      ¬ (flowGraph forwardRead.blocks).Reachable i := by
    have hnone : ∀ a, (flowGraph forwardRead.blocks).succ a = [] := by decide
    rintro i hi ⟨l, hp⟩
    cases hp with
    | entry first => omega
    | step before edge =>
      rw [hnone] at edge
      cases edge
  refine ⟨by decide, ⟨1, by decide⟩, 0, .loc .i32 (.number 1) none, hreach _ (by decide),
    .inl ⟨_, rfl, rfl, by decide⟩, rfl, fun j m hbind => ?_⟩
  have hlate : BindsAt forwardRead.blocks ⟨2, by decide⟩ 0 (.number 1) := ⟨_, rfl, rfl⟩
  obtain ⟨rfl, rfl⟩ := hbind.unique finished_forwardRead.sound.distinct.names_blocks hlate
  exact ⟨hreach _ (by decide), .inl (by decide)⟩

/-- A module with `forwardRead` and no other function. -/
def forwardReadModule : Module := ((Module.new "m" ⟨"x", ""⟩).define forwardRead).2

theorem nulFree_forwardReadModule : forwardReadModule.NulFree :=
  ⟨by decide, by decide, by decide, by decide, by decide⟩

/-- It passes validation, and cannot be lowered. -/
theorem not_lowerModule_forwardRead :
    forwardReadModule.Reachable Func.Finished ∧ forwardReadModule.validate = .ok () ∧
    ∀ context replies counters, ¬ ∃ module,
      ((lowerModule context forwardReadModule).run replies counters).value = .ok module := by
  have hm : forwardReadModule.Reachable Func.Finished :=
    .define (.new _ _) forwardRead finished_forwardRead
  have hv : forwardReadModule.validate = .ok () := by decide
  refine ⟨hm, hv, fun context replies counters hok => ?_⟩
  have hiff := (lowerModule_ok_iff hm hv nulFree_forwardReadModule context replies counters).1
  exact hiff.mp hok forwardRead (by decide) (.number 1) readsLate_forwardRead

end LLVM

end TypedSSA
