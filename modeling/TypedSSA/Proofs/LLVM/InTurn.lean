import TypedSSA.Proofs.Builder.Given
import TypedSSA.Proofs.LLVM.Lowering

/-!
# Bodies written in turn

In a body whose operations read no locals but parameters and what operations before them have given
(`Body.ReadsGiven`), every local is bound before it is read, in the order in which the instructions
were put into the blocks (`Builder.InTurn`). This is not the order in which control comes to them,
but it is the one in which the blocks that control cannot get to are lowered. The others come before
those, and among them dominance sees to it that nothing is read too early. So the function that such
a body becomes is lowered, whatever blocks it has (`LLVM.lowerFunc_of_readsGiven`).

The function may call what is not known, and its labels may have a nul in them. Lowering fails then,
but it does as it would otherwise until that point (`Lower.Follows`), so not for want of a local.
-/

namespace TypedSSA

theorem MissingIn.of_concat {known : List LocalName} {body : List Named} {n : Named}
    {name : LocalName} (h : MissingIn known (body ++ [n]) name) :
    MissingIn known body name ∨ n.instr.Missing (body.filterMap Named.name? ++ known) name := by
  obtain ⟨k, m, hm, hmiss⟩ := h
  rcases getElem?_concat_cases hm with ⟨hk, hm⟩ | ⟨rfl, rfl⟩
  · rw [List.take_append_of_le_length hk.le] at hmiss
    exact .inl ⟨k, m, hm, hmiss⟩
  · rw [List.take_left] at hmiss
    exact .inr hmiss

namespace Builder

variable {type : FuncType} {b : Builder type} {op : Op type}
  {r : Except Fault Answer × Builder type}

/-! ## One operation -/

theorem boundNames_eq (b : Builder type) :
    b.boundNames = b.blocks.flatMap Block.names ++
      b.current.toList.flatMap fun block => block.body.filterMap Named.name? := by
  simp only [boundNames, List.flatMap_append, List.flatMap_map]
  rfl

/-- The names bound already are those that the open block can read from. -/
theorem mem_of_bound {block : OpenBlock} (isOpen : b.current = some block) {name : LocalName}
    (h : name ∈ b.params ∨ name ∈ b.boundNames) :
    name ∈ block.body.filterMap Named.name? ++ (b.blocks.flatMap Block.names ++ b.params) := by
  rw [boundNames_eq, isOpen, Option.toList_some, List.flatMap_singleton] at h
  simp only [List.mem_append] at h ⊢
  tauto

/-- Locals are bound before they are read, in the order in which the blocks were written. -/
structure InTurn (b : Builder type) : Prop where
  closed (i : Nat) (block : Block) : b.blocks[i]? = some block → ∀ name,
    ¬ block.Missing ((b.blocks.take i).flatMap Block.names ++ b.params) name
  opened (block : OpenBlock) : b.current = some block → ∀ name,
    ¬ MissingIn (b.blocks.flatMap Block.names ++ b.params) block.body name

theorem inTurn_new (scope : Scope) (label : Label) : (new type scope label).1.InTurn := by
  refine ⟨fun i block hblock => ?_, fun block hblock name => ?_⟩
  · cases hblock
  · cases hblock
    rintro ⟨k, n, hn, -⟩
    cases hn

/-- Bodies stay in turn if an operation reads only what is bound already. -/
theorem InTurn.effect (h : b.InTurn) (he : Effect b op r)
    (hop : ∀ v ∈ op.operands, ∀ name ∈ v.name?, name ∈ b.params ∨ name ∈ b.boundNames) :
    r.2.InTurn := by
  cases he with
  | fail fault later => exact ⟨h.closed, h.opened⟩
  | label l later => exact ⟨h.closed, h.opened⟩
  | push later block n isOpen operands =>
    refine ⟨h.closed, fun block' hblock' name hmiss => ?_⟩
    obtain rfl := Option.some.inj hblock'
    rcases hmiss.of_concat with hmiss | ⟨-, v, hv, hname, hnot⟩
    · exact h.opened block isOpen name hmiss
    · exact hnot (mem_of_bound isOpen (hop v (operands ▸ hv) name hname))
  | close block t isOpen operands =>
    refine ⟨fun i closing hi name hmiss => ?_, fun block' hblock' => ?_⟩
    · rcases getElem?_concat_cases hi with ⟨hlt, hi⟩ | ⟨rfl, rfl⟩
      · rw [List.take_append_of_le_length hlt.le] at hmiss
        exact h.closed i closing hi name hmiss
      · rw [List.take_left, Block.missing_iff] at hmiss
        rcases hmiss with hmiss | ⟨v, hv, hname, hnot⟩
        · exact h.opened block isOpen name hmiss
        · exact hnot (mem_of_bound isOpen (hop v (operands ▸ hv) name hname))
    · cases hblock'
  | start label isClosed =>
    refine ⟨h.closed, fun block hblock name hmiss => ?_⟩
    obtain rfl := Option.some.inj hblock
    obtain ⟨k, n, hn, -⟩ := hmiss
    cases hn

/-! ## Runs -/

/-- What a builder has given it has bound, so bodies that read by given names are in turn. -/
theorem inTurn_of_readsGiven {body : Body} (h : body.ReadsGiven) : body.builder.InTurn := by
  refine h.induction (fun _ => inTurn_new) fun before op ih hop => ?_
  refine ih.effect (effect_perform _ op) fun v hv name hname => ?_
  have hgiven := hop v hv (Option.isSome_of_mem hname)
  rw [Option.mem_def.mp hname, before.given_eq, List.map_map] at hgiven
  obtain ⟨p, hp, heq⟩ := List.mem_map.mp hgiven
  obtain rfl : p.1 = name := Option.some.inj heq
  rw [← List.mem_append, ← before.reachable_builder.inv.map_fst_bound]
  exact List.mem_map_of_mem hp

/-- The names bound in the blocks before `i`. -/
theorem mem_names_before_iff {blocks : List Block} {i : Fin blocks.length} {name : LocalName} :
    name ∈ (blocks.take i).flatMap Block.names ↔ ∃ j < i, ∃ m, BindsAt blocks j m name := by
  simp only [List.mem_flatMap, ← mem_names_iff]
  constructor
  · rintro ⟨block, hblock, hname⟩
    obtain ⟨j, hj, rfl⟩ := List.mem_take_iff_getElem.mp hblock
    rw [Nat.lt_min] at hj
    exact ⟨⟨j, hj.2⟩, hj.1, hname⟩
  · rintro ⟨j, hj, hname⟩
    exact ⟨_, List.mem_take_iff_getElem.mpr ⟨j, Nat.lt_min.mpr ⟨hj, j.isLt⟩, rfl⟩, hname⟩

theorem Reachable.finished {f : Func} (h : b.Reachable) (hf : b.finish = .ok f) : f.Finished := by
  obtain ⟨-, rfl⟩ := h.inv.finish_eq_ok_iff.mp hf
  exact ⟨b, h, hf⟩

/-- Written in turn, no block reads a local that is bound later. -/
theorem InTurn.not_readsLate {f : Func} (h : b.InTurn) (hb : b.Reachable) (hf : b.finish = .ok f)
    (name : LocalName) : ¬ f.ReadsLate name := by
  obtain ⟨-, rfl⟩ := hb.inv.finish_eq_ok_iff.mp hf
  rintro ⟨hparam, i, k, v, -, hread, hname, hlate⟩
  refine h.closed i _ (List.getElem?_eq_getElem i.isLt) name
    ⟨k, v, hread, hname, fun hknown => ?_⟩
  rw [List.mem_append, List.mem_append] at hknown
  rcases hknown with hhere | hbefore | hknown
  · obtain ⟨m, hm, hbinds⟩ := mem_names_take_iff.mp hhere
    rcases (hlate i m hbinds).2 with hlt | ⟨-, hle⟩
    · exact lt_irrefl i hlt
    · omega
  · obtain ⟨j, hj, m, hbinds⟩ := mem_names_before_iff.mp hbefore
    rcases (hlate j m hbinds).2 with hlt | ⟨rfl, -⟩
    · exact lt_asymm hj hlt
    · exact lt_irrefl _ hj
  · exact hparam hknown

end Builder

namespace LLVM

/-- An error whose message starts with another letter is not for a local. -/
theorem llvm_ne_undefined {message : String} (h : message.toList.head? ≠ some 'u')
    (name : LocalName) : .llvm message ≠ undefined name := by
  intro heq
  rw [undefined, CodegenError.llvm.injEq] at heq
  rw [heq, String.append_assoc, String.toList_append] at h
  exact h rfl

namespace Lower

variable {α β : Type} {x y : Lower α} {post : α → Prop}

/-- Gives a result with `post`, or fails, but not for a local that is not there. -/
def Safe (x : Lower α) (post : α → Prop) : Prop :=
  ∀ replies counters,
    (∃ a, (x.run replies counters).value = .ok a ∧ post a) ∨
    ∃ e, (x.run replies counters).value = .error e ∧ ∀ name, e ≠ undefined name

/-- Runs as `y` does, or fails, but not for a local that is not there. -/
def Follows (x y : Lower α) : Prop :=
  ∀ replies counters,
    x.run replies counters = y.run replies counters ∨
    ∃ e, (x.run replies counters).value = .error e ∧ ∀ name, e ≠ undefined name

theorem run_bind (x : Lower α) (f : α → Lower β) (r : Replies) (c : Counters) :
    (x >>= f).run r c = Emit.bind x.run (ExceptT.bindCont f) r c := rfl

theorem Spec.safe {missing : LocalName → Prop} (h : x.Spec missing post)
    (hnone : ∀ name, ¬ missing name) : x.Safe post := by
  intro r c
  rcases h r c with ⟨a, ha, -, hpost⟩ | ⟨name, -, hmiss⟩
  · exact .inl ⟨a, ha, hpost⟩
  · exact (hnone name hmiss).elim

theorem Follows.safe (h : x.Follows y) (hy : y.Safe post) : x.Safe post := by
  intro r c
  rcases h r c with hrun | herror
  · rw [hrun]
    exact hy r c
  · exact .inr herror

namespace Safe

theorem imp (h : x.Safe post) {post' : α → Prop} (himp : ∀ a, post a → post' a) : x.Safe post' :=
  fun r c => (h r c).imp_left fun ha => ha.imp fun a h => ⟨h.1, himp a h.2⟩

theorem fail {message : String} (h : message.toList.head? ≠ some 'u') :
    (Lower.fail message : Lower α).Safe post :=
  fun _ _ => .inr ⟨_, rfl, llvm_ne_undefined h⟩

theorem bind {f : α → Lower β} {post' : β → Prop} (hx : x.Safe post)
    (hf : ∀ a, post a → (f a).Safe post') : (x >>= f).Safe post' := by
  intro r c
  rw [run_bind, Emit.bind]
  rcases hx r c with ⟨a, ha, hpost⟩ | ⟨e, he, hne⟩
  · simp only [ha]
    exact hf a hpost r _
  · simp only [he]
    exact .inr ⟨e, rfl, hne⟩

theorem ensuring (h : x.Safe post) (cleanup : Emit Unit) : (x.ensuring cleanup).Safe post := h

end Safe

namespace Follows

theorem refl (x : Lower α) : x.Follows x := fun _ _ => .inl rfl

theorem fail {message : String} (h : message.toList.head? ≠ some 'u') :
    (Lower.fail message : Lower α).Follows y :=
  fun _ _ => .inr ⟨_, rfl, llvm_ne_undefined h⟩

theorem bind {f g : α → Lower β} (hx : x.Follows y) (hf : ∀ a, (f a).Follows (g a)) :
    (x >>= f).Follows (y >>= g) := by
  intro r c
  rw [run_bind, run_bind, Emit.bind, Emit.bind]
  rcases hx r c with hrun | ⟨e, he, hne⟩
  · rw [hrun]
    cases (y.run r c).value with
    | error e => exact .inl rfl
    | ok a =>
      rcases hf a r (y.run r c).counters with hrun' | herror
      · refine .inl ?_
        show Emitted.mk ((f a).run r _).value ((f a).run r _).counters
          (_ ++ ((f a).run r _).calls) = _
        rw [hrun']
        rfl
      · exact .inr herror
  · simp only [he]
    exact .inr ⟨e, rfl, hne⟩

theorem ensuring (h : x.Follows y) (cleanup : Emit Unit) :
    (x.ensuring cleanup).Follows (y.ensuring cleanup) := by
  intro r c
  rcases h r c with hrun | herror
  · refine .inl ?_
    show Emit.bind x.run (fun outcome => cleanup >>= fun _ => pure outcome) r c =
      Emit.bind y.run (fun outcome => cleanup >>= fun _ => pure outcome) r c
    rw [Emit.bind, Emit.bind, hrun]
  · exact .inr herror

end Follows

end Lower

open Lower

namespace Site

variable {site : Site} {more : List (Label × FuncType)}
  (hmore : ∀ symbol type, site.callees.lookup symbol = some type → more.lookup symbol = some type)

include hmore

/-- Where more functions are known, the same instructions are built, unless a call fails. -/
theorem lowerInstr_follows (locals : Locals) (i : Instr) :
    (site.lowerInstr locals i).Follows ({ site with callees := more }.lowerInstr locals i) := by
  cases i with
  | call callee type args attributes =>
    rw [lowerInstr, lowerInstr]
    cases h : site.callees.lookup callee with
    | none =>
      have hhead : ("call to undeclared function " ++ callee).toList.head? = some 'c' := by
        rw [String.toList_append]
        rfl
      exact .fail (by rw [hhead]; decide)
    | some known =>
      simp only [hmore callee known h]
      exact .refl _
  | _ => exact .refl _

theorem lowerBody_follows {n : Nat} (block : Fin n) (body : List Named) (locals : Locals) :
    (site.lowerBody block body locals).Follows
      ({ site with callees := more }.lowerBody block body locals) := by
  induction body generalizing locals with
  | nil => exact .refl _
  | cons m body ih =>
    rw [lowerBody, lowerBody]
    exact (lowerInstr_follows hmore locals m.instr).bind fun v => (ih _).bind fun _ => .refl _

theorem lowerBlocks_follows (blocks : List Block) (order : List (Fin blocks.length))
    (locals : Locals) :
    (site.lowerBlocks blocks order locals).Follows
      ({ site with callees := more }.lowerBlocks blocks order locals) := by
  induction order generalizing locals with
  | nil => exact .refl _
  | cons i order ih =>
    rw [lowerBlocks, lowerBlocks]
    refine Follows.bind ?_ fun here => (ih here.1).bind fun _ => .refl _
    exact (Follows.refl _).bind fun _ => (Follows.refl _).bind fun _ =>
      (lowerBody_follows hmore i _ locals).bind fun _ => .refl _

end Site

theorem lowerFunc_follows {callees more : List (Label × FuncType)}
    (hmore : ∀ symbol type, callees.lookup symbol = some type → more.lookup symbol = some type)
    (context : Nat) (f : Func) :
    (lowerFunc context callees f).Follows (lowerFunc context more f) := by
  refine (Follows.refl _).bind fun builder => Follows.ensuring ((Follows.refl _).bind fun _ => ?_) _
  let site : Site := ⟨f.label, builder, f.blocks.map Block.label, callees⟩
  have hsite : ∀ symbol type, site.callees.lookup symbol = some type →
      more.lookup symbol = some type := hmore
  exact (Site.lowerBlocks_follows hsite _ _ _).bind fun _ => .refl _

/-- Once the blocks are appended, no label has a nul in it. -/
theorem appendBlocks_safe (context : Nat) (function : Label) (blocks : List Block) :
    Safe (blocks.forM fun b => do
        checkText b.label
        liftM (Emit.call (.appendBasicBlock context ⟨function, b.label⟩)))
      fun _ => ∀ b ∈ blocks, '\x00' ∉ b.label.toList := by
  induction blocks with
  | nil => exact (Total.pure (by simp)).safe fun _ h => h
  | cons b blocks ih =>
    have hcheck : (checkText b.label).Safe fun _ => '\x00' ∉ b.label.toList := by
      unfold checkText
      split
      · exact .fail (by simp [Text.quoted])
      · rename_i h
        exact (Total.pure (by simpa using h)).safe fun _ h => h
    have hfirst : Safe (do
          checkText b.label
          liftM (Emit.call (.appendBasicBlock context ⟨function, b.label⟩)))
        fun _ => '\x00' ∉ b.label.toList :=
      hcheck.bind fun _ hb => ((Total.lift _).safe fun _ h => h).imp fun _ _ => hb
    exact hfirst.bind fun _ hb => ih.imp fun _ hblocks => List.forall_mem_cons.mpr ⟨hb, hblocks⟩

/-- A function without late reads is lowered, or is not for a reason other than its locals. -/
theorem lowerFunc_safe {f : Func} (hf : f.Sound) (hlate : ∀ name, ¬ f.ReadsLate name)
    (context : Nat) (callees : List (Label × FuncType)) :
    (lowerFunc context callees f).Safe fun _ => True := by
  by_cases hnul : ∀ b ∈ f.blocks, '\x00' ∉ b.label.toList
  · -- with its own calls among the functions known, nothing is left to fail
    let own := f.calls.map fun call => (call.1, FuncType.ofFuncType call.2)
    have hown : ∀ call ∈ f.calls, ∃ type, (callees ++ own).lookup call.1 = some type := by
      intro call hcall
      rw [← Option.isSome_iff_exists, List.lookup_isSome_iff]
      exact ⟨_, List.mem_append_right _ (List.mem_map_of_mem hcall), beq_self_eq_true _⟩
    have hmore : ∀ symbol type, callees.lookup symbol = some type →
        (callees ++ own).lookup symbol = some type := by
      intro symbol type h
      rw [List.lookup_append, h, Option.some_or]
    exact (lowerFunc_follows hmore context f).safe
      ((lowerFunc_spec hf hown hnul context).safe hlate)
  · refine Safe.bind ((Total.lift _).safe fun _ h => h) fun builder _ => Safe.ensuring ?_ _
    exact (appendBlocks_safe context f.label f.blocks).bind fun _ h => (hnul h).elim

/-- A function whose operations read no locals but parameters and what operations before them have
given is never refused for a local that is read before it is bound, whatever blocks it has and
whatever functions are known. It is lowered if the functions that it calls are known and its labels
can be handed to LLVM. -/
theorem lowerFunc_of_readsGiven {body : Body} {f : Func} (hbody : body.ReadsGiven)
    (hf : body.builder.finish = .ok f)
    (context : Nat) (callees : List (Label × FuncType)) (replies : Replies) (counters : Counters) :
    (∀ name : LocalName, ((lowerFunc context callees f).run replies counters).value ≠
      .error (.llvm ("use of " ++ name.text ++ " before its definition"))) ∧
    ((∀ call ∈ f.calls, ∃ type, callees.lookup call.1 = some type) →
      (∀ b ∈ f.blocks, '\x00' ∉ b.label.toList) →
      ((lowerFunc context callees f).run replies counters).value = .ok ()) := by
  have hsound := (body.reachable_builder.finished hf).sound
  have hlate := (Builder.inTurn_of_readsGiven hbody).not_readsLate body.reachable_builder hf
  refine ⟨fun name hname => ?_, fun hcalls hnul => ?_⟩
  · rcases lowerFunc_safe hsound hlate context callees replies counters with
      ⟨a, ha, -⟩ | ⟨e, he, hne⟩
    · rw [ha] at hname
      cases hname
    · rw [he] at hname
      exact hne name (Except.error.inj hname)
  · rcases lowerFunc_spec hsound hcalls hnul context replies counters with
      ⟨a, ha, -, -⟩ | ⟨name, -, hmiss⟩
    · exact ha
    · exact (hlate name hmiss).elim

/-- Returns its argument. Control cannot get to the block `stray`, which goes to the exit all the
same, nor to the loop, which reads what `stray` and the exit bind. -/
def detour : Body where
  type := ⟨[.i32], .scalar .i32⟩
  scope := ⟨0⟩
  label := "f"
  ops :=
    let loc (k : Nat) : Typed.Operand .i32 := .name ⟨⟨0⟩, .number k⟩
    [.terminate (.br "exit"),
      .startBlock "stray",
      .bind (.select (.literal (.bool true)) (loc 0) (loc 0)),
      .bind (.cmp .lt (loc 0) (loc 1)),
      .terminate (.condBr (.name ⟨⟨0⟩, .number 2⟩) "exit" "loop"),
      .startBlock "exit",
      .tryBind (.phi .i32 [((loc 0).erase, "entry"), ((loc 1).erase, "stray")]),
      .terminate (.retVal (loc 3)),
      .startBlock "loop",
      .tryBind (.phi .i32 [((loc 1).erase, "stray"), ((loc 3).erase, "loop")]),
      .tryBind (.binary .mul (loc 4).erase (loc 3).erase),
      .terminate (.br "loop")]

/-- The function that `detour` makes. -/
def detourFunc : Func where
  label := "f"
  type := ⟨[.i32], .scalar .i32⟩
  params := [.number 0]
  blocks := detour.builder.blocks

theorem lowerFunc_detour : detour.ReadsGiven ∧ detour.builder.finish = .ok detourFunc ∧
    ∀ context replies counters,
      ((lowerFunc context [] detourFunc).run replies counters).value = .ok () := by
  have hbody : detour.ReadsGiven := by decide
  have hf : detour.builder.finish = .ok detourFunc := by decide +kernel
  have hcalls : detourFunc.calls = [] := by decide
  refine ⟨hbody, hf, fun context replies counters => ?_⟩
  refine (lowerFunc_of_readsGiven hbody hf context [] replies counters).2 (fun call hcall => ?_)
    (by decide)
  rw [hcalls] at hcall
  exact (List.not_mem_nil hcall).elim

end LLVM

end TypedSSA
