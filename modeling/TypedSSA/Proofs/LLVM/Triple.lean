import TypedSSA.LLVM.Target
import TypedSSA.Proofs.LLVM.Outcome

/-!
# Triples

`Emit.Triple pre x post` says that `x`, run when `pre` holds, leaves `post` behind, whatever LLVM
replies. Both are said of the numbers given so far and of all calls made so far, those before `x`
with them (`Assertion`), so what is said can be a rule for the order of calls. `Lower.Triple` is the
same of a computation that can fail. There is one rule for each way that computations are put
together.

`Lower.Keeps inv x` is the case of an invariant. Lowering the blocks of a function keeps whatever
does not change when code is added with the function's builder (`Site.lowerBlocks_keeps`), and that
holds of every function, with sense in it or not. `compileModule_triple` takes what is known of
lowering to the end of a compilation.
-/

namespace TypedSSA

/-- Is an error of what LLVM is asked to do, and not of the module that it is asked to do it for. -/
def CodegenError.OfBackend : CodegenError → Prop
  | llvm _ | symbolNotFound _ => True
  | targetMismatch .. | illTyped _ => False

namespace LLVM

/-- What is said of the numbers given so far, and of the calls made so far. -/
abbrev Assertion := Counters → List Call → Prop

namespace Emit

variable {α β : Type} {pre : Assertion} {x : Emit α} {post : α → Assertion}

/-- Run when `pre` holds, `x` leaves `post` behind. -/
def Triple (pre : Assertion) (x : Emit α) (post : α → Assertion) : Prop :=
  ∀ replies counters past, pre counters past →
    post (x replies counters).value (x replies counters).counters
      (past ++ (x replies counters).calls)

namespace Triple

theorem imp (h : Triple pre x post) {post' : α → Assertion}
    (hpost : ∀ a c past, post a c past → post' a c past) : Triple pre x post' :=
  fun r c past hpre => hpost _ _ _ (h r c past hpre)

/-- What is not about calls stays as it is. -/
theorem frame (h : Triple pre x post) (P : Prop) :
    Triple (fun c past => P ∧ pre c past) x fun a c past => P ∧ post a c past :=
  fun r c past hpre => ⟨hpre.1, h r c past hpre.2⟩

theorem pure {a : α} (h : ∀ c past, pre c past → post a c past) :
    Triple pre (Pure.pure a) post := by
  intro r c past hpre
  show post a c (past ++ [])
  rw [List.append_nil]
  exact h c past hpre

theorem bind {f : α → Emit β} {post' : β → Assertion} (hx : Triple pre x post)
    (hf : ∀ a, Triple (post a) (f a) post') : Triple pre (x >>= f) post' := by
  intro r c past hpre
  have hboth := hf _ r _ _ (hx r c past hpre)
  rw [List.append_assoc] at hboth
  exact hboth

/-- Whatever LLVM replies. -/
theorem replies : Triple pre Emit.replies fun _ => pre := by
  intro r c past hpre
  show pre c (past ++ [])
  rwa [List.append_nil]

theorem call {c : Call} {post : Unit → Assertion}
    (h : ∀ counters past, pre counters past → post () counters (past ++ [c])) :
    Triple pre (Emit.call c) post :=
  fun _ counters past hpre => h counters past hpre

theorem create {count : Counters → Nat} {next : Counters → Counters} {c : Nat → Call}
    {post : Nat → Assertion}
    (h : ∀ counters past, pre counters past →
      post (count counters) (next counters) (past ++ [c (count counters)])) :
    Triple pre (Emit.create count next c) post :=
  fun _ counters past hpre => h counters past hpre

theorem setUp (hcall : ∀ c past part, pre c past → pre c (past ++ [.setup part]))
    (hset : ∀ c past, pre c past → pre { c with isSetUp := true } past) :
    Triple pre Emit.setUp fun _ => pre := by
  intro r c past hpre
  unfold Emit.setUp
  split
  · simpa using hpre
  · have hall := hset _ _ (hcall _ _ .linkInMCJIT (hcall _ _ .asmPrinters
      (hcall _ _ .targetMCs (hcall _ _ .targetInfos (hcall _ _ .targets hpre)))))
    simpa using hall

end Triple

end Emit

/-- `ok` of a value, and `failed` of an error. -/
def outcome {α : Type} (ok : α → Assertion) (failed : CodegenError → Assertion) :
    Except CodegenError α → Assertion
  | .ok a => ok a
  | .error e => failed e

namespace Lower

variable {α β : Type} {pre : Assertion} {x : Lower α} {ok : α → Assertion}
  {failed : CodegenError → Assertion} {inv : Assertion}

/-- Run when `pre` holds, `x` leaves `ok` behind if it gives a value, and `failed` if not. -/
def Triple (pre : Assertion) (x : Lower α) (ok : α → Assertion)
    (failed : CodegenError → Assertion) : Prop :=
  Emit.Triple pre x.run (outcome ok failed)

namespace Triple

theorem imp (h : Triple pre x ok failed) {ok' : α → Assertion} {failed' : CodegenError → Assertion}
    (hok : ∀ a c past, ok a c past → ok' a c past)
    (hfailed : ∀ e c past, failed e c past → failed' e c past) : Triple pre x ok' failed' := by
  refine Emit.Triple.imp h fun result c past hresult => ?_
  cases result with
  | ok a => exact hok a c past hresult
  | error e => exact hfailed e c past hresult

theorem pure {a : α} (h : ∀ c past, pre c past → ok a c past) :
    Triple pre (Pure.pure a) ok failed :=
  Emit.Triple.pure h

theorem throw {e : CodegenError} (h : ∀ c past, pre c past → failed e c past) :
    Triple pre (MonadExcept.throw e) ok failed :=
  Emit.Triple.pure h

theorem lift {y : Emit α} (h : Emit.Triple pre y ok) : Triple pre (liftM y) ok failed :=
  Emit.Triple.bind h fun _ => Emit.Triple.pure fun _ _ hok => hok

theorem replies : Triple pre (liftM Emit.replies) (fun _ => pre) failed :=
  lift .replies

theorem bind {f : α → Lower β} {ok' : β → Assertion} (hx : Triple pre x ok failed)
    (hf : ∀ a, Triple (ok a) (f a) ok' failed) : Triple pre (x >>= f) ok' failed := by
  refine Emit.Triple.bind hx fun result => ?_
  cases result with
  | ok a => exact hf a
  | error e => exact Emit.Triple.pure fun _ _ hfailed => hfailed

theorem ensuring {cleanup : Emit Unit} {ok' : α → Assertion} {failed' : CodegenError → Assertion}
    (hx : Triple pre x ok failed) (hok : ∀ a, Emit.Triple (ok a) cleanup fun _ => ok' a)
    (hfailed : ∀ e, Emit.Triple (failed e) cleanup fun _ => failed' e) :
    Triple pre (x.ensuring cleanup) ok' failed' := by
  refine Emit.Triple.bind hx fun result => ?_
  cases result with
  | ok a => exact (hok a).bind fun _ => .pure fun _ _ h => h
  | error e => exact (hfailed e).bind fun _ => .pure fun _ _ h => h

theorem onFailure {cleanup : Emit Unit} {failed' : CodegenError → Assertion}
    (hx : Triple pre x ok failed)
    (hfailed : ∀ e, Emit.Triple (failed e) cleanup fun _ => failed' e) :
    Triple pre (x.onFailure cleanup) ok failed' := by
  refine Emit.Triple.bind hx fun result => ?_
  cases result with
  | ok a => exact .pure fun _ _ h => h
  | error e => exact (hfailed e).bind fun _ => .pure fun _ _ h => h

theorem failOn {error? : Option String} (h : ∀ message c past, pre c past →
    failed (.llvm message) c past) : Triple pre (Lower.failOn error?) (fun _ => pre) failed := by
  cases error? with
  | none => exact pure fun _ _ hpre => hpre
  | some message => exact throw (h message)

theorem checkText {s : String} (h : ∀ message c past, pre c past →
    failed (.llvm message) c past) : Triple pre (Lower.checkText s) (fun _ => pre) failed := by
  unfold Lower.checkText
  split
  · exact throw (h _)
  · exact pure fun _ _ hpre => hpre

/-- What each element of a list keeps is kept when the list is gone through. -/
theorem forM {l : List α} {f : α → Lower Unit}
    (h : ∀ a ∈ l, Triple inv (f a) (fun _ => inv) failed) :
    Triple inv (l.forM f) (fun _ => inv) failed := by
  induction l with
  | nil => exact pure fun _ _ hinv => hinv
  | cons a l ih =>
    exact bind (h a List.mem_cons_self) fun _ => ih fun b hb => h b (List.mem_cons_of_mem _ hb)

theorem mapM {l : List α} {f : α → Lower β}
    (h : ∀ a ∈ l, Triple inv (f a) (fun _ => inv) failed) :
    Triple inv (l.mapM f) (fun _ => inv) failed := by
  induction l with
  | nil => exact pure fun _ _ hinv => hinv
  | cons a l ih =>
    rw [List.mapM_cons]
    exact bind (h a List.mem_cons_self) fun _ =>
      bind (ih fun b hb => h b (List.mem_cons_of_mem _ hb)) fun _ => pure fun _ _ hinv => hinv

end Triple

/-! ## Invariants -/

/-- Leaves `inv` as it is, and fails only as LLVM does. -/
def Keeps (inv : Assertion) (x : Lower α) : Prop :=
  Triple inv x (fun _ => inv) fun e c past => e.OfBackend ∧ inv c past

namespace Keeps

theorem triple (h : Keeps inv x) : Triple inv x (fun _ => inv) fun _ => inv :=
  Triple.imp h (fun _ _ _ hok => hok) fun _ _ _ hfailed => hfailed.2

/-- What an invariant says of a run. -/
theorem run (h : Keeps inv x) (r : Replies) {c : Counters} {past : List Call} (hinv : inv c past) :
    inv (x.run r c).counters (past ++ (x.run r c).calls) ∧
      ∀ e, (x.run r c).value = .error e → e.OfBackend := by
  have hrun := h r c past hinv
  cases hv : (x.run r c).value with
  | ok a =>
    rw [hv] at hrun
    exact ⟨hrun, fun e he => by cases he⟩
  | error e =>
    rw [hv] at hrun
    refine ⟨hrun.2, fun e' he => ?_⟩
    cases he
    exact hrun.1

theorem pure {a : α} : Keeps inv (Pure.pure a) := Triple.pure fun _ _ h => h

theorem fail {message : String} : Keeps inv (Lower.fail message : Lower α) :=
  Triple.throw fun _ _ h => ⟨trivial, h⟩

theorem bind {f : α → Lower β} (hx : Keeps inv x) (hf : ∀ a, Keeps inv (f a)) :
    Keeps inv (x >>= f) :=
  Triple.bind hx hf

theorem lift {y : Emit α} (h : Emit.Triple inv y fun _ => inv) : Keeps inv (liftM y) :=
  Triple.lift h

theorem ensuring {cleanup : Emit Unit} (hx : Keeps inv x)
    (h : Emit.Triple inv cleanup fun _ => inv) : Keeps inv (x.ensuring cleanup) :=
  Triple.ensuring hx (fun _ => h) fun _ => h.frame _

theorem onFailure {cleanup : Emit Unit} (hx : Keeps inv x)
    (h : Emit.Triple inv cleanup fun _ => inv) : Keeps inv (x.onFailure cleanup) :=
  Triple.onFailure hx fun _ => h.frame _

theorem forM {l : List α} {f : α → Lower Unit} (h : ∀ a, Keeps inv (f a)) :
    Keeps inv (l.forM f) :=
  Triple.forM fun a _ => h a

theorem mapM {l : List α} {f : α → Lower β} (h : ∀ a, Keeps inv (f a)) : Keeps inv (l.mapM f) :=
  Triple.mapM fun a _ => h a

theorem checkText (s : String) : Keeps inv (Lower.checkText s) :=
  Triple.checkText fun _ _ _ h => ⟨trivial, h⟩

theorem failOn (error? : Option String) : Keeps inv (Lower.failOn error?) :=
  Triple.failOn fun _ _ _ h => ⟨trivial, h⟩

end Keeps

end Lower

/-! ## Bodies -/

/-- Adds code with this builder, or adds to an instruction that is there. -/
def Call.AddsCode (builder : Nat) : Call → Prop
  | build b _ => b = builder
  | addIncoming .. | addCallSiteAttribute .. | addCase .. => True
  | _ => False

/-- Does not change when code is added with this builder. -/
def Assertion.Stable (inv : Assertion) (builder : Nat) : Prop :=
  ∀ counters past call results, call.AddsCode builder → inv counters past →
    inv { counters with results := results } (past ++ [call])

open Lower

theorem lowerValue_keeps {inv : Assertion} (locals : Locals) (v : Value) :
    Keeps inv (lowerValue locals v) := by
  cases v with
  | const ty c scope => exact .pure
  | loc ty name scope =>
    simp only [lowerValue]
    cases locals.lookup name with
    | none => exact .fail
    | some v => exact .pure

namespace Site

variable {inv : Assertion} {site : Site}

theorem block_keeps (label : Label) : Keeps inv (site.block label) := by
  unfold Site.block
  split
  · exact .pure
  · exact .fail

theorem addCode_keeps (h : inv.Stable site.builder) {c : Call} (hc : c.AddsCode site.builder) :
    Keeps inv (liftM (Emit.call c)) :=
  .lift (.call fun counters past hinv => h counters past c counters.results hc hinv)

theorem build_keeps (h : inv.Stable site.builder) (instruction : Val → Build) :
    Keeps inv (site.build instruction) :=
  .lift fun _ counters past hinv => h counters past _ _ rfl hinv

theorem finish_keeps (h : inv.Stable site.builder) (instruction : Build) :
    Keeps inv (site.finish instruction) :=
  addCode_keeps h rfl

theorem lowerBinary_keeps (h : inv.Stable site.builder) (locals : Locals) (op : BinOp)
    (lhs rhs : Value) : Keeps inv (site.lowerBinary locals op lhs rhs) := by
  refine (lowerValue_keeps locals lhs).bind fun l => (lowerValue_keeps locals rhs).bind fun r => ?_
  split
  · exact (build_keeps h _).bind fun r => build_keeps h _
  · exact Keeps.pure.bind fun r => build_keeps h _

theorem lowerInstr_keeps (h : inv.Stable site.builder) (locals : Locals) (i : Instr) :
    Keeps inv (site.lowerInstr locals i) := by
  cases i with
  | binary op lhs rhs => exact lowerBinary_keeps h locals op lhs rhs
  | cast op value target => exact (lowerValue_keeps locals value).bind fun v => build_keeps h _
  | cmp predicate lhs rhs =>
    refine (lowerValue_keeps locals lhs).bind fun l =>
      (lowerValue_keeps locals rhs).bind fun r => ?_
    split
    · exact build_keeps h _
    · exact build_keeps h _
  | select condition ifTrue ifFalse =>
    exact (lowerValue_keeps locals condition).bind fun c =>
      (lowerValue_keeps locals ifTrue).bind fun t =>
        (lowerValue_keeps locals ifFalse).bind fun f => build_keeps h _
  | phi ty incoming => exact build_keeps h _
  | call callee type args attributes =>
    simp only [Site.lowerInstr]
    cases site.callees.lookup callee with
    | none => exact .fail
    | some type =>
      refine (Keeps.mapM (lowerValue_keeps locals)).bind fun vs => ?_
      refine (build_keeps h _).bind fun v => ?_
      refine Keeps.bind (.forM fun a => ?_) fun _ => .pure
      exact addCode_keeps h trivial

theorem lowerBody_keeps (h : inv.Stable site.builder) {n : Nat} (block : Fin n)
    (body : List Named) (locals : Locals) : Keeps inv (site.lowerBody block body locals) := by
  induction body generalizing locals with
  | nil => exact .pure
  | cons named rest ih =>
    exact (lowerInstr_keeps h locals named.instr).bind fun v => (ih _).bind fun r => .pure

theorem lowerTerminator_keeps (h : inv.Stable site.builder) (locals : Locals) (t : Terminator) :
    Keeps inv (site.lowerTerminator locals t) := by
  cases t with
  | ret => exact finish_keeps h _
  | retVal value => exact (lowerValue_keeps locals value).bind fun v => finish_keeps h _
  | br target => exact (block_keeps target).bind fun b => finish_keeps h _
  | condBr condition ifTrue ifFalse =>
    exact (lowerValue_keeps locals condition).bind fun c => (block_keeps ifTrue).bind fun t =>
      (block_keeps ifFalse).bind fun f => finish_keeps h _
  | switch scrutinee default cases =>
    refine (lowerValue_keeps locals scrutinee).bind fun v => (block_keeps default).bind fun d =>
      (finish_keeps h _).bind fun _ => .forM fun a => ?_
    exact (block_keeps a.2).bind fun b => addCode_keeps h trivial

theorem lowerBlock_keeps (h : inv.Stable site.builder) {n : Nat} (index : Fin n) (b : Block)
    (locals : Locals) : Keeps inv (site.lowerBlock index b locals) := by
  refine (block_keeps b.label).bind fun ref => (finish_keeps h _).bind fun _ => ?_
  exact (lowerBody_keeps h index b.body locals).bind fun r =>
    (lowerTerminator_keeps h r.1 b.terminator).bind fun _ => .pure

theorem lowerBlocks_keeps (h : inv.Stable site.builder) (blocks : List Block)
    (order : List (Fin blocks.length)) (locals : Locals) :
    Keeps inv (site.lowerBlocks blocks order locals) := by
  induction order generalizing locals with
  | nil => exact .pure
  | cons i rest ih =>
    exact (lowerBlock_keeps h i (blocks.get i) locals).bind fun r => (ih r.1).bind fun r' => .pure

theorem resolvePhi_keeps (h : inv.Stable site.builder) (blocks : List Block)
    (cfg : Cfg blocks.length) (locals : Locals) (p : PendingPhi blocks.length) :
    Keeps inv (site.resolvePhi blocks cfg locals p) := by
  refine Keeps.bind (.mapM fun entry => ?_) fun entries => addCode_keeps h trivial
  exact (lowerValue_keeps locals entry.1).bind fun v => (block_keeps entry.2).bind fun b => .pure

end Site

/-! ## Compilation -/

/-- Is made when a module has been lowered, or to dispose of what there is. -/
def Call.Concludes : Call → Prop
  | verifyModule _ | createPassOptions _ | runPasses .. | disposePassOptions _ | createEngine ..
  | getFunctionAddress .. | disposeEngine _ | disposeModule _ | contextDispose _ => True
  | _ => False

/-- Does not change when such a call is made. -/
def Assertion.Settled (inv : Assertion) : Prop :=
  ∀ counters counters' past call, call.Concludes → counters'.isSetUp = counters.isSetUp →
    inv counters past → inv counters' (past ++ [call])

section Settled

variable {inv : Assertion} (h : inv.Settled)

include h

theorem call_settled {c : Call} (hc : c.Concludes) :
    Emit.Triple inv (Emit.call c) fun _ => inv :=
  .call fun counters past hinv => h counters counters past c hc rfl hinv

theorem create_settled {count : Counters → Nat} {next : Counters → Counters} {c : Nat → Call}
    (hset : ∀ counters, (next counters).isSetUp = counters.isSetUp)
    (hc : ∀ n, (c n).Concludes) :
    Emit.Triple inv (Emit.create count next c) fun _ => inv :=
  .create fun counters past hinv => h counters _ past _ (hc _) (hset counters) hinv

theorem optimize_keeps (level : OptLevel) (module : Nat) : Keeps inv (optimize level module) :=
  .bind (.lift .replies) fun r => .bind (.lift (call_settled h trivial)) fun _ =>
    (Keeps.failOn r.verifyError).bind fun _ =>
      .bind (.lift (create_settled h (fun _ => rfl) fun _ => trivial)) fun _ =>
        .bind (.lift (call_settled h trivial)) fun _ =>
          .bind (.lift (call_settled h trivial)) fun _ => .failOn r.passesError

theorem createEngine_keeps (level : OptLevel) (module : Nat) :
    Keeps inv (createEngine level module) := by
  refine .bind (.lift .replies) fun r => ?_
  cases r.engineError with
  | some message => exact .bind (.lift (call_settled h trivial)) fun _ => .fail
  | none => exact .lift (create_settled h (fun _ => rfl) fun _ => trivial)

theorem findAddress_keeps (engine : Nat) (f : Func) : Keeps inv (findAddress engine f) := by
  refine (Keeps.checkText f.label).bind fun _ => .bind (.lift .replies) fun r =>
    .bind (.lift (call_settled h trivial)) fun _ => ?_
  split
  · exact Triple.throw fun _ _ hinv => ⟨trivial, hinv⟩
  · exact .pure

theorem Jit.drop_settled (j : Jit) : Emit.Triple inv j.drop fun _ => inv :=
  .bind (call_settled h trivial) fun _ => call_settled h trivial

end Settled

/-- What holds when a module has been lowered holds to the end, if no call after that changes it.
What holds when lowering has failed is left behind with the context disposed of. -/
theorem compileModule_triple {m : Module} {pre lowered : Assertion}
    {failed : CodegenError → Assertion}
    (hcreate : Emit.Triple pre (Emit.create (·.contexts)
      (fun c => { c with contexts := c.contexts + 1 }) .contextCreate) fun _ => pre)
    (hlower : ∀ context, Triple pre (lowerModule context m) (fun _ => lowered) failed)
    (hlowered : lowered.Settled)
    (hfailed : ∀ e counters past context, failed e counters past →
      failed e counters (past ++ [.contextDispose context]))
    (himp : ∀ e counters past, e.OfBackend → lowered counters past → failed e counters past)
    (level : OptLevel) : Triple pre (compileModule level m) (fun _ => lowered) failed := by
  have hlate : ∀ {α : Type} {x : Lower α}, Keeps lowered x →
      Triple lowered x (fun _ => lowered) failed := fun hx =>
    Triple.imp hx (fun _ _ _ hok => hok) fun e c past hf => himp e c past hf.1 hf.2
  refine .bind (.lift hcreate) fun context => .bind (.onFailure (hlower context) fun e => ?_)
    fun module => ?_
  · exact .call fun counters past hf => hfailed e counters past context hf
  refine .bind (hlate (.onFailure (optimize_keeps hlowered level module) ?_)) fun _ => ?_
  · exact .bind (call_settled hlowered trivial) fun _ => call_settled hlowered trivial
  refine .bind (hlate (.onFailure (createEngine_keeps hlowered level module) ?_)) fun engine => ?_
  · exact call_settled hlowered trivial
  refine .bind (hlate (.onFailure (.mapM (findAddress_keeps hlowered engine)) ?_)) fun _ => ?_
  · exact Jit.drop_settled hlowered _
  · exact .pure fun _ _ hinv => hinv

end LLVM

end TypedSSA
