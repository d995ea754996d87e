import Mathlib.Data.List.Induction
import TypedSSA.Proofs.Builder.Outcomes
import TypedSSA.Proofs.Function.WellFormed

/-!
# What a builder gives

A builder gives locals: one for each parameter when it is new, and one for the result of each
instruction that an operation binds. `Body` is a function body in the making, as the run of
operations that its builder has been put to. What it has given are the locals that it has bound, in
order (`Body.given_eq`), so every local comes from one parameter or one operation, and is bound by
that parameter or the instruction of that operation and by nothing else
(`Body.exists_origin`).

If the operations read no locals but those given before by the same builder, they are bound when
they are read (`Builder.ReadsBound`), and the scope check finds no fault with them
(`Builder.ReadsBound.scopeFault?`).
-/

namespace TypedSSA

/-- Elements that a list without such pairs has at two places are at one. -/
theorem eq_of_pairwise_getElem? {α : Type} {R : α → α → Prop} {l : List α} (h : l.Pairwise R)
    {i j : Nat} {a b : α} (hi : l[i]? = some a) (hj : l[j]? = some b) (hab : ¬ R a b)
    (hba : ¬ R b a) : i = j := by
  rw [List.pairwise_iff_getElem] at h
  obtain ⟨hilt, rfl⟩ := List.getElem?_eq_some_iff.mp hi
  obtain ⟨hjlt, rfl⟩ := List.getElem?_eq_some_iff.mp hj
  rcases Nat.lt_trichotomy i j with hlt | heq | hlt
  · exact absurd (h i j hilt hjlt hlt) hab
  · exact heq
  · exact absurd (h j i hjlt hilt hlt) hba

/-- The local that this scope has for a binding. -/
def Value.ofBinding (scope : Scope) (p : LocalName × Scalar) : Value := .loc p.2 p.1 (some scope)

namespace Builder

variable {type : FuncType} {b : Builder type} {op : Op type}
  {r : Except Fault Answer × Builder type}

/-- The local that an operation has given. -/
def local? : Except Fault Answer → Option Value
  | .ok (.value v) => some v
  | _ => none

/-- All instructions, in the order in which they were put into the blocks. -/
def instrs (b : Builder type) : List Named :=
  b.blocks.flatMap Block.body ++ b.current.toList.flatMap OpenBlock.body

/-- Every name that is bound, also in the open block, with its type. -/
def bound (b : Builder type) : List (LocalName × Scalar) :=
  b.params.zip type.params ++ b.instrs.filterMap Named.binding?

theorem bound_eq (b : Builder type) :
    b.bound = b.bindings ++ b.current.toList.flatMap fun block =>
      block.body.filterMap Named.binding? := by
  simp only [bound, bindings, instrs, List.filterMap_append, List.filterMap_flatMap,
    List.append_assoc]
  rfl

theorem filterMap_name?_instrs (b : Builder type) :
    b.instrs.filterMap Named.name? = b.boundNames := by
  simp only [instrs, boundNames, List.filterMap_append, List.filterMap_flatMap, List.flatMap_append,
    List.flatMap_map]

/-- The names bound are the parameters and then what instructions have bound, in order. -/
theorem Inv.map_fst_bound (h : b.Inv) : b.bound.map Prod.fst = b.params ++ b.boundNames := by
  have hlen : b.params.length ≤ type.params.length := by simp [h.params]
  rw [bound, List.map_append, List.map_fst_zip hlen, map_fst_binding?, filterMap_name?_instrs]

theorem Inv.nodup_bound (h : b.Inv) : (b.bound.map Prod.fst).Nodup := h.map_fst_bound ▸ h.names

/-! ## One operation -/

theorem Change.scope {b' : Builder type} (h : Change b b') : b'.names.scope = b.names.scope := by
  cases h with
  | names later grows => exact grows.scope
  | push later block n grows => exact grows.scope
  | close => rfl
  | start => rfl

theorem scope_perform (b : Builder type) (op : Op type) :
    (b.perform op).2.names.scope = b.names.scope :=
  (b.change_perform op).scope

/-- An operation that gives a local has put its instruction at the end, with that local's name. -/
theorem Effect.instrs_of_local (h : Effect b op r) {v : Value} (hv : local? r.1 = some v) :
    ∃ name ty i, op.instr? = some i ∧ v = .loc ty name (some r.2.names.scope) ∧
      r.2.instrs = b.instrs ++ [.bind name ty i] := by
  cases h with
  | fail => cases hv
  | label => cases hv
  | close => cases hv
  | start => cases hv
  | push later block n isOpen operands instr =>
    cases n with
    | discard i => cases hv
    | bind name ty i =>
      refine ⟨name, ty, i, instr, (Option.some.inj hv).symm, ?_⟩
      simp [instrs, isOpen]

theorem Effect.instrs_prefix (h : Effect b op r) : b.instrs <+: r.2.instrs := by
  cases h with
  | fail => exact List.prefix_refl _
  | label => exact List.prefix_refl _
  | push later block n isOpen => simp [instrs, isOpen]
  | close block t isOpen => simp [instrs, isOpen]
  | start label isClosed => simp [instrs, isClosed]

/-- What an operation gives is what it binds. -/
theorem Effect.bound (h : Effect b op r) (scope : Scope) (hscope : r.2.names.scope = scope) :
    r.2.bound.map (Value.ofBinding scope) =
      b.bound.map (Value.ofBinding scope) ++ (local? r.1).toList := by
  subst hscope
  cases h with
  | fail => simp [Builder.bound, instrs, local?]
  | label => simp [Builder.bound, instrs, local?]
  | push later block n isOpen =>
    cases n <;> simp [Builder.bound, instrs, isOpen, local?, Named.binding?, Named.answer,
      Value.ofBinding]
  | close block t isOpen => simp [Builder.bound, instrs, isOpen, local?]
  | start label isClosed => simp [Builder.bound, instrs, isClosed, local?]

/-! ## Runs -/

/-- What no change to a builder alters is the same after a run. -/
theorem performAll_keeps {α : Type} (get : Builder type → α)
    (h : ∀ {b b' : Builder type}, Change b b' → get b' = get b) (b : Builder type)
    (ops : List (Op type)) : get (b.performAll ops) = get b := by
  induction ops generalizing b with
  | nil => rfl
  | cons op ops ih => exact (ih (b.perform op).2).trans (h (b.change_perform op))

theorem scope_performAll (b : Builder type) (ops : List (Op type)) :
    (b.performAll ops).names.scope = b.names.scope :=
  performAll_keeps (·.names.scope) Change.scope b ops

theorem label_performAll (b : Builder type) (ops : List (Op type)) :
    (b.performAll ops).label = b.label :=
  performAll_keeps Builder.label (fun h => by cases h <;> rfl) b ops

/-- What the operations of a run have given is what they have bound, in order, beside what was bound
before. -/
theorem bound_performAll (b : Builder type) (ops : List (Op type)) :
    (b.performAll ops).bound.map (Value.ofBinding b.names.scope) =
      b.bound.map (Value.ofBinding b.names.scope) ++ (b.outcomes ops).filterMap local? := by
  induction ops using List.reverseRecOn with
  | nil => simp [performAll, outcomes]
  | append_singleton ops op ih =>
    have hscope : ((b.performAll ops).perform op).2.names.scope = b.names.scope := by
      rw [scope_perform, scope_performAll]
    rw [performAll_concat, (effect_perform _ op).bound _ hscope, ih, outcomes_concat,
      List.filterMap_append, List.append_assoc]
    cases hlocal : local? ((b.performAll ops).perform op).1 <;> simp [hlocal]

theorem length_outcomes (b : Builder type) (ops : List (Op type)) :
    (b.outcomes ops).length = ops.length := by
  induction ops generalizing b with
  | nil => rfl
  | cons op ops ih => simp [outcomes, ih]

/-- The instruction of an operation that has given a local is in the body, with the local's name. -/
theorem exists_instr_of_local (b : Builder type) {ops : List (Op type)} {k : Nat} {v : Value}
    (hv : (b.outcomes ops)[k]?.bind local? = some v) :
    ∃ name ty i, ops[k]?.bind Op.instr? = some i ∧ v = .loc ty name (some b.names.scope) ∧
      .bind name ty i ∈ (b.performAll ops).instrs := by
  induction ops using List.reverseRecOn with
  | nil => simp [outcomes] at hv
  | append_singleton ops op ih =>
    have heffect := effect_perform (b.performAll ops) op
    obtain ⟨outcome, houtcome, hlocal⟩ := Option.bind_eq_some_iff.mp hv
    rw [outcomes_concat] at houtcome
    rw [performAll_concat]
    rcases getElem?_concat_cases houtcome with ⟨hk, houtcome⟩ | ⟨rfl, rfl⟩
    · obtain ⟨name, ty, i, hi, hv, hmem⟩ := ih (Option.bind_eq_some_iff.mpr ⟨_, houtcome, hlocal⟩)
      rw [length_outcomes] at hk
      rw [List.getElem?_append_left hk]
      exact ⟨name, ty, i, hi, hv, heffect.instrs_prefix.subset hmem⟩
    · obtain ⟨name, ty, i, hi, hv, hinstrs⟩ := heffect.instrs_of_local hlocal
      rw [scope_perform, scope_performAll] at hv
      refine ⟨name, ty, i, ?_, hv, ?_⟩
      · rw [length_outcomes, List.getElem?_concat_length]
        exact hi
      · rw [hinstrs]
        exact List.mem_append_right _ List.mem_cons_self

/-! ## Values read -/

/-- All values that the body reads have `P`. -/
structure Reads (P : Value → Prop) (b : Builder type) : Prop where
  instrs (n : Named) : n ∈ b.instrs → ∀ v ∈ n.instr.operands, P v
  terminators (block : Block) : block ∈ b.blocks → ∀ v ∈ block.terminator.operands, P v

/-- An operation puts no other values into the body than those that it was given to read. -/
theorem Reads.effect {P : Value → Prop} (h : b.Reads P) (he : Effect b op r)
    (hop : ∀ v ∈ op.operands, P v) : r.2.Reads P := by
  cases he with
  | fail => exact ⟨h.instrs, h.terminators⟩
  | label => exact ⟨h.instrs, h.terminators⟩
  | push later block n isOpen operands =>
    refine ⟨fun m hm v hv => ?_, h.terminators⟩
    have hm : m ∈ b.instrs ∨ m = n := by
      simpa [Builder.instrs, isOpen, or_assoc] using hm
    rcases hm with hm | rfl
    · exact h.instrs m hm v hv
    · exact hop v (operands ▸ hv)
  | close block t isOpen operands =>
    refine ⟨fun m hm => h.instrs m ?_, fun closed hclosed v hv => ?_⟩
    · simpa [Builder.instrs, isOpen] using hm
    · rcases List.mem_append.mp hclosed with hclosed | hclosed
      · exact h.terminators closed hclosed v hv
      · obtain rfl := List.mem_singleton.mp hclosed
        exact hop v (operands ▸ hv)
  | start label isClosed =>
    refine ⟨fun m hm => h.instrs m ?_, h.terminators⟩
    simpa [Builder.instrs, isClosed] using hm

theorem Reads.performAll {P : Value → Prop} (h : b.Reads P) {ops : List (Op type)}
    (hops : ∀ op ∈ ops, ∀ v ∈ op.operands, P v) : (b.performAll ops).Reads P := by
  induction ops generalizing b with
  | nil => exact h
  | cons op ops ih =>
    obtain ⟨hop, hops⟩ := List.forall_mem_cons.mp hops
    exact ih (h.effect (effect_perform b op) hop) hops

theorem Reads.of_mem {P : Value → Prop} (h : b.Reads P) {block : Block} (hb : block ∈ b.blocks)
    {v : Value} (hv : v ∈ block.reads) : P v := by
  rcases Block.mem_reads_iff.mp hv with ⟨n, hn, hv⟩ | hv
  · refine h.instrs n (List.mem_append_left _ ?_) v hv
    exact List.mem_flatMap.mpr ⟨block, hb, hn⟩
  · exact h.terminators block hb v hv

/-- A local that is read is one that this scope has for a binding. -/
def OwnLocal (scope : Scope) (bound : List (LocalName × Scalar)) (v : Value) : Prop :=
  v.name?.isSome → v ∈ bound.map (Value.ofBinding scope)

theorem OwnLocal.mono {scope : Scope} {bound bound' : List (LocalName × Scalar)} {v : Value}
    (h : OwnLocal scope bound v) (hsub : bound ⊆ bound') : OwnLocal scope bound' v :=
  fun hv => List.map_subset _ hsub (h hv)

/-- Closed blocks read locals that closed blocks bind, and the open block also those that it binds
itself. -/
structure ReadsBound (b : Builder type) : Prop where
  closed (block : Block) : block ∈ b.blocks → ∀ v ∈ block.reads,
    OwnLocal b.names.scope b.bindings v
  opened (block : OpenBlock) : b.current = some block → ∀ n ∈ block.body, ∀ v ∈ n.instr.operands,
    OwnLocal b.names.scope b.bound v

/-- Values that are bound when an operation reads them stay bound. When a block is closed, what it
has bound counts for the blocks after it. -/
theorem ReadsBound.effect (h : b.ReadsBound) (he : Effect b op r)
    (hscope : r.2.names.scope = b.names.scope)
    (hop : ∀ v ∈ op.operands, OwnLocal b.names.scope b.bound v) : r.2.ReadsBound := by
  obtain ⟨hclosed, hopened⟩ := h
  rw [← hscope] at hclosed hopened hop
  cases he with
  | fail => exact ⟨hclosed, hopened⟩
  | label => exact ⟨hclosed, hopened⟩
  | push later block n isOpen operands =>
    refine ⟨hclosed, fun block' hblock' m hm v hv => ?_⟩
    have hgrows : b.bound ⊆ ({ b with
        names := later
        current := some { block with body := block.body ++ [n] } } : Builder type).bound := by
      simp [bound, instrs, isOpen, ← List.append_assoc]
    obtain rfl := Option.some.inj hblock'
    rcases List.mem_append.mp hm with hm | hm
    · exact (hopened block isOpen m hm v hv).mono hgrows
    · rw [List.mem_singleton.mp hm, operands] at hv
      exact (hop v hv).mono hgrows
  | close block t isOpen operands =>
    -- what the open block binds counts among the bindings of closed blocks from now on
    have hbindings : ({ b with
        blocks := b.blocks ++ [⟨block.label, block.body, t⟩]
        current := none } : Builder type).bindings = b.bound := by
      simp [bound_eq, bindings, Block.bindings, isOpen]
    have hgrows : b.bindings ⊆ b.bound := by
      rw [bound_eq]
      exact List.subset_append_left _ _
    refine ⟨fun block' hblock' v hv => ?_, fun _ h => absurd h.symm (Option.some_ne_none _)⟩
    rw [hbindings]
    rcases List.mem_append.mp hblock' with hblock' | hblock'
    · exact (hclosed block' hblock' v hv).mono hgrows
    · obtain rfl := List.mem_singleton.mp hblock'
      rcases Block.mem_reads_iff.mp hv with ⟨n, hn, hv⟩ | hv
      · exact hopened block isOpen n hn v hv
      · exact hop v (operands ▸ hv)
  | start label isClosed =>
    refine ⟨hclosed, fun block' hblock' m hm => ?_⟩
    obtain rfl := Option.some.inj hblock'
    cases hm

/-- The scope check finds fault with a value that a block reads, or with a label that it
mentions. -/
theorem exists_of_scopeFault? {fault : Fault} (h : b.scopeFault? = some fault) :
    ∃ block ∈ b.blocks,
      (∃ v ∈ block.reads, valueFault? b.label b.names.scope b.bindings v = some fault) ∨
      ∃ l ∈ block.mentions, labelFault? b.label b.labels l = some fault := by
  obtain ⟨block, hb, h⟩ := List.exists_of_findSome?_eq_some h
  refine ⟨block, hb, ?_⟩
  rcases Option.or_eq_some_iff.mp h with h | ⟨-, h⟩
  · obtain ⟨n, hn, h⟩ := List.exists_of_findSome?_eq_some h
    rcases Option.or_eq_some_iff.mp h with h | ⟨-, h⟩
    · obtain ⟨v, hv, h⟩ := List.exists_of_findSome?_eq_some h
      exact .inl ⟨v, Block.mem_reads_iff.mpr (.inl ⟨n, hn, hv⟩), h⟩
    · obtain ⟨l, hl, h⟩ := List.exists_of_findSome?_eq_some h
      exact .inr ⟨l, Block.mem_mentions_iff.mpr (.inl ⟨n, hn, hl⟩), h⟩
  · rcases Option.or_eq_some_iff.mp h with h | ⟨-, h⟩
    · obtain ⟨v, hv, h⟩ := List.exists_of_findSome?_eq_some h
      exact .inl ⟨v, Block.mem_reads_iff.mpr (.inr hv), h⟩
    · obtain ⟨l, hl, h⟩ := List.exists_of_findSome?_eq_some h
      exact .inr ⟨l, Block.mem_mentions_iff.mpr (.inr hl), h⟩

/-- Every local that is read carries the scope of the body, and is bound at its type. So there is no
fault with a value, and what is left is a label. -/
theorem ReadsBound.scopeFault? (h : b.ReadsBound) (hi : b.Inv) {fault : Fault}
    (hfault : b.scopeFault? = some fault) : ∃ target, fault = .undefinedLabel b.label target := by
  obtain ⟨block, hb, ⟨v, hv, hfault⟩ | ⟨l, -, hfault⟩⟩ := exists_of_scopeFault? hfault
  · have hnodup : (b.bindings.map Prod.fst).Nodup := by
      refine hi.nodup_bound.sublist (List.Sublist.map _ ?_)
      rw [bound_eq]
      exact List.sublist_append_left _ _
    have hnone : valueFault? b.label b.names.scope b.bindings v = none := by
      refine (valueFault?_eq_none_iff hnodup).mpr fun ty name own hlocal => ?_
      subst hlocal
      obtain ⟨p, hp, hvalue⟩ := List.mem_map.mp (h.closed block hb _ hv rfl)
      obtain ⟨rfl, rfl, rfl⟩ := Value.loc.inj hvalue
      exact ⟨.inr rfl, hp⟩
    cases hnone.symm.trans hfault
  · unfold labelFault? at hfault
    split at hfault
    · cases hfault
    · exact ⟨l, (Option.some.inj hfault).symm⟩

end Builder

/-! ## Bodies -/

namespace Supply

theorem values_params (s : Supply) (types : List Scalar) :
    (s.params types).1.values =
      (types.zipIdx s.nextLocal).map fun p => .loc p.1 (.number p.2) (some s.scope) := by
  induction types generalizing s with
  | nil => rfl
  | cons t types ih =>
    show _ :: (Supply.params s.fresh.2 types).1.values = _
    rw [ih, List.zipIdx_cons, List.map_cons]
    rfl

theorem scope_params (s : Supply) (types : List Scalar) : (s.params types).2.scope = s.scope := by
  induction types generalizing s with
  | nil => rfl
  | cons t types ih => exact ih s.fresh.2

end Supply

/-- A function body in the making: how its builder was started, and the operations on it. -/
structure Body where
  type : FuncType
  scope : Scope
  label : Label
  ops : List (Builder.Op type)

namespace Body

open Builder

variable {body : Body}

/-- The builder before the operations. -/
def start (body : Body) : Builder body.type := (Builder.new body.type body.scope body.label).1

/-- The builder after the operations. -/
def builder (body : Body) : Builder body.type := body.start.performAll body.ops

/-- The locals given for the parameters. -/
def params (body : Body) : List Value := (Builder.new body.type body.scope body.label).2.values

/-- What the operations have given. -/
def outcomes (body : Body) : List (Except Fault Answer) := body.start.outcomes body.ops

/-- All locals given. -/
def given (body : Body) : List Value := body.params ++ body.outcomes.filterMap local?

/-- All values that the operations were given to read. -/
def operands (body : Body) : List Value := body.ops.flatMap Op.operands

theorem reachable_builder (body : Body) : body.builder.Reachable :=
  (Reachable.new _ _).performAll _

/-- Nothing is read in the body but what some operation was given to read. -/
theorem reads_builder (body : Body) : body.builder.Reads (· ∈ body.operands) := by
  have hstart : body.start.Reads (· ∈ body.operands) :=
    ⟨by simp [start, Builder.new, Builder.instrs], by simp [start, Builder.new]⟩
  exact hstart.performAll fun op hop v hv => List.mem_flatMap.mpr ⟨op, hop, hv⟩

theorem label_builder (body : Body) : body.builder.label = body.label :=
  label_performAll body.start body.ops

theorem scope_start (body : Body) : body.start.names.scope = body.scope :=
  Supply.scope_params (Supply.new body.scope) body.type.params

theorem scope_builder (body : Body) : body.builder.names.scope = body.scope := by
  rw [builder, scope_performAll, scope_start]

/-- The parameters are numbered from zero. -/
theorem params_eq (body : Body) :
    body.params = body.type.params.zipIdx.map fun p => .loc p.1 (.number p.2) (some body.scope) :=
  Supply.values_params (Supply.new body.scope) body.type.params

theorem getElem?_params (body : Body) (k : Nat) :
    body.params[k]? = body.type.params[k]?.map fun t => .loc t (.number k) (some body.scope) := by
  rw [params_eq, List.getElem?_map, List.getElem?_zipIdx, Option.map_map, Nat.zero_add]
  rfl

/-- A new builder has bound its parameters, under the names that it gives for them. -/
theorem bound_start (body : Body) :
    body.start.bound.map (Value.ofBinding body.scope) = body.params := by
  have hbound : body.start.bound =
      ((List.range body.type.params.length).map .number).zip body.type.params :=
    List.append_nil _
  rw [hbound]
  apply List.ext_getElem?
  intro k
  rw [getElem?_params]
  by_cases hk : k < body.type.params.length
  · simp [hk, Value.ofBinding]
  · simp [hk]

/-- What a builder has given are the locals that it has bound, in order. -/
theorem given_eq (body : Body) :
    body.given = body.builder.bound.map (Value.ofBinding body.scope) := by
  have h := bound_performAll body.start body.ops
  rw [scope_start, bound_start] at h
  exact h.symm

theorem mem_given_iff {v : Value} :
    v ∈ body.given ↔ ∃ name ty, v = .loc ty name (some body.scope) ∧
      (name, ty) ∈ body.builder.bound := by
  rw [given_eq, List.mem_map]
  constructor
  · rintro ⟨p, hp, rfl⟩
    exact ⟨p.1, p.2, rfl, hp⟩
  · rintro ⟨name, ty, rfl, hp⟩
    exact ⟨(name, ty), hp, rfl⟩

theorem given_subset_concat (body : Body) (op : Op body.type) :
    body.given ⊆ ({ body with ops := body.ops ++ [op] } : Body).given := by
  have houtcomes : ({ body with ops := body.ops ++ [op] } : Body).outcomes =
      body.outcomes ++ [(body.builder.perform op).1] := outcomes_concat ..
  rw [given, given, houtcomes, List.filterMap_append, ← List.append_assoc]
  exact List.subset_append_left _ _

/-! ## Where a local comes from -/

/-- What gives a local: the start of the builder, for parameter number `k`, or operation number
`k`. -/
inductive Origin where
  | param (k : Nat)
  | op (k : Nat)
deriving DecidableEq

/-- The local that this origin has given. -/
def givenBy? (body : Body) : Origin → Option Value
  | .param k => body.params[k]?
  | .op k => body.outcomes[k]?.bind local?

/-- In this function, `name` is bound at type `ty` by parameter `k`, or by the instruction of
operation `k`, and by nothing else. -/
def BoundOnlyBy (body : Body) (f : Func) (name : LocalName) (ty : Scalar) : Origin → Prop
  | .param k =>
    f.params[k]? = some name ∧ f.type.params[k]? = some ty ∧
      (∀ l, f.params[l]? = some name → l = k) ∧ ∀ i m, ¬ BindsAt f.blocks i m name
  | .op k =>
    ∃ instr i m, body.ops[k]?.bind Op.instr? = some instr ∧
      (f.blocks.get i).body[m]? = some (.bind name ty instr) ∧
      (∀ j l, BindsAt f.blocks j l name → j = i ∧ l = m) ∧ name ∉ f.params

/-- A name is given once. -/
theorem pairwise_given (body : Body) : body.given.Pairwise fun v v' => v.name? ≠ v'.name? := by
  have hnodup := body.reachable_builder.inv.nodup_bound
  rw [given_eq, List.pairwise_map]
  refine (List.pairwise_map.mp hnodup).imp fun {p q} hne hname => hne ?_
  exact Option.some.inj hname

/-- Two locals of one name have one origin, since no name is given twice. -/
theorem origin_unique {o o' : Origin} {v v' : Value} (h : body.givenBy? o = some v)
    (h' : body.givenBy? o' = some v') (hname : v.name? = v'.name?) : o = o' := by
  obtain ⟨hparams, houtcomes, hcross⟩ := List.pairwise_append.mp body.pairwise_given
  have hmem : ∀ {k : Nat} {v : Value}, body.outcomes[k]?.bind local? = some v →
      v ∈ body.outcomes.filterMap local? := by
    intro k v hv
    obtain ⟨outcome, houtcome, hlocal⟩ := Option.bind_eq_some_iff.mp hv
    exact List.mem_filterMap.mpr ⟨outcome, List.mem_of_getElem? houtcome, hlocal⟩
  cases o with
  | param k =>
    cases o' with
    | param k' =>
      exact congrArg _ (eq_of_pairwise_getElem? hparams h h' (· hname) (· hname.symm))
    | op k' => exact absurd hname (hcross v (List.mem_of_getElem? h) v' (hmem h'))
  | op k =>
    cases o' with
    | param k' => exact absurd hname.symm (hcross v' (List.mem_of_getElem? h') v (hmem h))
    | op k' =>
      obtain ⟨outcome, hk, hv⟩ := Option.bind_eq_some_iff.mp h
      obtain ⟨outcome', hk', hv'⟩ := Option.bind_eq_some_iff.mp h'
      refine congrArg _
        (eq_of_pairwise_getElem? (List.pairwise_filterMap.mp houtcomes) hk hk' ?_ ?_)
      · exact fun hne => hne v hv v' hv' hname
      · exact fun hne => hne v' hv' v hv hname.symm

/-- A local that a finished body has given comes from a parameter or an operation, and what binds
its name is that parameter or the instruction of that operation. -/
theorem exists_origin {f : Func} (hf : body.builder.finish = .ok f) {ty : Scalar}
    {name : LocalName} {own : Option Scope} (hv : .loc ty name own ∈ body.given) :
    ∃ o, body.givenBy? o = some (.loc ty name own) ∧ body.BoundOnlyBy f name ty o := by
  have hinv := body.reachable_builder.inv
  obtain ⟨⟨hclosed, -⟩, rfl⟩ := hinv.finish_eq_ok_iff.mp hf
  have hd := hinv.distinct hclosed
  rcases List.mem_append.mp hv with hv | hv
  · obtain ⟨k, hk⟩ := List.mem_iff_getElem?.mp hv
    rw [getElem?_params, Option.map_eq_some_iff] at hk
    obtain ⟨t, ht, heq⟩ := hk
    obtain ⟨rfl, rfl, -⟩ := Value.loc.inj heq
    have hklt : k < body.type.params.length := (List.getElem?_eq_some_iff.mp ht).1
    have hparam : body.builder.params[k]? = some (.number k) := by
      rw [hinv.params]
      simp [hklt]
    refine ⟨.param k, ?_, hparam, ht, fun l hl => ?_, fun i m hbinds => ?_⟩
    · rw [givenBy?, getElem?_params, ht, ← heq]
      rfl
    · exact eq_of_pairwise_getElem? (List.nodup_append.mp hd.names).1 hl hparam (· rfl) (· rfl)
    · exact hd.not_mem_names (List.mem_of_getElem? hparam)
        (List.mem_flatMap.mpr ⟨_, List.get_mem _ _, hbinds.mem_names⟩)
  · obtain ⟨outcome, houtcome, hlocal⟩ := List.mem_filterMap.mp hv
    obtain ⟨k, hk⟩ := List.mem_iff_getElem?.mp houtcome
    have hgiven : body.outcomes[k]?.bind local? = some (.loc ty name own) :=
      Option.bind_eq_some_iff.mpr ⟨outcome, hk, hlocal⟩
    obtain ⟨name', ty', instr, hinstr, heq, hmem⟩ := exists_instr_of_local body.start hgiven
    obtain ⟨rfl, rfl, -⟩ := Value.loc.inj heq
    have hinstrs : body.builder.instrs = body.builder.blocks.flatMap Block.body := by
      simp [Builder.instrs, hclosed]
    change _ ∈ body.builder.instrs at hmem
    rw [hinstrs] at hmem
    obtain ⟨block, hblock, hmem⟩ := List.mem_flatMap.mp hmem
    obtain ⟨i, rfl⟩ := List.mem_iff_get.mp hblock
    obtain ⟨m, hm⟩ := List.mem_iff_getElem?.mp hmem
    have hbinds : BindsAt body.builder.blocks i m name := ⟨_, hm, rfl⟩
    refine ⟨.op k, hgiven, instr, i, m, hinstr, hm, fun j l hl => ?_, fun hparam => ?_⟩
    · exact hl.unique hd.names_blocks hbinds
    · exact hd.not_mem_names hparam
        (List.mem_flatMap.mpr ⟨_, List.get_mem _ _, hbinds.mem_names⟩)

/-! ## Bodies that read their own locals -/

/-- Every local that an operation reads has `R` to what the same builder has given before. -/
def ReadsBy (R : List Value → Value → Prop) (body : Body) : Prop :=
  ∀ i : Fin body.ops.length, ∀ v ∈ (body.ops.get i).operands, v.name?.isSome →
    R ({ body with ops := body.ops.take i } : Body).given v

instance (R : List Value → Value → Prop) [DecidableRel R] (body : Body) :
    Decidable (body.ReadsBy R) :=
  inferInstanceAs (Decidable (∀ i : Fin body.ops.length, ∀ v ∈ (body.ops.get i).operands,
    v.name?.isSome → R ({ body with ops := body.ops.take i } : Body).given v))

/-- What holds of a new builder, and is kept by each operation that reads what it may, holds of the
builder after all operations. -/
theorem ReadsBy.induction {R : List Value → Value → Prop}
    {P : ∀ {type : FuncType}, Builder type → Prop} (h : body.ReadsBy R)
    (start : ∀ (type : FuncType) (scope : Scope) (label : Label),
      P (Builder.new type scope label).1)
    (step : ∀ (before : Body) (op : Op before.type), P before.builder →
      (∀ v ∈ op.operands, v.name?.isSome → R before.given v) → P (before.builder.perform op).2) :
    P body.builder := by
  obtain ⟨type, scope, label, ops⟩ := body
  induction ops using List.reverseRecOn with
  | nil => exact start type scope label
  | append_singleton ops op ih =>
    let before : Body := ⟨type, scope, label, ops⟩
    obtain ⟨hbefore, hop⟩ := of_forall_get_concat (l := ops)
      (P := fun ops (op : Op type) => ∀ v ∈ op.operands, v.name?.isSome →
        R (⟨type, scope, label, ops⟩ : Body).given v) h
    have hbuilder : (⟨type, scope, label, ops ++ [op]⟩ : Body).builder =
        (before.builder.perform op).2 := performAll_concat ..
    rw [hbuilder]
    exact step before op (ih hbefore) hop

/-- No operation reads a local but those that the same builder has given before. -/
def ReadsOwn (body : Body) : Prop := body.ReadsBy fun given v => v ∈ given

instance (body : Body) : Decidable body.ReadsOwn :=
  inferInstanceAs (Decidable (body.ReadsBy fun given v => v ∈ given))

/-- No operation reads a local but by the name of one that the same builder has given before. -/
def ReadsGiven (body : Body) : Prop :=
  body.ReadsBy fun given v => v.name? ∈ given.map Value.name?

instance (body : Body) : Decidable body.ReadsGiven :=
  inferInstanceAs (Decidable (body.ReadsBy fun given v => v.name? ∈ given.map Value.name?))

/-- What a builder has given it has bound (`given_eq`), so a body that reads its own locals reads
what is bound. -/
theorem ReadsOwn.readsBound (h : body.ReadsOwn) : body.builder.ReadsBound := by
  refine h.induction (fun type scope label => ?_) fun before op ih hop => ?_
  · refine ⟨fun _ hblock => (List.not_mem_nil hblock).elim, fun block hblock n hn => ?_⟩
    obtain rfl := Option.some.inj hblock
    cases hn
  · refine ih.effect (effect_perform _ op) (scope_perform _ op) fun v hv hlocal => ?_
    have hgiven := hop v hv hlocal
    rwa [given_eq, ← before.scope_builder] at hgiven

end Body

end TypedSSA
