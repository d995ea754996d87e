import TypedSSA.Proofs.Builder.Runs
import TypedSSA.Proofs.Function.Places

/-!
# Well-formed bodies

`WellFormed` says of a list of blocks that it is in static single assignment form, with paths and
not with the analyses: every local that is read is bound in the body, and where control can get to
it is bound on every path before. `finish` accepts exactly those bodies, of all that a builder can
make.

The scope check is treated first (`Builder.scopeFault?_eq_none_iff`), and given what it makes sure
of, the check of control flow (`Builder.flowFault?_eq_none_iff`). `Builder.Inv.finish_eq_ok_iff`
puts the two together. What is known of a finished function afterwards is `Func.Sound`.
-/

namespace TypedSSA

namespace Block

/-- All values that a block reads. -/
def reads (b : Block) : List Value :=
  b.body.flatMap (fun n => n.instr.operands) ++ b.terminator.operands

/-- All labels in a block, of its phis and of its terminator. -/
def mentions (b : Block) : List Label :=
  b.body.flatMap (fun n => n.instr.incomingLabels) ++ b.terminator.successors

variable {b : Block} {n : Named} {v : Value} {label : Label}

theorem mem_reads_iff : v ∈ b.reads ↔
    (∃ n ∈ b.body, v ∈ n.instr.operands) ∨ v ∈ b.terminator.operands := by
  rw [reads, List.mem_append, List.mem_flatMap]

theorem mem_mentions_iff : label ∈ b.mentions ↔
    (∃ n ∈ b.body, label ∈ n.instr.incomingLabels) ∨ label ∈ b.terminator.successors := by
  rw [mentions, List.mem_append, List.mem_flatMap]

/-- The values of a phi are read, and the labels that they arrive from mentioned. -/
theorem mem_of_phi (hn : n ∈ b.body) {ty : Scalar} {incoming : List (Value × Label)}
    (hphi : n.instr = .phi ty incoming) {p : Value × Label} (hp : p ∈ incoming) :
    p.1 ∈ b.reads ∧ p.2 ∈ b.mentions := by
  refine ⟨mem_reads_iff.mpr (.inl ⟨n, hn, ?_⟩), mem_mentions_iff.mpr (.inl ⟨n, hn, ?_⟩)⟩
  · rw [hphi]
    exact List.mem_map_of_mem hp
  · rw [hphi]
    exact List.mem_map_of_mem hp

end Block

/-- `name` is a parameter of type `ty`, or bound at that type by an instruction. -/
def Binds (type : FuncType) (params : List LocalName) (blocks : List Block) (name : LocalName)
    (ty : Scalar) : Prop :=
  (name, ty) ∈ params.zip type.params ∨
    ∃ block ∈ blocks, ∃ instr, Named.bind name ty instr ∈ block.body

/-- A local that is no parameter is bound at an earlier place of block `i`, or in another block that
every path to `i` goes through. -/
def AvailableAt (params : List LocalName) (blocks : List Block) (i : Fin blocks.length) (k : Nat)
    (v : Value) : Prop :=
  ∀ name, v.name? = some name → name ∉ params →
    ∃ j m, BindsAt blocks j m name ∧
      (j = i ∧ m < k ∨ j ≠ i ∧ (flowGraph blocks).Dominates j i)

/-- The locals and labels that blocks mention are those of the body. -/
structure Scoped (type : FuncType) (scope : Scope) (params : List LocalName)
    (blocks : List Block) : Prop where
  /-- A local is of this body or of none, and bound at the type that it is read at. -/
  reads (block : Block) : block ∈ blocks → ∀ ty name own, .loc ty name own ∈ block.reads →
    (own = none ∨ own = some scope) ∧ Binds type params blocks name ty
  labels (block : Block) : block ∈ blocks → ∀ label ∈ block.mentions,
    ∃ target ∈ blocks, target.label = label

/-- Control never comes back to the entry, and locals are bound before they are read. -/
structure Placed (params : List LocalName) (blocks : List Block) : Prop where
  entry (block : Block) : block ∈ blocks → entryLabel ∉ block.terminator.successors
  /-- A phi has one label for each predecessor. -/
  phis (block : Block) : block ∈ blocks → ∀ n ∈ block.body, ∀ ty incoming,
    n.instr = .phi ty incoming → (incoming.map (·.2)).Nodup ∧
      ∀ label, label ∈ incoming.map (·.2) ↔
        ∃ p ∈ blocks, p.label = label ∧ block.label ∈ p.terminator.successors
  uses (i : Fin blocks.length) : (flowGraph blocks).Reachable i → ∀ k n,
    (blocks.get i).body[k]? = some n → n.instr.isPhi = false →
      ∀ v ∈ n.instr.operands, AvailableAt params blocks i k v
  terminators (i : Fin blocks.length) : (flowGraph blocks).Reachable i →
    ∀ v ∈ (blocks.get i).terminator.operands,
      AvailableAt params blocks i (blocks.get i).body.length v
  /-- A value of a phi is read at the end of the block that it arrives from. -/
  arrivals (i p : Fin blocks.length) : (flowGraph blocks).Reachable i →
    (flowGraph blocks).Reachable p → ∀ n ∈ (blocks.get i).body, ∀ ty incoming,
      n.instr = .phi ty incoming → ∀ v, (v, (blocks.get p).label) ∈ incoming →
        AvailableAt params blocks p (blocks.get p).body.length v

/-- A body in static single assignment form. -/
structure WellFormed (type : FuncType) (scope : Scope) (params : List LocalName)
    (blocks : List Block) : Prop extends
  Scoped type scope params blocks, Placed params blocks

/-- No two locals of a body have one name, and no two blocks one label. -/
structure Distinct (params : List LocalName) (blocks : List Block) : Prop where
  names : (params ++ blocks.flatMap Block.names).Nodup
  labels : (blocks.map Block.label).Nodup

namespace Distinct

variable {params : List LocalName} {blocks : List Block}

theorem names_blocks (h : Distinct params blocks) : (blocks.flatMap Block.names).Nodup :=
  (List.nodup_append.mp h.names).2.1

theorem not_mem_names {name : LocalName} (h : Distinct params blocks) (hname : name ∈ params) :
    name ∉ blocks.flatMap Block.names :=
  fun hn => (List.nodup_append.mp h.names).2.2 name hname name hn rfl

/-- No name has two types. -/
theorem nodup_bindings {types : List Scalar} (h : Distinct params blocks)
    (hlen : params.length = types.length) :
    ((params.zip types ++ blocks.flatMap Block.bindings).map Prod.fst).Nodup := by
  have hzip : (params.zip types).map Prod.fst = params := List.map_fst_zip (by omega)
  have hblocks : (blocks.flatMap Block.bindings).map Prod.fst = blocks.flatMap Block.names := by
    rw [List.map_flatMap]
    exact congrArg (blocks.flatMap ·) (funext fun b => map_fst_binding? b.body)
  rw [List.map_append, hzip, hblocks]
  exact h.names

end Distinct

theorem mem_bindings_iff {type : FuncType} {params : List LocalName} {blocks : List Block}
    {name : LocalName} {ty : Scalar} :
    (name, ty) ∈ params.zip type.params ++ blocks.flatMap Block.bindings ↔
      Binds type params blocks name ty := by
  have hbind : ∀ n : Named, n.binding? = some (name, ty) ↔ ∃ instr, n = .bind name ty instr := by
    intro n
    cases n <;> simp [Named.binding?]
  simp only [Binds, List.mem_append, List.mem_flatMap, Block.bindings, List.mem_filterMap, hbind]
  refine or_congr_right (exists_congr fun block => and_congr_right fun _ => ?_)
  exact ⟨fun ⟨n, hn, instr, e⟩ => ⟨instr, e ▸ hn⟩, fun ⟨instr, hn⟩ => ⟨_, hn, instr, rfl⟩⟩

/-! ## Scopes -/

theorem lookup_eq_some_iff_mem {α β : Type} [DecidableEq α] {l : List (α × β)} {a : α} {b : β}
    (h : (l.map Prod.fst).Nodup) : l.lookup a = some b ↔ (a, b) ∈ l := by
  rw [List.lookup_eq_some_iff]
  refine ⟨?_, fun hm => ?_⟩
  · rintro ⟨l₁, l₂, rfl, -⟩
    simp
  · obtain ⟨l₁, l₂, rfl⟩ := List.append_of_mem hm
    refine ⟨l₁, l₂, rfl, fun p hp => ?_⟩
    rw [List.map_append, List.map_cons] at h
    have hne := (List.nodup_append.mp h).2.2 p.1 (List.mem_map_of_mem hp) a List.mem_cons_self
    simpa using hne.symm

/-- No fault is found with a constant, nor with a local of this body or of none that is bound at the
type it is read at. -/
theorem valueFault?_eq_none_iff {function : Label} {scope : Scope}
    {bound : List (LocalName × Scalar)} (h : (bound.map Prod.fst).Nodup) {v : Value} :
    valueFault? function scope bound v = none ↔
      ∀ ty name own, v = .loc ty name own →
        (own = none ∨ own = some scope) ∧ (name, ty) ∈ bound := by
  cases v with
  | const ty c fits => simp [valueFault?]
  | loc ty name own =>
    have hown : (own.any fun s => decide (s ≠ scope)) = false ↔ own = none ∨ own = some scope := by
      cases own <;> simp
    have hkey : valueFault? function scope bound (.loc ty name own) = none ↔
        (own = none ∨ own = some scope) ∧ (name, ty) ∈ bound := by
      rw [← hown, ← lookup_eq_some_iff_mem h, valueFault?]
      cases own.any fun s => decide (s ≠ scope) with
      | true => simp
      | false => cases bound.lookup name <;> simp
    refine hkey.trans ⟨fun hv ty' name' own' e => ?_, fun hv => hv ty name own rfl⟩
    obtain ⟨rfl, rfl, rfl⟩ := Value.loc.inj e
    exact hv

namespace Builder

variable {type : FuncType} {b : Builder type}

theorem boundNames_of_closed (hc : b.current = none) :
    b.boundNames = b.blocks.flatMap Block.names := by
  simp only [boundNames, hc, Option.toList_none, List.map_nil, List.append_nil, List.flatMap_map]
  rfl

theorem Inv.distinct (h : b.Inv) (hc : b.current = none) : Distinct b.params b.blocks where
  names := boundNames_of_closed hc ▸ h.names
  labels := by simpa [startedLabels, hc] using h.labels

theorem Inv.mem_labels_iff (h : b.Inv) (hc : b.current = none) {label : Label} :
    label ∈ b.labels ↔ ∃ target ∈ b.blocks, target.label = label := by
  rw [h.mem_labels]
  simp [startedLabels, hc]

theorem Inv.nodup_bindings (h : b.Inv) (hc : b.current = none) :
    (b.bindings.map Prod.fst).Nodup :=
  (h.distinct hc).nodup_bindings (by simp [h.params])

/-- The scope check passes if all that blocks mention is known. -/
theorem scopeFault?_eq_none_iff (h : b.Inv) (hc : b.current = none) :
    b.scopeFault? = none ↔ Scoped type b.names.scope b.params b.blocks := by
  have hvalue : ∀ v, valueFault? b.label b.names.scope b.bindings v = none ↔
      ∀ ty name own, v = .loc ty name own →
        (own = none ∨ own = some b.names.scope) ∧ Binds type b.params b.blocks name ty :=
    fun v => (valueFault?_eq_none_iff (h.nodup_bindings hc)).trans
      (by simp only [bindings, mem_bindings_iff])
  have hlabel : ∀ l, labelFault? b.label b.labels l = none ↔
      ∃ target ∈ b.blocks, target.label = l :=
    fun l => by simp [labelFault?, h.mem_labels_iff hc]
  simp only [scopeFault?, List.findSome?_eq_none_iff, Option.or_eq_none_iff, hvalue, hlabel]
  refine ⟨fun hall => ⟨fun block hb ty name own hv => ?_, fun block hb l hl => ?_⟩,
    fun hs block hb => ⟨fun n hn => ⟨fun v hv => ?_, fun l hl => ?_⟩, fun v hv => ?_,
      fun l hl => ?_⟩⟩
  · rcases Block.mem_reads_iff.mp hv with ⟨n, hn, hv⟩ | hv
    · exact ((hall block hb).1 n hn).1 _ hv ty name own rfl
    · exact (hall block hb).2.1 _ hv ty name own rfl
  · rcases Block.mem_mentions_iff.mp hl with ⟨n, hn, hl⟩ | hl
    · exact ((hall block hb).1 n hn).2 l hl
    · exact (hall block hb).2.2 l hl
  · rintro ty name own rfl
    exact hs.reads block hb ty name own (Block.mem_reads_iff.mpr (.inl ⟨n, hn, hv⟩))
  · exact hs.labels block hb l (Block.mem_mentions_iff.mpr (.inl ⟨n, hn, hl⟩))
  · rintro ty name own rfl
    exact hs.reads block hb ty name own (Block.mem_reads_iff.mpr (.inr hv))
  · exact hs.labels block hb l (Block.mem_mentions_iff.mpr (.inr hl))

end Builder

/-! ## Control flow -/

section Flow

variable {params : List LocalName} {blocks : List Block} {function : Label}
  {i : Fin blocks.length} {k : Nat} {v : Value}

/-- The name of a local is that of a parameter or of an instruction's result. -/
def Known (params : List LocalName) (blocks : List Block) (v : Value) : Prop :=
  ∀ name, v.name? = some name → name ∈ params ∨ name ∈ blocks.flatMap Block.names

/-- Where control can get to, the use of a local is found without fault if it is bound at an earlier
place of the block, or in another block that dominates it. Parameters have no place, and are always
there. -/
theorem useFault?_eq_none_iff (hd : Distinct params blocks) (hv : Known params blocks v)
    (hi : (flowGraph blocks).Reachable i) :
    useFault? function blocks (Cfg.ofBlocks blocks) i k v = none ↔
      AvailableAt params blocks i k v := by
  cases hname : v.name? with
  | none => simp [useFault?, AvailableAt, hname]
  | some name =>
    by_cases hp : name ∈ params
    · have hnone := definition?_eq_none_iff.mpr (hd.not_mem_names hp)
      simp [useFault?, AvailableAt, hname, hnone, hp]
    · obtain ⟨j, m, hjm⟩ := exists_bindsAt ((hv name hname).resolve_left hp)
      have hsome := (definition?_eq_some_iff hd.names_blocks).mpr hjm
      have hdom : (Cfg.ofBlocks blocks).dominates j i = true ↔ (flowGraph blocks).Dominates j i :=
        Cfg.dominates_iff hi
      have havail : AvailableAt params blocks i k v ↔
          (j = i ∧ m < k ∨ j ≠ i ∧ (flowGraph blocks).Dominates j i) := by
        refine ⟨fun h => ?_, fun h name' hname' _ => ?_⟩
        · obtain ⟨j', m', hjm', h⟩ := h name hname hp
          obtain ⟨rfl, rfl⟩ := hjm'.unique hd.names_blocks hjm
          exact h
        · rw [hname, Option.some.injEq] at hname'
          exact ⟨j, m, hname' ▸ hjm, h⟩
      rw [havail, useFault?, hname]
      by_cases hji : j = i
      · simp [hsome, hji]
      · simp [hsome, hji, hdom]

theorem instrFault?_eq_none_iff_of_not_phi {cfg : Cfg blocks.length} {instr : Instr}
    (hphi : instr.isPhi = false) :
    instrFault? function blocks cfg i k instr = none ↔
      (cfg.isReachable i = true →
        ∀ v ∈ instr.operands, useFault? function blocks cfg i k v = none) := by
  cases instr with
  | phi => simp [Instr.isPhi] at hphi
  | _ =>
    rw [instrFault?]
    · split <;> simp_all
    · simp

/-- The labels of a phi, sorted, are those of the predecessors. -/
theorem sortLabels_eq_predecessorLabels_iff_successors (hd : Distinct params blocks)
    {labels : List Label} :
    sortLabels labels = predecessorLabels blocks (Cfg.ofBlocks blocks) i ↔
      labels.Nodup ∧ ∀ label, label ∈ labels ↔
        ∃ p ∈ blocks, p.label = label ∧ (blocks.get i).label ∈ p.terminator.successors := by
  rw [sortLabels_eq_predecessorLabels_iff]
  simp only [mem_succ_iff_label hd.labels]
  refine and_congr_right fun _ => forall_congr' fun label => iff_congr Iff.rfl ⟨?_, ?_⟩
  · rintro ⟨p, hsucc, hp⟩
    exact ⟨_, List.get_mem blocks p, hp, hsucc⟩
  · rintro ⟨p, hp, hl, hsucc⟩
    obtain ⟨p, rfl⟩ := List.mem_iff_get.mp hp
    exact ⟨p, hsucc, hl⟩

/-- A phi is without fault if its labels are those of the predecessors, each once, and if each of
its values is there at the end of the block that it arrives from. The second is asked only if
control can get to both blocks. -/
theorem phiFault?_eq_none_iff (hd : Distinct params blocks) {incoming : List (Value × Label)}
    (hv : ∀ p ∈ incoming, Known params blocks p.1) :
    phiFault? function blocks (Cfg.ofBlocks blocks) i incoming = none ↔
      ((incoming.map (·.2)).Nodup ∧ ∀ label, label ∈ incoming.map (·.2) ↔
        ∃ p ∈ blocks, p.label = label ∧ (blocks.get i).label ∈ p.terminator.successors) ∧
      ((flowGraph blocks).Reachable i → ∀ p, (flowGraph blocks).Reachable p →
        ∀ v, (v, (blocks.get p).label) ∈ incoming →
          AvailableAt params blocks p (blocks.get p).body.length v) := by
  have hreach : ∀ x, (Cfg.ofBlocks blocks).isReachable x = true ↔ (flowGraph blocks).Reachable x :=
    fun x => Cfg.isReachable_iff
  rw [← sortLabels_eq_predecessorLabels_iff_successors hd, phiFault?]
  by_cases hfound :
      sortLabels (incoming.map (·.2)) = predecessorLabels blocks (Cfg.ofBlocks blocks) i
  · simp only [hfound, ne_eq, not_true_eq_false, if_false, true_and, List.findSome?_eq_none_iff,
      Option.bind_eq_none_iff, blockIndex?_eq_some_iff hd.labels]
    refine ⟨fun h hi p hp v hmem => ?_, fun h q hq p hp => ?_⟩
    · have := h (v, _) hmem p rfl
      rw [(hreach i).mpr hi, (hreach p).mpr hp] at this
      exact (useFault?_eq_none_iff hd (hv _ hmem) hp).mp this
    · split
      · rename_i hr
        rw [Bool.and_eq_true, hreach, hreach] at hr
        refine (useFault?_eq_none_iff hd (hv q hq) hr.2).mpr (h hr.1 p hr.2 q.1 ?_)
        rw [hp]
        exact hq
      · rfl
  · simp [hfound]

theorem blockFault?_eq_none_iff {cfg : Cfg blocks.length} :
    blockFault? function blocks cfg i = none ↔
      (∀ k n, (blocks.get i).body[k]? = some n →
        instrFault? function blocks cfg i k n.instr = none) ∧
      (cfg.isReachable i = true → ∀ v ∈ (blocks.get i).terminator.operands,
        useFault? function blocks cfg i (blocks.get i).body.length v = none) := by
  simp only [blockFault?, Option.or_eq_none_iff, List.findSome?_eq_none_iff, Prod.forall,
    List.mem_zipIdx_iff_getElem?]
  refine and_congr ⟨fun h k n => h n k, fun h n k => h k n⟩ ?_
  split <;> simp_all

theorem branchFault?_eq_none_iff :
    branchFault? function blocks = none ↔
      ∀ block ∈ blocks, entryLabel ∉ block.terminator.successors := by
  simp [branchFault?]

end Flow

theorem Binds.known {type : FuncType} {params : List LocalName} {blocks : List Block}
    {name : LocalName} {ty : Scalar} (h : Binds type params blocks name ty) :
    name ∈ params ∨ name ∈ blocks.flatMap Block.names := by
  rcases h with h | ⟨block, hb, instr, h⟩
  · exact .inl (List.of_mem_zip h).1
  · exact .inr (List.mem_flatMap.mpr ⟨block, hb, List.mem_filterMap.mpr ⟨_, h, rfl⟩⟩)

theorem Scoped.known {type : FuncType} {scope : Scope} {params : List LocalName}
    {blocks : List Block} (h : Scoped type scope params blocks) {block : Block}
    (hb : block ∈ blocks) {v : Value} (hv : v ∈ block.reads) : Known params blocks v := by
  intro name hname
  cases v with
  | const => cases hname
  | loc ty name' own =>
    obtain rfl := Option.some.inj hname
    exact (h.reads block hb ty _ own hv).2.known

/-- The number one, of type `i32`. -/
def Value.one : Value := .const .i32 (.int 1) rfl

namespace Builder

variable {type : FuncType} {b : Builder type}

/-- Given that all locals are known, the check of control flow passes if they are bound in time. -/
theorem flowFault?_eq_none_iff (hd : Distinct b.params b.blocks)
    (hk : ∀ block ∈ b.blocks, ∀ v ∈ block.reads, Known b.params b.blocks v) :
    b.flowFault? = none ↔ Placed b.params b.blocks := by
  have hreach : ∀ x, (Cfg.ofBlocks b.blocks).isReachable x = true ↔
      (flowGraph b.blocks).Reachable x := fun x => Cfg.isReachable_iff
  have hbody : ∀ i : Fin b.blocks.length, ∀ n ∈ (b.blocks.get i).body, ∀ v ∈ n.instr.operands,
      Known b.params b.blocks v := fun i n hn v hv =>
    hk _ (List.get_mem b.blocks i) v (Block.mem_reads_iff.mpr (.inl ⟨n, hn, hv⟩))
  have hend : ∀ i : Fin b.blocks.length, ∀ v ∈ (b.blocks.get i).terminator.operands,
      Known b.params b.blocks v := fun i v hv =>
    hk _ (List.get_mem b.blocks i) v (Block.mem_reads_iff.mpr (.inr hv))
  have hphi : ∀ i : Fin b.blocks.length, ∀ n ∈ (b.blocks.get i).body, ∀ ty incoming,
      n.instr = .phi ty incoming → ∀ p ∈ incoming, Known b.params b.blocks p.1 :=
    fun i n hn ty incoming e p hp =>
      hk _ (List.get_mem b.blocks i) p.1 (Block.mem_of_phi hn e hp).1
  simp only [flowFault?, Option.or_eq_none_iff, branchFault?_eq_none_iff,
    List.findSome?_eq_none_iff, List.mem_finRange, true_imp_iff, blockFault?_eq_none_iff, hreach]
  constructor
  · rintro ⟨hentry, h⟩
    refine ⟨hentry, fun block hb n hn ty incoming e => ?_, fun i hi k n hn hnot v hv => ?_,
      fun i hi v hv => ?_, fun i p hi hp n hn ty incoming e v hv => ?_⟩
    · obtain ⟨i, rfl⟩ := List.mem_iff_get.mp hb
      obtain ⟨k, hn'⟩ := List.mem_iff_getElem?.mp hn
      have := (h i).1 k n hn'
      rw [e] at this
      exact ((phiFault?_eq_none_iff hd (hphi i n hn ty incoming e)).mp this).1
    · have := (instrFault?_eq_none_iff_of_not_phi hnot).mp ((h i).1 k n hn) ((hreach i).mpr hi) v hv
      exact (useFault?_eq_none_iff hd (hbody i n (List.mem_of_getElem? hn) v hv) hi).mp this
    · exact (useFault?_eq_none_iff hd (hend i v hv) hi).mp ((h i).2 hi v hv)
    · obtain ⟨k, hn'⟩ := List.mem_iff_getElem?.mp hn
      have := (h i).1 k n hn'
      rw [e] at this
      exact ((phiFault?_eq_none_iff hd (hphi i n hn ty incoming e)).mp this).2 hi p hp v hv
  · intro h
    refine ⟨h.entry, fun i => ⟨fun k n hn => ?_, fun hi v hv => ?_⟩⟩
    · have hmem := List.mem_of_getElem? hn
      cases hnot : n.instr.isPhi with
      | false =>
        refine (instrFault?_eq_none_iff_of_not_phi hnot).mpr fun hi v hv => ?_
        have hi := (hreach i).mp hi
        exact (useFault?_eq_none_iff hd (hbody i n hmem v hv) hi).mpr (h.uses i hi k n hn hnot v hv)
      | true =>
        obtain ⟨ty, incoming, e⟩ : ∃ ty incoming, n.instr = .phi ty incoming := by
          cases hn' : n.instr <;> simp_all [Instr.isPhi]
        rw [e]
        exact (phiFault?_eq_none_iff hd (hphi i n hmem ty incoming e)).mpr
          ⟨h.phis _ (List.get_mem b.blocks i) n hmem ty incoming e,
            fun hi p hp v hv => h.arrivals i p hi hp n hmem ty incoming e v hv⟩
    · exact (useFault?_eq_none_iff hd (hend i v hv) hi).mpr (h.terminators i hi v hv)

/-- With no name or label twice, `finish` gives the function of a body in static single assignment
form, and of no other. -/
theorem Inv.finish_eq_ok_iff (h : b.Inv) {f : Func} :
    b.finish = .ok f ↔
      (b.current = none ∧ WellFormed type b.names.scope b.params b.blocks) ∧
        f = ⟨b.label, type, b.params, b.blocks⟩ := by
  cases hc : b.current with
  | some block => simp [finish, hc]
  | none =>
    have hscope := scopeFault?_eq_none_iff h hc
    have hflow : Scoped type b.names.scope b.params b.blocks →
        (b.flowFault? = none ↔ Placed b.params b.blocks) := fun hs =>
      flowFault?_eq_none_iff (h.distinct hc) fun block hb v hv => hs.known hb hv
    have hwell : WellFormed type b.names.scope b.params b.blocks ↔
        b.scopeFault? = none ∧ b.flowFault? = none := by
      rw [hscope]
      exact ⟨fun hw => ⟨hw.toScoped, (hflow hw.toScoped).mpr hw.toPlaced⟩,
        fun ⟨hs, hf⟩ => ⟨hs, (hflow hs).mp hf⟩⟩
    rw [hwell, finish, hc]
    cases b.scopeFault? <;> cases b.flowFault? <;> simp [eq_comm]

/-- `finish` accepts exactly the bodies in static single assignment form, of all that operations on
a builder can make, whether they succeed or fail. -/
theorem finish_ok_iff (h : b.Reachable) :
    (∃ f, b.finish = .ok f) ↔
      b.current = none ∧ WellFormed type b.names.scope b.params b.blocks := by
  simp only [h.inv.finish_eq_ok_iff]
  exact ⟨fun ⟨_, hw, _⟩ => hw, fun hw => ⟨_, hw, rfl⟩⟩

/-- Counts its argument down to zero, in a loop whose phi reads a value that is bound after it. -/
def countdown : Builder ⟨[.i32], .scalar .i32⟩ :=
  (new _ ⟨0⟩ "countdown").1.performAll
    [.tryTerminate (.br "loop"),
      .startBlock "loop",
      .tryBind (.phi .i32
        [(.loc .i32 (.number 0) none, "entry"), (.loc .i32 (.number 2) none, "loop")]),
      .tryBind (.binary .sub (.loc .i32 (.number 1) none) .one),
      .tryBind (.cmp .eq (.loc .i32 (.number 2) none) (.const .i32 (.int 0) rfl)),
      .tryTerminate (.condBr (.loc .bool (.number 3) none) "done" "loop"),
      .startBlock "done",
      .tryTerminate (.retVal (.loc .i32 (.number 2) none))]

theorem reachable_countdown : countdown.Reachable := (Reachable.new _ _).performAll _

/-- The function that `countdown` makes. -/
def countdownFunc : Func :=
  ⟨"countdown", ⟨[.i32], .scalar .i32⟩, countdown.params, countdown.blocks⟩

theorem finish_countdown : countdown.finish = .ok countdownFunc := by decide +kernel

theorem wellFormed_countdown : countdown.Reachable ∧ countdown.current = none ∧
    WellFormed ⟨[.i32], .scalar .i32⟩ countdown.names.scope countdown.params countdown.blocks :=
  ⟨reachable_countdown, (finish_ok_iff reachable_countdown).mp ⟨_, finish_countdown⟩⟩

end Builder

namespace Func

variable {f : Func}

/-- `finish` gives this function, for a builder that some operations make. -/
def Finished (f : Func) : Prop := ∃ b : Builder f.type, b.Reachable ∧ b.finish = .ok f

/-- What `finish` makes sure of. -/
structure Sound (f : Func) : Prop where
  wellFormed : ∃ scope, WellFormed f.type scope f.params f.blocks
  distinct : Distinct f.params f.blocks
  length_params : f.params.length = f.type.params.length

/-- A local is read at the type that it is bound at. -/
theorem Sound.binds (h : f.Sound) {b : Block} (hb : b ∈ f.blocks) {ty : Scalar}
    {name : LocalName} {own : Option Scope} (hv : .loc ty name own ∈ b.reads) :
    Binds f.type f.params f.blocks name ty := by
  obtain ⟨scope, hw⟩ := h.wellFormed
  exact (hw.reads b hb ty name own hv).2

/-- What `finish` has checked, and what the builder had kept until then, as properties of the
function alone. -/
theorem Finished.sound (h : f.Finished) : f.Sound := by
  obtain ⟨b, hb, hf⟩ := h
  obtain ⟨⟨hc, hw⟩, hf⟩ := hb.inv.finish_eq_ok_iff.mp hf
  have hparams : f.params = b.params := congrArg Func.params hf
  have hblocks : f.blocks = b.blocks := congrArg Func.blocks hf
  refine ⟨⟨b.names.scope, ?_⟩, ?_, ?_⟩
  · rw [hparams, hblocks]
    exact hw
  · rw [hparams, hblocks]
    exact hb.inv.distinct hc
  · rw [hparams, hb.inv.params, List.length_map, List.length_range]

end Func

end TypedSSA
