import TypedSSA.Proofs.Function.WellFormed
import TypedSSA.Proofs.LLVM.Outcome

/-!
# Lowering of functions

When lowering a function succeeds, said with the places where its names are read and bound.

Each level has what is missing in it, given the names known before: an instruction
(`Instr.Missing`), a body (`MissingIn`), a block (`Block.Missing`) and blocks in some order
(`MissingAlong`). At each level lowering fails just when something is missing there, and
`LLVM.lowerFunc_spec` puts them together. In the order of emission nothing is missing in a block
that control can get to, since what it reads is bound in a block that dominates it and so comes
before. What is left are the blocks that it cannot get to: `Func.ReadsLate`.
-/

namespace TypedSSA

/-- The local `name` is read, and not among the names known. -/
def Value.Unknown (known : List LocalName) (v : Value) (name : LocalName) : Prop :=
  v.name? = some name ∧ name ∉ known

/-- An instruction reads an unknown name when control comes to it. Phis are read elsewhere. -/
def Instr.Missing (known : List LocalName) (i : Instr) (name : LocalName) : Prop :=
  i.isPhi = false ∧ ∃ v ∈ i.operands, v.Unknown known name

/-- An instruction reads a name that is neither known nor bound earlier in the body. -/
def MissingIn (known : List LocalName) (body : List Named) (name : LocalName) : Prop :=
  ∃ (k : Nat) (n : Named), body[k]? = some n ∧
    n.instr.Missing ((body.take k).filterMap Named.name? ++ known) name

/-- A local is missing at the first instruction, or at a later one that can read what the first has
bound too. -/
theorem missingIn_cons {known : List LocalName} {n : Named} {body : List Named}
    {name : LocalName} :
    MissingIn known (n :: body) name ↔
      n.instr.Missing known name ∨ MissingIn (n.name?.toList ++ known) body name := by
  have hcons : ∀ rest : List Named, ∀ i : Instr,
      i.Missing ((n :: rest).filterMap Named.name? ++ known) name ↔
        i.Missing (rest.filterMap Named.name? ++ (n.name?.toList ++ known)) name := by
    intro rest i
    simp only [Instr.Missing, Value.Unknown, List.mem_append]
    cases hn : n.name? <;> simp [hn, or_left_comm, or_assoc]
  constructor
  · rintro ⟨k, m, hm, hmiss⟩
    cases k with
    | zero =>
      obtain rfl := Option.some.inj hm
      exact .inl hmiss
    | succ k => exact .inr ⟨k, m, hm, (hcons _ _).mp hmiss⟩
  · rintro (hmiss | ⟨k, m, hm, hmiss⟩)
    · exact ⟨0, n, rfl, hmiss⟩
    · exact ⟨k + 1, m, hm, (hcons _ _).mpr hmiss⟩

namespace Block

/-- The value `v` is read at place `k` of the block, where the terminator has the last place. Phis
are read elsewhere. -/
def ReadsAt (b : Block) (k : Nat) (v : Value) : Prop :=
  (∃ n, b.body[k]? = some n ∧ n.instr.isPhi = false ∧ v ∈ n.instr.operands) ∨
    (k = b.body.length ∧ v ∈ b.terminator.operands)

/-- The block reads a name that is neither known nor bound earlier in it. -/
def Missing (known : List LocalName) (b : Block) (name : LocalName) : Prop :=
  ∃ k v, b.ReadsAt k v ∧ v.Unknown ((b.body.take k).filterMap Named.name? ++ known) name

theorem missing_iff {known : List LocalName} {b : Block} {name : LocalName} :
    b.Missing known name ↔ MissingIn known b.body name ∨
      ∃ v ∈ b.terminator.operands, v.Unknown (b.names ++ known) name := by
  constructor
  · rintro ⟨k, v, ⟨n, hn, hphi, hv⟩ | ⟨rfl, hv⟩, hunknown⟩
    · exact .inl ⟨k, n, hn, hphi, v, hv, hunknown⟩
    · rw [List.take_length] at hunknown
      exact .inr ⟨v, hv, hunknown⟩
  · rintro (⟨k, n, hn, hphi, v, hv, hunknown⟩ | ⟨v, hv, hunknown⟩)
    · exact ⟨k, v, .inl ⟨n, hn, hphi, hv⟩, hunknown⟩
    · refine ⟨b.body.length, v, .inr ⟨rfl, hv⟩, ?_⟩
      rw [List.take_length]
      exact hunknown

end Block

/-- One of these blocks reads a name that is neither known nor bound earlier, if they come in this
order. -/
def MissingAlong (blocks : List Block) (known : List LocalName)
    (order : List (Fin blocks.length)) (name : LocalName) : Prop :=
  ∃ before i after, order = before ++ i :: after ∧
    (blocks.get i).Missing (before.flatMap (fun j => (blocks.get j).names) ++ known) name

/-- A local is missing in the first block, or in a later one that can read what the first has bound
too. -/
theorem missingAlong_cons {blocks : List Block} {known : List LocalName} {i : Fin blocks.length}
    {order : List (Fin blocks.length)} {name : LocalName} :
    MissingAlong blocks known (i :: order) name ↔ (blocks.get i).Missing known name ∨
      MissingAlong blocks ((blocks.get i).names ++ known) order name := by
  have hcons : ∀ before : List (Fin blocks.length), ∀ b : Block,
      b.Missing ((i :: before).flatMap (fun j => (blocks.get j).names) ++ known) name ↔
        b.Missing (before.flatMap (fun j => (blocks.get j).names) ++
          ((blocks.get i).names ++ known)) name := by
    intro before b
    simp only [Block.Missing, Value.Unknown, List.flatMap_cons, List.mem_append]
    simp only [or_assoc, or_left_comm]
  constructor
  · rintro ⟨before, j, after, horder, hmiss⟩
    cases before with
    | nil =>
      obtain ⟨rfl, rfl⟩ := List.cons.inj horder
      exact .inl hmiss
    | cons _ before =>
      obtain ⟨rfl, rfl⟩ := List.cons.inj horder
      exact .inr ⟨before, j, after, rfl, (hcons _ _).mp hmiss⟩
  · rintro (hmiss | ⟨before, j, after, rfl, hmiss⟩)
    · exact ⟨[], i, order, rfl, hmiss⟩
    · exact ⟨i :: before, j, after, rfl, (hcons _ _).mpr hmiss⟩

/-! ## Reads before the definition -/

namespace Func

variable {f : Func} {i : Fin f.blocks.length} {k : Nat} {v : Value} {name : LocalName}

/-- Where control can get to, what is read has been bound, by an instruction of the block before it
or in a block that dominates it. A phi reads nothing here. -/
theorem Sound.available (hf : f.Sound) (hi : (flowGraph f.blocks).Reachable i)
    (hread : (f.blocks.get i).ReadsAt k v) : AvailableAt f.params f.blocks i k v := by
  obtain ⟨scope, hw⟩ := hf.wellFormed
  rcases hread with ⟨n, hn, hphi, hv⟩ | ⟨rfl, hv⟩
  · exact hw.uses i hi k n hn hphi v hv
  · exact hw.terminators i hi v hv

/-- A block that control cannot get to reads the local `name`, which is bound at a later place of
that block or in a later block, where control cannot get to either. -/
def ReadsLate (f : Func) (name : LocalName) : Prop :=
  name ∉ f.params ∧ ∃ i k v, ¬ (flowGraph f.blocks).Reachable i ∧ (f.blocks.get i).ReadsAt k v ∧
    v.name? = some name ∧ ∀ j m, BindsAt f.blocks j m name →
      ¬ (flowGraph f.blocks).Reachable j ∧ (i < j ∨ i = j ∧ k ≤ m)

/-- In the order of emission, only blocks that control cannot get to read what is not there yet. -/
theorem Sound.missingAlong_iff (hf : f.Sound) {known : List LocalName}
    (hknown : ∀ name, name ∈ known ↔ name ∈ f.params) :
    MissingAlong f.blocks known (Cfg.ofBlocks f.blocks).emissionOrder name ↔ f.ReadsLate name := by
  constructor
  · rintro ⟨before, i, after, horder, k, v, hread, hname, hmiss⟩
    simp only [List.mem_append, List.mem_flatMap, not_or, hknown, mem_names_take_iff,
      mem_names_iff] at hmiss
    obtain ⟨hhere, hbefore, hparam⟩ := hmiss
    have hi : ¬ (flowGraph f.blocks).Reachable i := by
      intro hi
      obtain ⟨j, m, hbind, ⟨rfl, hlt⟩ | ⟨hne, hdom⟩⟩ := hf.available hi hread name hname hparam
      · exact hhere ⟨m, hlt, hbind⟩
      · exact hbefore ⟨j, Cfg.mem_before_of_dominates horder hi hne hdom, m, hbind⟩
    refine ⟨hparam, i, k, v, hi, hread, hname, fun j m hbind => ?_⟩
    have hj : ¬ ((flowGraph f.blocks).Reachable j ∨ j < i) := fun h =>
      hbefore ⟨j, (Cfg.mem_before_iff horder hi).mpr h, m, hbind⟩
    rw [not_or] at hj
    refine ⟨hj.1, (lt_or_eq_of_le (not_lt.mp hj.2)).imp_right fun hij => ⟨hij, ?_⟩⟩
    subst hij
    exact Nat.le_of_not_lt fun hlt => hhere ⟨m, hlt, hbind⟩
  · rintro ⟨hparam, i, k, v, hi, hread, hname, hbinds⟩
    obtain ⟨before, after, horder⟩ := List.append_of_mem (Cfg.mem_emissionOrder i)
    refine ⟨before, i, after, horder, k, v, hread, hname, ?_⟩
    simp only [List.mem_append, List.mem_flatMap, not_or, hknown, mem_names_take_iff,
      mem_names_iff]
    refine ⟨?_, ?_, hparam⟩
    · rintro ⟨m, hlt, hbind⟩
      rcases (hbinds i m hbind).2 with h | ⟨-, h⟩
      · exact lt_irrefl _ h
      · omega
    · rintro ⟨j, hj, m, hbind⟩
      obtain ⟨hreach, hlate⟩ := hbinds j m hbind
      have hlt := ((Cfg.mem_before_iff horder hi).mp hj).resolve_left hreach
      rcases hlate with h | ⟨rfl, -⟩
      · exact lt_irrefl _ (hlt.trans h)
      · exact lt_irrefl _ hlt

end Func

namespace LLVM

open Lower

variable {site : Site} {locals : Locals} {known : List LocalName}

/-- A value is lowered unless it is a local that is not known, and that is then the error. -/
theorem lowerValue_spec (v : Value) :
    (lowerValue locals v).Spec (v.Unknown (locals.map Prod.fst)) fun _ => True := by
  cases v with
  | const => exact Spec.congr (Total.pure trivial) fun name => by simp [Value.Unknown, Value.name?]
  | loc ty name own =>
    rw [lowerValue]
    cases h : locals.lookup name with
    | none =>
      refine Spec.fail ⟨rfl, fun hmem => ?_⟩
      obtain ⟨p, hp, rfl⟩ := List.mem_map.mp hmem
      simpa using List.lookup_eq_none_iff.mp h p hp
    | some v =>
      obtain ⟨l₁, l₂, rfl, -⟩ := List.lookup_eq_some_iff.mp h
      refine Spec.congr (Total.pure trivial) fun name' => ⟨False.elim, fun h => ?_⟩
      obtain ⟨hname, hmem⟩ := h
      obtain rfl := Option.some.inj hname
      simp at hmem

namespace Site

theorem block_total {label : Label} (h : label ∈ site.labels) :
    (site.block label).Total fun _ => True := by
  rw [block, if_pos h]
  exact Total.pure trivial

/-- An instruction is lowered unless it reads an unknown name, if it calls what can be called. -/
theorem lowerInstr_spec {i : Instr}
    (hcall : ∀ call, i.callee? = some call → ∃ type, site.callees.lookup call.1 = some type) :
    (site.lowerInstr locals i).Spec (i.Missing (locals.map Prod.fst)) fun _ => True := by
  have hbuild : ∀ b, (site.build b).Total fun _ => True := fun _ => Total.lift _
  cases i with
  | binary op lhs rhs =>
    refine Spec.congr ((lowerValue_spec lhs).bind fun l _ =>
      (lowerValue_spec rhs).bind_total fun r _ => ?_) fun name => ?_
    · split
      · exact (hbuild _).bind fun _ _ => hbuild _
      · rw [pure_bind]
        exact hbuild _
    · simp [Instr.Missing, Instr.isPhi, Instr.operands]
  | cast op value target =>
    refine Spec.congr ((lowerValue_spec value).bind_total fun v _ => hbuild _) fun name => ?_
    simp [Instr.Missing, Instr.isPhi, Instr.operands]
  | cmp predicate lhs rhs =>
    refine Spec.congr ((lowerValue_spec lhs).bind fun l _ =>
      (lowerValue_spec rhs).bind_total fun r _ => ?_) fun name => ?_
    · split
      · exact hbuild _
      · exact hbuild _
    · simp [Instr.Missing, Instr.isPhi, Instr.operands]
  | select condition ifTrue ifFalse =>
    refine Spec.congr ((lowerValue_spec condition).bind fun c _ =>
      (lowerValue_spec ifTrue).bind fun t _ =>
        (lowerValue_spec ifFalse).bind_total fun f _ => hbuild _) fun name => ?_
    simp [Instr.Missing, Instr.isPhi, Instr.operands]
  | phi ty incoming =>
    exact Spec.congr (hbuild _) fun name => by simp [Instr.Missing, Instr.isPhi]
  | call callee type args attributes =>
    obtain ⟨ty, hty⟩ := hcall (callee, type) rfl
    rw [lowerInstr, hty]
    refine Spec.congr ((Spec.mapM fun v _ => lowerValue_spec v).bind_total fun vs _ =>
      (hbuild _).bind fun result _ => (Total.forM fun a _ => Total.lift _).bind fun _ _ =>
        Total.pure trivial) fun name => ?_
    simp [Instr.Missing, Instr.isPhi, Instr.operands]

/-- A body is lowered unless it reads a name that is neither known nor bound earlier in it. The
phis left to do are some of the body's. -/
theorem lowerBody_spec {n : Nat} {block : Fin n} {body : List Named}
    (hcall : ∀ m ∈ body, ∀ call, m.instr.callee? = some call →
      ∃ type, site.callees.lookup call.1 = some type) :
    (site.lowerBody block body locals).Spec (MissingIn (locals.map Prod.fst) body) fun result =>
      result.1.map Prod.fst = (body.filterMap Named.name?).reverse ++ locals.map Prod.fst ∧
      ∀ p ∈ result.2, ∃ m ∈ body, ∃ ty, m.instr = .phi ty p.incoming := by
  induction body generalizing locals with
  | nil =>
    refine Spec.congr (Total.pure ⟨rfl, fun p hp => nomatch hp⟩) fun name => ?_
    simp [MissingIn]
  | cons m body ih =>
    rw [lowerBody]
    refine Spec.congr ((lowerInstr_spec (hcall m List.mem_cons_self)).bind fun v _ =>
      Spec.bind_total (Spec.congr (ih fun m' hm' => hcall m' (List.mem_cons_of_mem _ hm'))
        fun name => ?_) fun result hresult => Total.pure ⟨?_, fun p hp => ?_⟩)
      fun name => missingIn_cons.symm
    · cases m.name? <;> rfl
    · rw [hresult.1]
      cases hm : m.name? <;> simp [hm]
    · rcases List.mem_append.mp hp with hp | hp
      · refine ⟨m, List.mem_cons_self, ?_⟩
        cases hi : m.instr with
        | phi ty incoming =>
          rw [hi] at hp
          obtain rfl := List.mem_singleton.mp hp
          exact ⟨ty, rfl⟩
        | _ => simp [hi] at hp
      · obtain ⟨m', hm', hphi⟩ := hresult.2 p hp
        exact ⟨m', List.mem_cons_of_mem _ hm', hphi⟩

/-- A terminator is lowered unless it reads an unknown name, if it goes to blocks of the
function. -/
theorem lowerTerminator_spec {t : Terminator} (h : ∀ label ∈ t.successors, label ∈ site.labels) :
    (site.lowerTerminator locals t).Spec
      (fun name => ∃ v ∈ t.operands, v.Unknown (locals.map Prod.fst) name) fun _ => True := by
  have hfinish : ∀ b, (site.finish b).Total fun _ => True := fun _ => Total.lift _
  cases t with
  | ret => exact Spec.congr (hfinish _) fun name => by simp [Terminator.operands]
  | retVal value =>
    refine Spec.congr ((lowerValue_spec value).bind_total fun v _ => hfinish _) fun name => ?_
    simp [Terminator.operands]
  | br target =>
    refine Spec.congr ((block_total (h target (by simp [Terminator.successors]))).bind
      fun b _ => hfinish _) fun name => ?_
    simp [Terminator.operands]
  | condBr condition ifTrue ifFalse =>
    refine Spec.congr ((lowerValue_spec condition).bind_total fun c _ =>
      (block_total (h ifTrue (by simp [Terminator.successors]))).bind fun t _ =>
        (block_total (h ifFalse (by simp [Terminator.successors]))).bind fun f _ =>
          hfinish _) fun name => ?_
    simp [Terminator.operands]
  | switch scrutinee default cases =>
    refine Spec.congr ((lowerValue_spec scrutinee).bind_total fun v _ =>
      (block_total (h default (by simp [Terminator.successors]))).bind fun d _ =>
        (hfinish _).bind fun _ _ => Total.forM fun case hcase =>
          (block_total (h case.2 ?_)).bind fun b _ => Total.lift _) fun name => ?_
    · exact List.mem_cons_of_mem _ (List.mem_map_of_mem hcase)
    · simp [Terminator.operands]

/-- The site knows the labels and the functions that blocks mention. -/
structure Covers (site : Site) (blocks : List Block) : Prop where
  own (b : Block) : b ∈ blocks → b.label ∈ site.labels
  labels (b : Block) : b ∈ blocks → ∀ label ∈ b.mentions, label ∈ site.labels
  calls (b : Block) : b ∈ blocks → ∀ m ∈ b.body, ∀ call, m.instr.callee? = some call →
    ∃ type, site.callees.lookup call.1 = some type

/-- A block is lowered unless it reads a local that is not known at that place. It leaves the locals
that it binds, and its phis for later. -/
theorem lowerBlock_spec {blocks : List Block} (hs : site.Covers blocks) {n : Nat} {index : Fin n}
    {b : Block} (hb : b ∈ blocks) :
    (site.lowerBlock index b locals).Spec (b.Missing (locals.map Prod.fst)) fun result =>
      result.1.map Prod.fst = b.names.reverse ++ locals.map Prod.fst ∧
      ∀ p ∈ result.2, ∃ m ∈ b.body, ∃ ty, m.instr = .phi ty p.incoming := by
  refine (block_total (hs.own b hb)).bind fun ref _ => Total.bind (Total.lift _) fun _ _ => ?_
  refine Spec.congr ((lowerBody_spec (hs.calls b hb)).bind fun result hresult => ?_)
    fun name => Block.missing_iff.symm
  refine Spec.bind_total (Spec.congr (lowerTerminator_spec fun label hl =>
    hs.labels b hb label (Block.mem_mentions_iff.mpr (.inr hl))) fun name => ?_) fun _ _ =>
      Total.pure hresult
  rw [hresult.1]
  simp only [Value.Unknown, Block.names, List.mem_append, List.mem_reverse]

/-- Blocks are lowered in an order unless one reads a name that is neither known nor bound
earlier. -/
theorem lowerBlocks_spec {blocks : List Block} (hs : site.Covers blocks)
    {order : List (Fin blocks.length)} :
    (site.lowerBlocks blocks order locals).Spec
      (MissingAlong blocks (locals.map Prod.fst) order) fun result =>
      (∀ name, name ∈ locals.map Prod.fst ∨ (∃ i ∈ order, name ∈ (blocks.get i).names) →
        name ∈ result.1.map Prod.fst) ∧
      ∀ p ∈ result.2, ∃ b ∈ blocks, ∃ m ∈ b.body, ∃ ty, m.instr = .phi ty p.incoming := by
  induction order generalizing locals with
  | nil =>
    refine Spec.congr (Total.pure ⟨fun name => ?_, fun p hp => nomatch hp⟩) fun name => ?_
    · simp
    · simp [MissingAlong]
  | cons i order ih =>
    have hi := List.get_mem blocks i
    rw [lowerBlocks]
    refine Spec.congr ((lowerBlock_spec hs hi).bind fun here hhere =>
      Spec.bind_total (Spec.congr ih fun name => ?_) fun later hlater =>
        Total.pure ⟨fun name hname => ?_, fun p hp => ?_⟩) fun name => missingAlong_cons.symm
    · rw [hhere.1]
      simp only [MissingAlong, Block.Missing, Value.Unknown, List.mem_append, List.mem_reverse]
    · refine hlater.1 name ?_
      rw [hhere.1, List.mem_append, List.mem_reverse]
      rcases hname with hname | ⟨j, hj, hname⟩
      · exact .inl (.inr hname)
      · rcases List.mem_cons.mp hj with rfl | hj
        · exact .inl (.inl hname)
        · exact .inr ⟨j, hj, hname⟩
    · rcases List.mem_append.mp hp with hp | hp
      · exact ⟨_, hi, hhere.2 p hp⟩
      · exact hlater.2 p hp

/-- The values of a phi are added if they are known, and arrive from blocks of the function. -/
theorem resolvePhi_total {blocks : List Block} {cfg : Cfg blocks.length}
    {p : PendingPhi blocks.length}
    (hvalues : ∀ q ∈ p.incoming, ∀ name, q.1.name? = some name → name ∈ locals.map Prod.fst)
    (hlabels : ∀ q ∈ p.incoming, q.2 ∈ site.labels) :
    (site.resolvePhi blocks cfg locals p).Total fun _ => True := by
  refine Total.bind (Spec.congr (Spec.mapM fun q hq => (lowerValue_spec q.1).bind_total fun v _ =>
    (block_total (hlabels q hq)).bind fun b _ => Total.pure trivial) fun name => ?_)
      fun _ _ => Total.lift _
  simp only [iff_false, not_exists, not_and]
  exact fun q hq hunknown => hunknown.2 (hvalues q hq name hunknown.1)

end Site

theorem checkText_total {s : String} (h : '\x00' ∉ s.toList) :
    (checkText s).Total fun _ => True := by
  rw [checkText, if_neg (by simpa using h)]
  exact Total.pure trivial

theorem mem_paramLocals_iff {f : Func} {name : LocalName} :
    name ∈ (paramLocals f).map Prod.fst ↔ name ∈ f.params := by
  simp only [paramLocals, List.map_reverse, List.mem_reverse, List.map_map]
  rw [show (f.params.zipIdx.map (Prod.fst ∘ fun p : LocalName × Nat =>
    (p.1, Val.param f.label p.2))) = f.params.zipIdx.map Prod.fst from rfl, List.zipIdx_map_fst]

/-- Lowering a function fails only where a block that control cannot get to reads a local that is
bound later. -/
theorem lowerFunc_spec {f : Func} (hf : f.Sound) {callees : List (Label × FuncType)}
    (hcalls : ∀ call ∈ f.calls, ∃ type, callees.lookup call.1 = some type)
    (hnul : ∀ b ∈ f.blocks, '\x00' ∉ b.label.toList) (context : Nat) :
    (lowerFunc context callees f).Spec f.ReadsLate fun _ => True := by
  obtain ⟨scope, hw⟩ := hf.wellFormed
  rw [lowerFunc]
  refine Total.bind (Total.lift _) fun builder _ => Spec.ensuring ?_ _
  have hsite : Site.Covers ⟨f.label, builder, f.blocks.map Block.label, callees⟩ f.blocks := by
    refine ⟨fun b hb => List.mem_map_of_mem hb, fun b hb label hl => ?_,
      fun b hb m hm call hc => ?_⟩
    · obtain ⟨target, ht, rfl⟩ := hw.labels b hb label hl
      exact List.mem_map_of_mem ht
    · exact hcalls call (List.mem_flatMap.mpr ⟨b, hb, List.mem_filterMap.mpr ⟨m, hm, hc⟩⟩)
  refine Total.bind (Total.forM fun b hb => Total.bind (checkText_total (hnul b hb)) fun _ _ =>
    Total.lift _) fun _ _ => ?_
  refine Spec.bind_total (Spec.congr (Site.lowerBlocks_spec hsite) fun name =>
    hf.missingAlong_iff fun name => mem_paramLocals_iff) fun result hresult => ?_
  refine Total.forM fun p hp => Site.resolvePhi_total (fun q hq name hname => ?_) fun q hq => ?_
  all_goals obtain ⟨b, hb, m, hm, ty, hphi⟩ := hresult.2 p hp
  · -- all names of the function have been lowered by now
    have hknown := hw.known hb (Block.mem_of_phi hm hphi hq).1 name hname
    refine hresult.1 name (hknown.imp mem_paramLocals_iff.mpr fun h => ?_)
    obtain ⟨i, k, hbind⟩ := exists_bindsAt h
    exact ⟨i, Cfg.mem_emissionOrder i, hbind.mem_names⟩
  · exact hsite.labels b hb q.2 (Block.mem_of_phi hm hphi hq).2

end LLVM

end TypedSSA
