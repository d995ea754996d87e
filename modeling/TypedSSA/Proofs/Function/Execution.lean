import TypedSSA.Proofs.Function.WellFormed

/-!
# Execution of finished functions

Runs a function along a path of blocks and keeps track of what is defined: `Func.exec` gives the
locals after the last block with their types, and `none` if one was read that was not defined, or
was defined at another type. What instructions compute does not matter here, so that control may
take any branch.

A phi is read on the edge into its block, and all phis of a block at once (`Env.arrives`). After
that the block runs in order (`Env.runBlock`).

No path through a finished function reads what is not defined. By well-formedness a local that is
read is bound on every path, so on the one that was taken, and the names bound on that path are what
`exec` has collected (`Env.along`). So every block runs through (`Env.runBlock_along`), its phis can
be read on every edge to it (`Env.arrives_along`), and the rest is an induction on the path.
-/

namespace TypedSSA

/-- The locals defined so far with their types, the latest first. -/
abbrev Env := List (LocalName × Scalar)

namespace Env

/-- Whether a value can be read: it is a constant, or a local defined at the type that it is read
at. -/
def holds (env : Env) : Value → Bool
  | .const .. => true
  | .loc ty name _ => env.lookup name == some ty

/-- Whether an instruction can be entered from the block `source`. A phi must have one value for
it, and that can be read. -/
def arrives (env : Env) (source : Label) : Instr → Bool
  | .phi _ incoming =>
    match incoming.filter fun p => p.2 = source with
    | [(value, _)] => env.holds value
    | _ => false
  | _ => true

/-- Runs an instruction. A phi has been read already. -/
def step (env : Env) (n : Named) : Option Env :=
  if n.instr.isPhi || n.instr.operands.all env.holds then some (n.binding?.toList ++ env) else none

/-- Runs the instructions of a block, and its terminator. -/
def runBlock (env : Env) (b : Block) : Option Env := do
  let env ← b.body.foldlM step env
  if b.terminator.operands.all env.holds then some env else none

/-- Runs these blocks in order, coming from `source`. -/
def follow (env : Env) (source : Label) : List Block → Option Env
  | [] => some env
  | b :: rest =>
    if b.body.all fun n => env.arrives source n.instr then do
      let env ← env.runBlock b
      env.follow b.label rest
    else none

end Env

namespace Func

/-- Runs a function along a path of blocks. -/
def exec (f : Func) : List Block → Option Env
  | [] => some (f.params.zip f.type.params)
  | b :: rest => do
    let env ← Env.runBlock (f.params.zip f.type.params) b
    env.follow b.label rest

/-- A way that control can take through a function, from the first block on. -/
structure Walk (f : Func) (path : List Block) : Prop where
  first : path.head? = f.blocks.head?
  mem (b : Block) : b ∈ path → b ∈ f.blocks
  follows : path.IsChain fun a b => b.label ∈ a.terminator.successors

end Func

/-- A pair is the only one with its label, among pairs of which no two have one label. -/
theorem exists_filter_eq_singleton {incoming : List (Value × Label)} {label : Label}
    (hn : (incoming.map (·.2)).Nodup) (h : label ∈ incoming.map (·.2)) :
    ∃ v, (v, label) ∈ incoming ∧ (incoming.filter fun p => p.2 = label) = [(v, label)] := by
  obtain ⟨⟨v, label'⟩, hmem, rfl⟩ := List.mem_map.mp h
  obtain ⟨l₁, l₂, rfl⟩ := List.append_of_mem hmem
  rw [List.map_append, List.map_cons, List.nodup_middle, List.nodup_cons, List.mem_append] at hn
  have hnone : ∀ l : List (Value × Label), label' ∉ l.map (·.2) →
      (l.filter fun p => p.2 = label') = [] := by
    intro l hl
    rw [List.filter_eq_nil_iff]
    intro p hp
    simpa using fun e : p.2 = label' => hl (e ▸ List.mem_map_of_mem hp)
  refine ⟨v, hmem, ?_⟩
  rw [List.filter_append, hnone l₁ fun h => hn.1 (.inl h), List.nil_append,
    List.filter_cons_of_pos (by simp), hnone l₂ fun h => hn.1 (.inr h)]

namespace Env

variable {f : Func} {env : Env} {v : Value} {i p : Fin f.blocks.length}
  {l : List (Fin f.blocks.length)} {k : Nat}

/-- What is defined after these blocks, the last of which comes first. -/
def along (f : Func) (l : List (Fin f.blocks.length)) : Env :=
  l.flatMap (fun i => (f.blocks.get i).bindings.reverse) ++ f.params.zip f.type.params

theorem along_cons : along f (i :: l) = (f.blocks.get i).bindings.reverse ++ along f l := by
  rw [along, along, List.flatMap_cons, List.append_assoc]

theorem mem_map_fst_along (hf : f.Sound) {name : LocalName} :
    name ∈ (along f l).map Prod.fst ↔
      (∃ j ∈ l, name ∈ (f.blocks.get j).names) ∨ name ∈ f.params := by
  rw [along, List.map_append, List.mem_append, List.map_flatMap, List.mem_flatMap,
    List.map_fst_zip (Nat.le_of_eq hf.length_params)]
  refine or_congr_left (exists_congr fun j => and_congr_right fun _ => ?_)
  rw [List.map_reverse, List.mem_reverse, Block.bindings, map_fst_binding?, Block.names]

/-- A name that is defined can be read at the type that the function binds it at. -/
theorem holds_of_mem (hf : f.Sound)
    (henv : ∀ p ∈ env, p ∈ f.params.zip f.type.params ++ f.blocks.flatMap Block.bindings)
    (hbinds : ∀ ty name own, v = .loc ty name own → Binds f.type f.params f.blocks name ty)
    (hv : ∀ name, v.name? = some name → name ∈ env.map Prod.fst) : env.holds v = true := by
  have hnodup := hf.distinct.nodup_bindings hf.length_params
  cases v with
  | const => rfl
  | loc ty name own =>
    obtain ⟨ty', hl⟩ : ∃ ty', env.lookup name = some ty' := by
      rw [← Option.isSome_iff_exists, List.lookup_isSome_iff]
      simpa using hv name rfl
    obtain ⟨l₁, l₂, rfl, -⟩ := List.lookup_eq_some_iff.mp hl
    -- the list of all bindings has no name twice, so both types are the one in it
    have hty := (lookup_eq_some_iff_mem hnodup).mpr (henv (name, ty') (by simp))
    rw [(lookup_eq_some_iff_mem hnodup).mpr (mem_bindings_iff.mpr (hbinds ty name own rfl))] at hty
    rw [holds, hl, hty]
    exact beq_self_eq_true _

/-- A value that is available at a place can be read there, whatever path was taken to it. -/
theorem holds_of_available (hf : f.Sound) (hp : (flowGraph f.blocks).Path i (i :: l))
    (hbinds : ∀ ty name own, v = .loc ty name own → Binds f.type f.params f.blocks name ty)
    (ha : AvailableAt f.params f.blocks i k v) :
    holds ((((f.blocks.get i).body.take k).filterMap Named.binding?).reverse ++ along f l) v =
      true := by
  have hblock : ∀ j : Fin f.blocks.length, ∀ p ∈ (f.blocks.get j).bindings,
      p ∈ f.blocks.flatMap Block.bindings := fun j p hp =>
    List.mem_flatMap.mpr ⟨_, List.get_mem f.blocks j, hp⟩
  refine holds_of_mem hf (fun p hmem => ?_) hbinds fun name hv => ?_
  · rw [along, List.mem_append, List.mem_append] at hmem
    rcases hmem with hmem | hmem | hmem
    · obtain ⟨n, hn, hb⟩ := List.mem_filterMap.mp (List.mem_reverse.mp hmem)
      exact List.mem_append_right _ (hblock i p
        (List.mem_filterMap.mpr ⟨n, List.mem_of_mem_take hn, hb⟩))
    · obtain ⟨j, -, hb⟩ := List.mem_flatMap.mp hmem
      exact List.mem_append_right _ (hblock j p (List.mem_reverse.mp hb))
    · exact List.mem_append_left _ hmem
  · rw [List.map_append, List.mem_append, mem_map_fst_along hf, List.map_reverse, List.mem_reverse,
      map_fst_binding?]
    by_cases hparam : name ∈ f.params
    · exact .inr (.inr hparam)
    · obtain ⟨j, m, hbind, ⟨rfl, hm⟩ | ⟨hne, hdom⟩⟩ := ha name hv hparam
      · exact .inl (mem_names_take_iff.mpr ⟨m, hm, hbind⟩)
      · -- a dominator other than the block itself is on the path before it
        have hj : j ∈ l := (List.mem_cons.mp (hdom _ hp)).resolve_left hne
        exact .inr (.inl ⟨j, hj, hbind.mem_names⟩)

theorem holds_at_end (hf : f.Sound) (hp : (flowGraph f.blocks).Path i (i :: l))
    (hbinds : ∀ ty name own, v = .loc ty name own → Binds f.type f.params f.blocks name ty)
    (ha : AvailableAt f.params f.blocks i (f.blocks.get i).body.length v) :
    (along f (i :: l)).holds v = true := by
  have := holds_of_available hf hp hbinds ha
  rw [List.take_length] at this
  rw [along_cons]
  exact this

theorem foldlM_step_eq_some {body : List Named}
    (h : ∀ k n, body[k]? = some n → n.instr.isPhi = false → ∀ v ∈ n.instr.operands,
      holds (((body.take k).filterMap Named.binding?).reverse ++ env) v = true) :
    body.foldlM step env = some ((body.filterMap Named.binding?).reverse ++ env) := by
  induction body generalizing env with
  | nil => rfl
  | cons n body ih =>
    have hcons : ∀ rest : List Named, ((n :: rest).filterMap Named.binding?).reverse ++ env =
        (rest.filterMap Named.binding?).reverse ++ (n.binding?.toList ++ env) := by
      intro rest
      cases hn : n.binding? <;> simp [hn]
    have hstep : step env n = some (n.binding?.toList ++ env) := by
      rw [step, if_pos]
      cases hphi : n.instr.isPhi with
      | true => rfl
      | false => simpa using h 0 n rfl hphi
    rw [List.foldlM_cons, hstep, hcons]
    refine ih fun k n' hn' hphi v hv => ?_
    rw [← hcons]
    exact h (k + 1) n' hn' hphi v hv

/-- A block runs through, on any path. -/
theorem runBlock_along (hf : f.Sound) (hp : (flowGraph f.blocks).Path i (i :: l)) :
    (along f l).runBlock (f.blocks.get i) = some (along f (i :: l)) := by
  obtain ⟨scope, hw⟩ := hf.wellFormed
  have hbinds : ∀ v ∈ (f.blocks.get i).reads, ∀ ty name own, v = .loc ty name own →
      Binds f.type f.params f.blocks name ty := by
    rintro v hv ty name own rfl
    exact hf.binds (List.get_mem f.blocks i) hv
  have hbody : (f.blocks.get i).body.foldlM step (along f l) = some (along f (i :: l)) := by
    rw [along_cons]
    refine foldlM_step_eq_some fun k n hn hphi v hv => ?_
    refine holds_of_available hf hp (hbinds v ?_) (hw.uses i hp.reachable k n hn hphi v hv)
    exact Block.mem_reads_iff.mpr (.inl ⟨n, List.mem_of_getElem? hn, hv⟩)
  have hend : (f.blocks.get i).terminator.operands.all (along f (i :: l)).holds = true := by
    rw [List.all_eq_true]
    intro v hv
    exact holds_at_end hf hp (hbinds v (Block.mem_reads_iff.mpr (.inr hv)))
      (hw.terminators i hp.reachable v hv)
  rw [runBlock, hbody]
  exact if_pos hend

/-- The phis of a block can be read on every edge to it. -/
theorem arrives_along (hf : f.Sound) (hp : (flowGraph f.blocks).Path p (p :: l))
    (edge : i ∈ (flowGraph f.blocks).succ p) {n : Named} (hn : n ∈ (f.blocks.get i).body) :
    (along f (p :: l)).arrives (f.blocks.get p).label n.instr = true := by
  obtain ⟨scope, hw⟩ := hf.wellFormed
  cases hphi : n.instr with
  | phi ty incoming =>
    obtain ⟨hnodup, hlabels⟩ := hw.phis _ (List.get_mem f.blocks i) n hn ty incoming hphi
    have hlabel : (f.blocks.get p).label ∈ incoming.map (·.2) := (hlabels _).mpr
      ⟨_, List.get_mem f.blocks p, rfl, (mem_succ_iff_label hf.distinct.labels).mp edge⟩
    obtain ⟨v, hv, hfilter⟩ := exists_filter_eq_singleton hnodup hlabel
    rw [arrives, hfilter]
    refine holds_at_end hf hp ?_
      (hw.arrivals i p (hp.step edge).reachable hp.reachable n hn ty incoming hphi v hv)
    rintro ty' name own rfl
    exact hf.binds (List.get_mem f.blocks i) (Block.mem_of_phi hn hphi hv).1
  | _ => rfl

theorem follow_along (hf : f.Sound) (hp : (flowGraph f.blocks).Path p (p :: l))
    {rest : List Block} (hmem : ∀ b ∈ rest, b ∈ f.blocks)
    (hrest : (f.blocks.get p :: rest).IsChain fun a b => b.label ∈ a.terminator.successors) :
    (along f (p :: l)).follow (f.blocks.get p).label rest =
      some ((rest.flatMap Block.bindings).reverse ++ along f (p :: l)) := by
  -- the path grows by one block at a time, and with it what is defined
  induction rest generalizing p l with
  | nil => rfl
  | cons b rest ih =>
    obtain ⟨hedge, hrest⟩ := List.isChain_cons_cons.mp hrest
    obtain ⟨i, rfl⟩ := List.mem_iff_get.mp (hmem b List.mem_cons_self)
    have edge : i ∈ (flowGraph f.blocks).succ p := (mem_succ_iff_label hf.distinct.labels).mpr hedge
    have harrive : ((f.blocks.get i).body.all fun n =>
        (along f (p :: l)).arrives (f.blocks.get p).label n.instr) = true := by
      rw [List.all_eq_true]
      exact fun n hn => arrives_along hf hp edge hn
    rw [follow, if_pos harrive, runBlock_along hf (hp.step edge)]
    show follow _ _ _ = _
    rw [ih (hp.step edge) (fun b hb => hmem b (List.mem_cons_of_mem _ hb)) hrest, along_cons,
      List.flatMap_cons, List.reverse_append, List.append_assoc]

end Env

namespace Func

/-- No execution of a finished function reads an undefined local: along every path, of any length,
all reads find what they read, and what is defined at the end are the parameters and what the blocks
on the path bind. -/
theorem exec_eq_some {f : Func} (hf : f.Finished) {path : List Block} (hp : f.Walk path) :
    f.exec path = some ((path.flatMap Block.bindings).reverse ++ f.params.zip f.type.params) := by
  cases path with
  | nil => rfl
  | cons b rest =>
    obtain ⟨p, hp0, rfl⟩ : ∃ p : Fin f.blocks.length, p.val = 0 ∧ f.blocks.get p = b := by
      obtain ⟨hlt, hb⟩ := List.getElem?_eq_some_iff.mp
        (List.head?_eq_getElem? ▸ hp.first.symm : f.blocks[0]? = some b)
      exact ⟨⟨0, hlt⟩, rfl, hb⟩
    have hstart : (flowGraph f.blocks).Path p [p] := .entry hp0
    have hfollow := Env.follow_along hf.sound hstart
      (fun b hb => hp.mem b (List.mem_cons_of_mem _ hb)) hp.follows
    have hrun : Env.runBlock (f.params.zip f.type.params) (f.blocks.get p) = _ :=
      Env.runBlock_along hf.sound hstart
    rw [exec, hrun]
    show Env.follow _ _ _ = _
    rw [hfollow, Env.along_cons, List.flatMap_cons, List.reverse_append, List.append_assoc]
    rfl

theorem finished_countdown : Builder.countdownFunc.Finished :=
  ⟨Builder.countdown, Builder.reachable_countdown, Builder.finish_countdown⟩

/-- Twice round the loop. -/
theorem exec_countdown_twice :
    (Builder.countdownFunc.exec ([0, 1, 1, 2].filterMap (Builder.countdownFunc.blocks[·]?))).map
        (·.map Prod.fst) =
      some ([3, 2, 1, 3, 2, 1, 0].map .number) := by
  rw [exec_eq_some finished_countdown ⟨by decide +kernel, fun b hb => ?_, by decide⟩]
  · decide +kernel
  · obtain ⟨k, -, hk⟩ := List.mem_filterMap.mp hb
    exact List.mem_of_getElem? hk

end Func

end TypedSSA
