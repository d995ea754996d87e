import TypedSSA.Proofs.LLVM.Faithful
import TypedSSA.Proofs.LLVM.Target

/-!
# What arrives at phis

A phi has one pair for each block that control can come from, and LLVM wants one for each edge,
where a terminator may name a block more than once. So a pair is added as many times as there are
edges. That this gives each edge just one entry (`Merges`) is a matter of counting: no pair is
counted twice as no two have one label, and no edge is left out as every block with an edge to the
phi's has a pair (`Func.Sound.perm_edgesInto`). It does not matter whether control can get to any of
the blocks, or whether a block has an edge to itself.

`Target.compile_merges` says so of all calls that a compilation makes.
-/

namespace TypedSSA

/-- The edges into the block with this label, each as the label of the block that it comes from. -/
def Func.edgesInto (f : Func) (target : Label) : List Label :=
  f.blocks.flatMap fun p => List.replicate (p.terminator.successors.count target) p.label

theorem Func.count_edgesInto (f : Func) (source target : Label) :
    (f.edgesInto target).count source = edges f.blocks source target := by
  rw [edgesInto, edges, List.count_flatMap, List.count_flatMap]
  refine congrArg List.sum (List.map_congr_left fun p _ => ?_)
  simp only [Function.comp_apply, List.count_replicate, beq_iff_eq]
  split <;> simp

/-- Copies of different labels do not mix. -/
theorem count_flatMap_replicate {labels : List Label} (h : labels.Nodup) (copies : Label → Nat)
    (label : Label) :
    (labels.flatMap fun l => List.replicate (copies l) l).count label =
      if label ∈ labels then copies label else 0 := by
  induction labels with
  | nil => rfl
  | cons l labels ih =>
    rw [List.nodup_cons] at h
    rw [List.flatMap_cons, List.count_append, ih h.2, List.count_replicate]
    by_cases hl : l = label
    · subst hl
      simp [h.1]
    · simp [hl, Ne.symm hl]

namespace Func.Sound

variable {f : Func} {b : Block} {name : LocalName} {ty s : Scalar}
  {incoming : List (Value × Label)}

/-- With a pair repeated for each edge from its block, there is one for each edge into the phi's
block. -/
theorem perm_edgesInto (hf : f.Sound) (hb : b ∈ f.blocks)
    (hphi : .bind name ty (.phi s incoming) ∈ b.body) :
    ((incoming.map Prod.snd).flatMap fun l => List.replicate (edges f.blocks l b.label) l).Perm
      (f.edgesInto b.label) := by
  obtain ⟨scope, hw⟩ := hf.wellFormed
  obtain ⟨hnodup, hlabels⟩ := hw.phis b hb _ hphi s incoming rfl
  refine List.perm_iff_count.mpr fun label => ?_
  rw [count_flatMap_replicate hnodup, count_edgesInto]
  split
  · rfl
  · rename_i hmem
    rw [hlabels] at hmem
    refine (List.count_eq_zero.mpr fun hcount => hmem ?_).symm
    obtain ⟨p, hp, hmem'⟩ := List.mem_flatMap.mp hcount
    split at hmem'
    · rename_i hlabel
      exact ⟨p, hp, hlabel, hmem'⟩
    · cases hmem'

/-- There is only one pair with a label. -/
theorem filter_incoming (hf : f.Sound) (hb : b ∈ f.blocks)
    (hphi : .bind name ty (.phi s incoming) ∈ b.body) {p : Value × Label} (hp : p ∈ incoming) :
    (incoming.filter fun q => q.2 = p.2) = [p] := by
  obtain ⟨scope, hw⟩ := hf.wellFormed
  have hnodup := (hw.phis b hb _ hphi s incoming rfl).1
  obtain ⟨pre, post, rfl⟩ := List.append_of_mem hp
  rw [List.map_append, List.map_cons, List.nodup_middle, ← List.map_append] at hnodup
  have hne : ∀ q ∈ pre ++ post, ¬ q.2 = p.2 := fun q hq e =>
    (List.nodup_cons.mp hnodup).1 (e ▸ List.mem_map_of_mem hq)
  rw [List.forall_mem_append] at hne
  rw [List.filter_append, List.filter_cons_of_pos (by simp),
    List.filter_eq_nil_iff.mpr fun q hq => decide_eq_true_iff.not.mpr (hne.1 q hq),
    List.filter_eq_nil_iff.mpr fun q hq => decide_eq_true_iff.not.mpr (hne.2 q hq),
    List.nil_append]

end Func.Sound

namespace LLVM

/-- What is added to a phi. -/
def Call.incoming? : Call → Option (Val × List (Val × BlockRef))
  | addIncoming phi incoming => some (phi, incoming)
  | _ => none

/-- The module that is verified. -/
def Call.verified? : Call → Option Nat
  | verifyModule module => some module
  | _ => none

/-- The phis of blocks in this order, each with its block. -/
def phisOf (order : List Block) : List (Block × LocalName × List (Value × Label)) :=
  order.flatMap fun b => b.phis.map (Prod.mk b)

/-- The phi of block `q.1` that is called `q.2.1` gets what is to arrive at it: there is an entry
for each edge into the block, and it has the value of the only pair with the label of the block that
the edge comes from. -/
structure Emission.Merges (e : Emission) (q : Block × LocalName × List (Value × Label))
    (added : Val × List (Val × BlockRef)) : Prop where
  phi : added.1 = e.values q.2.1
  edges : (added.2.map Prod.snd).Perm
    ((e.func.edgesInto q.1.label).map fun label => ⟨e.func.label, label⟩)
  values (entry : Val × BlockRef) : entry ∈ added.2 →
    ∃ v, (q.2.2.filter fun p => p.2 = entry.2.label) = [(v, entry.2.label)] ∧
      entry.1 = e.values.value v

/-! ## Steps -/

section Steps

variable {f : Func} {builder : Nat} {ρ : Valuation} {s : Step} {calls : List Call} {c : Call}

/-- What is added to a phi of block `target`: each value once for each edge that it arrives by. -/
def arrivals (f : Func) (ρ : Valuation) (target : Label) (incoming : List (Value × Label)) :
    List (Val × BlockRef) :=
  incoming.flatMap fun p =>
    List.replicate (edges f.blocks p.2 target) (ρ.value p.1, ⟨f.label, p.2⟩)

/-- What a step adds to a phi. -/
def Step.incoming? (f : Func) (ρ : Valuation) : Step → Option (Val × List (Val × BlockRef))
  | merge target name incoming => some (ρ name, arrivals f ρ target incoming)
  | _ => none

theorem InstrCalls.addsCode {i : Instr} {v : Val} (h : InstrCalls builder ρ i calls v)
    (hc : c ∈ calls) : c.AddsCode builder ∧ c.incoming? = none := by
  cases h with
  | call =>
    rcases List.mem_cons.mp hc with rfl | hc
    · exact ⟨rfl, rfl⟩
    · obtain ⟨a, -, rfl⟩ := List.mem_map.mp hc
      exact ⟨trivial, rfl⟩
  | shift =>
    simp only [List.mem_cons, List.not_mem_nil, or_false] at hc
    rcases hc with rfl | rfl <;> exact ⟨rfl, rfl⟩
  | _ =>
    obtain rfl := List.mem_singleton.mp hc
    exact ⟨rfl, rfl⟩

theorem addsCode_terminatorCalls {function : Label} {t : Terminator}
    (hc : c ∈ terminatorCalls function builder ρ t) : c.AddsCode builder ∧ c.incoming? = none := by
  cases t with
  | switch scrutinee default cases =>
    rcases List.mem_cons.mp hc with rfl | hc
    · exact ⟨rfl, rfl⟩
    · obtain ⟨a, -, rfl⟩ := List.mem_map.mp hc
      exact ⟨trivial, rfl⟩
  | _ =>
    obtain rfl := List.mem_singleton.mp hc
    exact ⟨rfl, rfl⟩

theorem StepCalls.addsCode (h : StepCalls f builder ρ s calls) (hc : c ∈ calls) :
    c.AddsCode builder := by
  cases h with
  | enter label =>
    obtain rfl := List.mem_singleton.mp hc
    rfl
  | instr calls_eq names => exact (calls_eq.addsCode hc).1
  | leave t => exact (addsCode_terminatorCalls hc).1
  | merge target name incoming =>
    obtain rfl := List.mem_singleton.mp hc
    trivial

theorem StepCalls.filterMap_incoming (h : StepCalls f builder ρ s calls) :
    calls.filterMap Call.incoming? = (s.incoming? f ρ).toList := by
  cases h with
  | enter label => rfl
  | instr calls_eq names =>
    exact List.filterMap_eq_nil_iff.mpr fun c hc => (calls_eq.addsCode hc).2
  | leave t =>
    exact List.filterMap_eq_nil_iff.mpr fun c hc => (addsCode_terminatorCalls hc).2
  | merge target name incoming => rfl

/-- Values are added to phis by the steps for that and by no others, with one call each. -/
theorem Lowered.filterMap_incoming {known : List LocalName} {steps : List Step}
    (h : Lowered f builder ρ known steps calls) :
    calls.filterMap Call.incoming? = steps.filterMap (Step.incoming? f ρ) := by
  induction h with
  | nil => rfl
  | @cons _ s _ _ _ reads calls_eq rest ih =>
    rw [List.filterMap_append, calls_eq.filterMap_incoming, ih, List.filterMap_cons]
    cases s.incoming? f ρ <;> rfl

theorem filterMap_incoming_script (f : Func) (ρ : Valuation) (order : List Block) :
    (script order).filterMap (Step.incoming? f ρ) =
      (phisOf order).map fun q => (ρ q.2.1, arrivals f ρ q.1.label q.2.2) := by
  have hsteps : ∀ b : Block, b.steps.filterMap (Step.incoming? f ρ) = [] := fun b => by
    refine List.filterMap_eq_nil_iff.mpr fun s hs => ?_
    simp only [Block.steps, List.mem_cons, List.mem_append, List.mem_map, List.not_mem_nil,
      or_false] at hs
    rcases hs with rfl | ⟨n, -, rfl⟩ | rfl <;> rfl
  have hmerges : ∀ b : Block, b.merges.filterMap (Step.incoming? f ρ) =
      (b.phis.map (Prod.mk b)).map fun q => (ρ q.2.1, arrivals f ρ q.1.label q.2.2) := fun b => by
    rw [Block.merges, List.filterMap_map, List.map_map]
    exact congrFun List.filterMap_eq_map b.phis
  simp only [script, List.filterMap_append, List.filterMap_flatMap, hsteps, hmerges, phisOf,
    List.map_flatMap]
  rw [List.flatMap_eq_nil_iff.mpr fun _ _ => rfl, List.nil_append]

end Steps

/-! ## Functions -/

theorem exists_mem_phisOf {order : List Block} {q : Block × LocalName × List (Value × Label)}
    (hq : q ∈ phisOf order) :
    q.1 ∈ order ∧ ∃ ty s, .bind q.2.1 ty (.phi s q.2.2) ∈ q.1.body := by
  obtain ⟨b, hb, hq⟩ := List.mem_flatMap.mp hq
  obtain ⟨p, hp, rfl⟩ := List.mem_map.mp hq
  obtain ⟨n, hn, hphi⟩ := List.mem_filterMap.mp hp
  unfold Named.phi? at hphi
  split at hphi
  · cases hphi
    exact ⟨hb, _, _, hn⟩
  · cases hphi

namespace Emission

variable {e : Emission}

/-- What is added to a phi of the function is what is to arrive at it. -/
theorem merges_arrivals (hf : e.func.Sound) {q : Block × LocalName × List (Value × Label)}
    (hb : q.1 ∈ e.func.blocks) {ty s : Scalar}
    (hphi : .bind q.2.1 ty (.phi s q.2.2) ∈ q.1.body) :
    e.Merges q (e.values q.2.1, arrivals e.func e.values q.1.label q.2.2) where
  phi := rfl
  edges := by
    have hperm := (hf.perm_edgesInto hb hphi).map fun label => BlockRef.mk e.func.label label
    simpa only [arrivals, List.flatMap_map, List.map_flatMap, List.map_replicate] using hperm
  values entry hentry := by
    obtain ⟨p, hp, hentry⟩ := List.mem_flatMap.mp hentry
    obtain rfl := (List.mem_replicate.mp hentry).2
    exact ⟨p.1, hf.filter_incoming hb hphi hp, rfl⟩

/-- Each phi that has been reached is given the values that it merges: one for each edge into its
block, from the block that the edge comes from. -/
theorem forall₂_merges (hf : e.func.Sound) {order : List Block}
    (horder : order.Perm e.func.blocks) {reached : List (Block × LocalName × List (Value × Label))}
    (hreached : reached ⊆ phisOf order) :
    List.Forall₂ e.Merges reached (reached.map fun q =>
      (e.values q.2.1, arrivals e.func e.values q.1.label q.2.2)) := by
  rw [List.forall₂_map_right_iff, List.forall₂_same]
  intro q hq
  obtain ⟨hb, ty, s, hphi⟩ := exists_mem_phisOf (hreached hq)
  exact merges_arrivals hf (horder.mem_iff.mp hb) hphi

theorem Valid.merges (h : e.Valid) (hf : e.func.Sound) :
    ∃ order : List Block, order.Perm e.func.blocks ∧ ∃ reached, reached <+: phisOf order ∧
      List.Forall₂ e.Merges reached (e.body.filterMap Call.incoming?) := by
  obtain ⟨order, horder, hsteps⟩ := h.steps
  have hprefix := hsteps.filterMap (Step.incoming? e.func e.values)
  rw [filterMap_incoming_script, ← h.body.filterMap_incoming] at hprefix
  obtain ⟨reached, hreached, heq⟩ := List.prefix_map_iff.mp hprefix
  exact ⟨order, horder, reached, hreached, heq ▸ forall₂_merges hf horder hreached.subset⟩

theorem Complete.merges (h : e.Complete) (hf : e.func.Sound) :
    ∃ order : List Block, order.Perm e.func.blocks ∧
      List.Forall₂ e.Merges (phisOf order) (e.body.filterMap Call.incoming?) := by
  obtain ⟨order, horder, hsteps⟩ := h.steps
  refine ⟨order, horder, ?_⟩
  rw [h.body.filterMap_incoming, hsteps, filterMap_incoming_script]
  exact forall₂_merges hf horder (List.Subset.refl _)

end Emission

/-! ## Modules -/

/-- What the calls of a compilation add to phis. Here `bodies` are the functions that have been
lowered, the last one maybe in part. -/
structure Merging (m : Module) (bodies : List Emission) (calls : List Call) : Prop where
  funcs : bodies.map Emission.func <+: m.definitions
  /-- The values of a function are those that its calls give them. -/
  valid (e : Emission) : e ∈ bodies → e.Valid ∧ e.body <:+: calls
  /-- Nothing is added elsewhere. -/
  added : calls.filterMap Call.incoming? =
    bodies.flatMap fun e => e.body.filterMap Call.incoming?
  /-- Each phi of a function that lowering gets to is given what is to arrive at it, once. -/
  merges (e : Emission) : e ∈ bodies → ∃ order : List Block, order.Perm e.func.blocks ∧
    ∃ reached, reached <+: phisOf order ∧
      List.Forall₂ e.Merges reached (e.body.filterMap Call.incoming?)
  /-- Lowering gets to all phis of all functions before the module is verified. -/
  complete (module : Nat) : .verifyModule module ∈ calls →
    bodies.map Emission.func = m.definitions ∧
    ∀ e ∈ bodies, ∃ order : List Block, order.Perm e.func.blocks ∧
      List.Forall₂ e.Merges (phisOf order) (e.body.filterMap Call.incoming?)

section Modules

variable {m : Module} {r : Rendering} {context : Nat}

/-- Is made when a module is lowered, but adds no code. -/
def Call.Frames : Call → Prop
  | moduleCreate .. | setTarget .. | setDataLayout .. | addFunction .. | createBuilder ..
  | appendBasicBlock .. | disposeBuilder _ => True
  | _ => False

/-- What such calls do not show can be seen in the bodies alone. -/
theorem Rendering.filterMap_bodies {β : Type} {obs : Call → Option β}
    (hobs : ∀ c : Call, c.Frames → obs c = none) (context : Nat) (m : Module) (r : Rendering) :
    (r.calls context m).filterMap obs = r.bodies.flatMap fun e => e.body.filterMap obs := by
  have hadded : (r.added.filterMap fun p =>
      obs (.addFunction r.module p.1 (.ofFuncType p.2))) = [] :=
    List.filterMap_eq_nil_iff.mpr fun p _ => hobs _ trivial
  have happended : ∀ e : Emission, (e.appended.filterMap fun b =>
      obs (.appendBasicBlock context ⟨e.func.label, b.label⟩)) = [] := fun e =>
    List.filterMap_eq_nil_iff.mpr fun b _ => hobs _ trivial
  rw [filterMap_calls (hobs _ trivial) (hobs _ trivial) (hobs _ trivial), hadded, List.nil_append]
  refine List.flatMap_congr fun e _ => ?_
  rw [Emission.filterMap_calls (hobs _ trivial) (hobs _ trivial), happended, List.nil_append]

theorem Rendering.filterMap_incoming (context : Nat) (m : Module) (r : Rendering) :
    (r.calls context m).filterMap Call.incoming? =
      r.bodies.flatMap fun e => e.body.filterMap Call.incoming? := by
  refine r.filterMap_bodies (fun c hc => ?_) context m
  cases c with
  | addIncoming => cases hc
  | _ => rfl

/-- A module is not verified before it has been lowered. -/
theorem Rendering.Valid.filterMap_verified (h : r.Valid m) (context : Nat) :
    (r.calls context m).filterMap Call.verified? = [] := by
  rw [r.filterMap_bodies (fun c hc => ?_) context m]
  · refine List.flatMap_eq_nil_iff.mpr fun e he => List.filterMap_eq_nil_iff.mpr fun c hc => ?_
    obtain ⟨s, -, here, hhere, hc⟩ := (h.valid e he).body.exists_step hc
    have hcode := hhere.addsCode hc
    cases c with
    | verifyModule => cases hcode
    | _ => rfl
  · cases c with
    | verifyModule => cases hc
    | _ => rfl

theorem Rendering.body_infix (context : Nat) (m : Module) {e : Emission} (he : e ∈ r.bodies) :
    e.body <:+: r.calls context m :=
  have hcalls : e.body <:+: e.calls context := List.infix_append _ _ _
  have hcontent : e.calls context <:+: r.bodies.flatMap (Emission.calls context) :=
    List.infix_of_mem_flatten (List.mem_map_of_mem he)
  hcalls.trans (hcontent.trans ((List.suffix_append _ _).isInfix.trans
    (List.suffix_append _ _).isInfix))

/-- No values have been added, and no module has been verified. -/
def Outset : Assertion := fun _ past =>
  ∀ c ∈ past, c.incoming? = none ∧ c.verified? = none

/-- The module has been lowered, and after that no values have been added. -/
def Rendered (m : Module) : Assertion := fun _ past =>
  ∃ (context : Nat) (r : Rendering) (before after : List Call), r.Complete m ∧
    past = before ++ r.calls context m ++ after ∧ ∀ c ∈ before ++ after, c.incoming? = none

/-- What has been added is right, and no module has been verified but one that has been lowered. -/
def Merged (m : Module) : Assertion := fun _ past => ∃ bodies, Merging m bodies past

/-- If the calls around a rendering add no values to phis, all that are added are those of its
bodies. No module has been verified by then, unless the rendering is complete. -/
theorem Rendering.Valid.merging (h : r.Valid m) (hm : m.Reachable Func.Finished)
    {before after : List Call} (hnone : ∀ c ∈ before ++ after, c.incoming? = none)
    (hcomplete : r.Complete m ∨ ∀ c ∈ before ++ after, c.verified? = none) :
    Merging m r.bodies (before ++ r.calls context m ++ after) where
  funcs := h.bodies
  valid e he := ⟨h.valid e he, (r.body_infix context m he).trans (List.infix_append _ _ _)⟩
  added := by
    rw [List.forall_mem_append] at hnone
    rw [List.filterMap_append, List.filterMap_append, r.filterMap_incoming context m,
      List.filterMap_eq_nil_iff.mpr hnone.1, List.filterMap_eq_nil_iff.mpr hnone.2,
      List.nil_append, List.append_nil]
  merges e he := (h.valid e he).merges (hm.of_mem_definitions (h.func_mem he)).sound
  complete module hverified := by
    have hr : r.Complete m := by
      refine hcomplete.resolve_right fun hno => ?_
      have hcalls := List.filterMap_eq_nil_iff.mp (h.filterMap_verified context)
      rw [List.append_assoc, List.mem_append, List.mem_append] at hverified
      rcases hverified with hc | hc | hc
      · cases hno _ (List.mem_append_left _ hc)
      · cases hcalls _ hc
      · cases hno _ (List.mem_append_right _ hc)
    exact ⟨hr.bodies, fun e he =>
      (hr.complete e he).merges (hm.of_mem_definitions (h.func_mem he)).sound⟩

/-- As long as nothing is lowered, there is nothing to add. -/
theorem Outset.merged {counters : Counters} {past : List Call} (h : Outset counters past) :
    Merged m counters past := by
  refine ⟨[], List.nil_prefix, fun e he => (List.not_mem_nil he).elim, ?_,
    fun e he => (List.not_mem_nil he).elim, fun module hc => ?_⟩
  · exact List.filterMap_eq_nil_iff.mpr fun c hc => (h c hc).1
  · cases (h _ hc).2

/-- Lowering starts with no phi and no verified module. It ends with a rendering of the module, or
stops with a part of one. -/
theorem lowerModule_merged (hm : m.Reachable Func.Finished) (hv : m.validate = .ok ())
    (context : Nat) :
    Lower.Triple Outset (lowerModule context m) (fun _ => Rendered m) fun _ => Merged m := by
  intro replies counters past hpast
  obtain ⟨-, hok, hfailed⟩ := lowerModule_emits hm hv context replies counters
  cases hvalue : ((lowerModule context m).run replies counters).value with
  | ok module =>
    obtain ⟨r, -, hcomplete, hcalls⟩ := hok module hvalue
    refine ⟨context, r, past, [], hcomplete, by rw [hcalls, List.append_nil], fun c hc => ?_⟩
    rw [List.append_nil] at hc
    exact (hpast c hc).1
  | error e =>
    rcases hfailed e hvalue with hcalls | ⟨r, hvalid, hcalls⟩
    · rw [hcalls, List.append_nil]
      exact hpast.merged
    · rw [hcalls, ← List.append_assoc]
      have hnone : ∀ c ∈ past ++ [.disposeModule r.module],
          c.incoming? = none ∧ c.verified? = none :=
        List.forall_mem_append.mpr ⟨hpast, List.forall_mem_singleton.mpr ⟨rfl, rfl⟩⟩
      exact ⟨r.bodies, hvalid.merging hm (fun c hc => (hnone c hc).1)
        (.inr fun c hc => (hnone c hc).2)⟩

theorem settled_rendered : Assertion.Settled (Rendered m) := by
  rintro counters counters' past c hc - ⟨context, r, before, after, hr, rfl, hnone⟩
  refine ⟨context, r, before, after ++ [c], hr, by rw [List.append_assoc _ after], ?_⟩
  rw [← List.append_assoc, List.forall_mem_append]
  refine ⟨hnone, List.forall_mem_singleton.mpr ?_⟩
  cases c with
  | addIncoming => cases hc
  | _ => rfl

theorem Rendered.merged (hm : m.Reachable Func.Finished) {counters : Counters} {past : List Call}
    (h : Rendered m counters past) : Merged m counters past := by
  obtain ⟨context, r, before, after, hr, rfl, hnone⟩ := h
  exact ⟨r.bodies, hr.valid.merging hm hnone (.inl hr)⟩

theorem Merged.concat {counters : Counters} {past : List Call} {c : Call}
    (h : Merged m counters past) (hc : c.incoming? = none ∧ c.verified? = none) :
    Merged m counters (past ++ [c]) := by
  obtain ⟨bodies, h⟩ := h
  refine ⟨bodies, h.funcs, fun e he => ⟨(h.valid e he).1, ?_⟩, ?_, h.merges, fun module hmem => ?_⟩
  · exact (h.valid e he).2.trans (List.prefix_append _ _).isInfix
  · rw [List.filterMap_append, List.filterMap_cons_none hc.1, List.filterMap_nil,
      List.append_nil, h.added]
  · rcases List.mem_append.mp hmem with hmem | hmem
    · exact h.complete module hmem
    · obtain rfl := List.mem_singleton.mp hmem
      cases hc.2

end Modules

theorem Outset.concat {counters counters' : Counters} {past : List Call} {c : Call}
    (h : Outset counters past) (hc : c.incoming? = none ∧ c.verified? = none) :
    Outset counters' (past ++ [c]) :=
  List.forall_mem_append.mpr ⟨h, List.forall_mem_singleton.mpr hc⟩

/-- Describing a machine adds nothing to phis and verifies no module. -/
theorem Target.outset_describe (t : Target) (r : Replies) (counters : Counters) :
    Outset (t.describe r counters).counters (t.describe r counters).calls := by
  intro c hc
  have hother := t.not_ofCompilation_of_mem_describe r counters hc
  cases c with
  | addIncoming | verifyModule => exact absurd ⟨rfl, rfl⟩ hother
  | _ => exact ⟨rfl, rfl⟩

/-- In a compilation of finished functions, whatever the target and whatever LLVM replies, each phi
that lowering gets to is given one value for each edge into its block. -/
theorem Target.compile_merges {m : Module} (hm : m.Reachable Func.Finished) (t : Target)
    (replies : Replies) (counters : Counters) :
    ∃ bodies, Merging m bodies (t.compile m replies counters).calls := by
  have hdescribe := t.outset_describe replies counters
  cases hcheck : (t.describe replies counters).value.1.bind m.checkFor with
  | error e =>
    rw [compile_of_error hcheck]
    exact hdescribe.merged
  | ok _ =>
    obtain ⟨-, -, -, hv⟩ := Module.bind_checkFor_eq_ok_iff.mp hcheck
    have htriple := compileModule_triple
      (.create fun counters past (h : Outset counters past) => h.concat ⟨rfl, rfl⟩)
      (lowerModule_merged hm hv) settled_rendered
      (fun _ _ _ _ h => h.concat ⟨rfl, rfl⟩) (fun _ _ _ _ h => h.merged hm)
      (t.describe replies counters).value.2.options.level
    have hend := htriple replies _ _ hdescribe
    rw [compile_of_ok hcheck]
    generalize (compileModule (t.describe replies counters).value.2.options.level m).run replies
      (t.describe replies counters).counters = compiled at hend ⊢
    obtain ⟨value, counters', calls⟩ := compiled
    cases value with
    | ok jit =>
      have hrendered : Rendered m counters' _ := hend
      exact hrendered.merged hm
    | error e => exact hend

/-- Its second block can be entered by two edges from the first, by two from itself, and by one from
a block that control cannot get to. -/
def roundabout : Func where
  label := "f"
  type := ⟨[.i32, .bool], .scalar .i32⟩
  params := [.number 0, .number 1]
  blocks :=
    [⟨"entry", [], .switch (.loc .i32 (.number 0) none) "a" [(.int 1, "a")]⟩,
      ⟨"a",
        [.bind (.number 2) .i32 (.phi .i32 [(.one, "b"), (.loc .i32 (.number 0) none, "entry"),
          (.loc .i32 (.number 2) none, "a")])],
        .condBr (.loc .bool (.number 1) none) "a" "a"⟩,
      ⟨"b", [], .br "a"⟩]

theorem finished_roundabout : roundabout.Finished := by
  refine ⟨(Builder.new _ ⟨0⟩ "f").1.performAll
    [.tryTerminate (.switch (.loc .i32 (.number 0) none) "a" [(.int 1, "a")]),
      .startBlock "a",
      .tryBind (.phi .i32 [(.one, "b"), (.loc .i32 (.number 0) none, "entry"),
        (.loc .i32 (.number 2) none, "a")]),
      .tryTerminate (.condBr (.loc .bool (.number 1) none) "a" "a"),
      .startBlock "b",
      .tryTerminate (.br "a")],
    (Builder.Reachable.new _ _).performAll _, ?_⟩
  decide +kernel

def roundaboutModule : Module := ((Module.new "m" ⟨"x", ""⟩).define roundabout).2

/-- The calls that compile it for a machine that has been described. -/
def roundaboutCalls : List Call :=
  (Target.compile ⟨⟨.none, some "x"⟩, some (.ok ⟨"x", ""⟩)⟩ roundaboutModule {} {}).calls

/-- Its phi has three pairs, and is given five values. -/
theorem merges_roundabout : .verifyModule 0 ∈ roundaboutCalls ∧
    ∃ phi entries, roundaboutCalls.filterMap Call.incoming? = [(phi, entries)] ∧
      (entries.map Prod.snd).Perm [⟨"f", "entry"⟩, ⟨"f", "entry"⟩, ⟨"f", "a"⟩, ⟨"f", "a"⟩,
        ⟨"f", "b"⟩] := by
  have hreachable : roundaboutModule.Reachable Func.Finished :=
    .define (.new _ _) roundabout finished_roundabout
  have hverified : roundaboutCalls.contains (.verifyModule 0) = true := by decide +kernel
  rw [List.contains_iff_mem] at hverified
  obtain ⟨bodies, h⟩ := Target.compile_merges hreachable _ {} {}
  obtain ⟨hfuncs, hall⟩ := h.complete 0 hverified
  obtain ⟨e, rfl, he⟩ : ∃ e, bodies = [e] ∧ e.func = roundabout :=
    List.map_eq_singleton_iff.mp hfuncs
  obtain ⟨order, hperm, hphis⟩ := hall e (List.mem_singleton_self e)
  have horder : (phisOf order).Perm (phisOf roundabout.blocks) := he ▸ hperm.flatMap_right _
  rw [List.perm_singleton.mp horder] at hphis
  obtain ⟨added, rest, hmerges, hrest, hbody⟩ := List.forall₂_cons_left_iff.mp hphis
  rw [List.forall₂_nil_left_iff.mp hrest] at hbody
  refine ⟨hverified, added.1, added.2, ?_, ?_⟩
  · rw [roundaboutCalls, h.added, List.flatMap_singleton, hbody]
  · have hedges := hmerges.edges
    rwa [he] at hedges

end LLVM

end TypedSSA
