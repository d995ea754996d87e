import TypedSSA.Proofs.Builder.Runs

/-!
# What a builder keeps to

Every builder that operations make of a new one, whether they succeed or fail, is `Consistent`: its
names and labels are distinct, and what is in its blocks is well typed and in order. Names and
labels are the matter of `Builder.Inv`. The other half is said block by block (`OpenBlock.InOrder`),
with the terminators apart (`Builder.WellTyped`), and kept by every change to a builder.
-/

namespace TypedSSA

/-- The phis of a body come before all other instructions. -/
def PhisFirst (body : List Named) : Prop :=
  ∃ phis rest : List Named, body = phis ++ rest ∧
    (∀ n ∈ phis, n.instr.isPhi = true) ∧ ∀ n ∈ rest, n.instr.isPhi = false

theorem PhisFirst.concat {body : List Named} (h : PhisFirst body) {n : Named}
    (hn : n.instr.isPhi = true → ∀ m ∈ body, m.instr.isPhi = true) : PhisFirst (body ++ [n]) := by
  cases hphi : n.instr.isPhi with
  | true =>
    refine ⟨body ++ [n], [], (List.append_nil _).symm, fun m hm => ?_, fun m hm => nomatch hm⟩
    rcases List.mem_append.mp hm with hm | hm
    · exact hn hphi m hm
    · exact List.mem_singleton.mp hm ▸ hphi
  | false =>
    obtain ⟨phis, rest, rfl, hphis, hrest⟩ := h
    refine ⟨phis, rest ++ [n], List.append_assoc .., hphis, fun m hm => ?_⟩
    rcases List.mem_append.mp hm with hm | hm
    · exact hrest m hm
    · exact List.mem_singleton.mp hm ▸ hphi

/-- What holds of the instructions of a block, closed or open. -/
structure OpenBlock.InOrder (block : OpenBlock) : Prop where
  phis : PhisFirst block.body
  /-- No values can arrive at the entry. -/
  entry : block.label = entryLabel → ∀ n ∈ block.body, n.instr.isPhi = false
  checked (n : Named) : n ∈ block.body → n.Checked

theorem OpenBlock.inOrder_nil (label : Label) : InOrder ⟨label, []⟩ where
  phis := ⟨[], [], rfl, by simp, by simp⟩
  entry := by simp
  checked := by simp

/-- A phi may follow phis only, and none may stand in the entry. This is what the builder makes sure
of before it puts an instruction into the block. -/
theorem OpenBlock.InOrder.push {block : OpenBlock} (h : block.InOrder) {n : Named}
    (checked : n.Checked)
    (phi : n.instr.isPhi = true →
      (∀ m ∈ block.body, m.instr.isPhi = true) ∧ block.label ≠ entryLabel) :
    InOrder { block with body := block.body ++ [n] } where
  phis := h.phis.concat fun hn => (phi hn).1
  entry hlabel m hm := by
    rcases List.mem_append.mp hm with hm | hm
    · exact h.entry hlabel m hm
    · rw [List.mem_singleton.mp hm, ← Bool.not_eq_true]
      exact fun hn => (phi hn).2 hlabel
  checked m hm := by
    rcases List.mem_append.mp hm with hm | hm
    · exact h.checked m hm
    · exact List.mem_singleton.mp hm ▸ checked

namespace Builder

variable {type : FuncType} {b b' : Builder type}

/-- The closed blocks, without their terminators, and then the open one. -/
def started (b : Builder type) : List OpenBlock :=
  b.blocks.map (fun block => ⟨block.label, block.body⟩) ++ b.current.toList

/-- All instructions are well typed and in order, and all terminators are well typed. -/
structure WellTyped (b : Builder type) : Prop where
  started (block : OpenBlock) : block ∈ b.started → block.InOrder
  terminators (block : Block) : block ∈ b.blocks → block.terminator.check type.ret = .ok ()

theorem wellTyped_new (scope : Scope) (label : Label) : (new type scope label).1.WellTyped := by
  refine ⟨fun block hblock => ?_, fun _ h => nomatch h⟩
  obtain rfl : block = ⟨entryLabel, []⟩ := List.mem_singleton.mp hblock
  exact OpenBlock.inOrder_nil _

/-- An instruction is checked when it is put into a block, and a terminator when the block is
closed. Nothing else is ever changed. -/
theorem WellTyped.change (h : b.WellTyped) (hc : Change b b') : b'.WellTyped := by
  cases hc with
  | names later grows => exact ⟨h.started, h.terminators⟩
  | push later block n grows isOpen checked isNew phi =>
    refine ⟨fun other hother => ?_, h.terminators⟩
    rcases List.mem_append.mp hother with hother | hother
    · exact h.started other (List.mem_append_left _ hother)
    · obtain rfl := List.mem_singleton.mp hother
      refine OpenBlock.InOrder.push (h.started block ?_) checked phi
      simp [Builder.started, isOpen]
  | close block t isOpen checked =>
    have hblock : block ∈ b.started := by simp [Builder.started, isOpen]
    refine ⟨fun other hother => ?_, fun other hother => ?_⟩
    · simp only [Builder.started, List.map_append, List.map_cons, List.map_nil, Option.toList_none,
        List.append_nil] at hother
      rcases List.mem_append.mp hother with hother | hother
      · exact h.started other (List.mem_append_left _ hother)
      · exact List.mem_singleton.mp hother ▸ h.started block hblock
    · rcases List.mem_append.mp hother with hother | hother
      · exact h.terminators other hother
      · exact List.mem_singleton.mp hother ▸ checked
  | start label isClosed isNew =>
    refine ⟨fun other hother => ?_, h.terminators⟩
    rcases List.mem_append.mp hother with hother | hother
    · exact h.started other (List.mem_append_left _ hother)
    · exact List.mem_singleton.mp hother ▸ OpenBlock.inOrder_nil label

theorem Reachable.wellTyped (h : b.Reachable) : b.WellTyped :=
  h.induction wellTyped_new fun hb hc => hb.change hc

/-- What a builder keeps to, whatever is asked of it. -/
structure Consistent (b : Builder type) : Prop where
  params : b.params = (List.range type.params.length).map .number
  /-- No two locals have one name, in whatever blocks they are. -/
  names : (b.params ++ b.boundNames).Nodup
  mem_labels (label : Label) : label ∈ b.labels ↔ label ∈ b.started.map OpenBlock.label
  labels : (b.started.map OpenBlock.label).Nodup
  /-- The first block is the entry, and no other is. -/
  entry : ∃ first rest, b.started = first :: rest ∧ first.label = entryLabel ∧
    ∀ block ∈ rest, block.label ≠ entryLabel
  phis (block : OpenBlock) : block ∈ b.started → PhisFirst block.body
  entry_phis (block : OpenBlock) : block ∈ b.started → block.label = entryLabel →
    ∀ n ∈ block.body, n.instr.isPhi = false
  instrs (block : OpenBlock) : block ∈ b.started → ∀ n ∈ block.body,
    n.instr.check = .ok n.resultType
  terminators (block : Block) : block ∈ b.blocks → block.terminator.check type.ret = .ok ()

theorem map_label_started (b : Builder type) :
    b.started.map OpenBlock.label = b.startedLabels := by
  simp [started, startedLabels, Function.comp_def]

/-- Whatever operations are performed on a new builder, and whether they succeed or fail, the
builder is consistent afterwards. -/
theorem Reachable.consistent (h : b.Reachable) : b.Consistent := by
  have hinv := h.inv
  have htyped := h.wellTyped
  have hlabels := map_label_started b
  refine ⟨hinv.params, hinv.names, fun label => hlabels ▸ hinv.mem_labels label,
    hlabels ▸ hinv.labels, ?_, fun block hb => (htyped.started block hb).phis,
    fun block hb => (htyped.started block hb).entry,
    fun block hb n hn => (htyped.started block hb).checked n hn, htyped.terminators⟩
  have hfirst := hinv.first
  have hnodup := hinv.labels
  rw [← hlabels] at hfirst hnodup
  cases hs : b.started with
  | nil => simp [hs] at hfirst
  | cons first rest =>
    rw [hs, List.map_cons, List.head?_cons, Option.some.injEq] at hfirst
    rw [hs, List.map_cons, List.nodup_cons, hfirst] at hnodup
    exact ⟨first, rest, rfl, hfirst, fun block hb e => hnodup.1 (e ▸ List.mem_map_of_mem hb)⟩

/-- A builder on which half of the operations have failed: a phi in the entry, a symbol that is
taken, a branch on a number, a second entry, and a phi after another instruction. -/
def thwarted : Builder ⟨[.bool], .void⟩ :=
  let flag : Typed.Operand .bool := .name ⟨⟨0⟩, .number 0⟩
  let merge : Instr :=
    .phi .bool [(.loc .bool (.symbol "x") none, "entry"), (.loc .bool (.number 3) none, "loop")]
  (new _ ⟨0⟩ "f").1.performAll
    [.tryBind merge,
      .bindAs "x" (.cmp .eq flag (.literal (.bool true))),
      .bindAs "x" (.cmp .ne flag (.literal (.bool true))),
      .tryTerminate (.condBr (.const .i32 (.int 2) rfl) "loop" "loop"),
      .tryTerminate (.br "loop"),
      .startBlock "entry",
      .startBlock "loop",
      .tryBind merge,
      .tryBind (.cmp .ne (.loc .bool (.number 2) none) flag.erase),
      .tryBind merge]

theorem consistent_thwarted : thwarted.Reachable ∧ thwarted.Consistent ∧
    thwarted.boundNames = [.symbol "x", .number 2, .number 3] ∧ thwarted.names.nextLocal = 5 :=
  have h : thwarted.Reachable := (Reachable.new _ _).performAll _
  ⟨h, h.consistent, by decide, by decide⟩

end Builder

end TypedSSA
