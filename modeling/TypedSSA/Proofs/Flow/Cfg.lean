import TypedSSA.Flow.Cfg
import TypedSSA.Proofs.Flow.Dominators

/-!
# The analyses of a flow graph

What `Cfg.ofBlocks` works out for a list of blocks, said with the paths of its flow graph: which
blocks control can get to (`Cfg.isReachable_iff`), which dominate which (`Cfg.dominates_iff`) and
which are the nearest to do so (`Cfg.exists_idom?`). Nothing is assumed of the blocks: labels may
repeat or name no block, and branches may go anywhere.

The walk lists the nodes that can be reached, each once and after those that dominate it, and the
order of emission is that list and then the other nodes (`Cfg.reversePostorder_dominators_first`).
`Cfg.mem_before_of_dominates` and `Cfg.mem_before_iff` say what it puts before a block.
-/

namespace TypedSSA

open TypedSSA.Flow (Graph Idoms)

variable {n : Nat} {g : Graph n} {a b d : Fin n}

/-- There is an edge for each label that names a block. -/
theorem mem_succ_flowGraph {blocks : List Block} {a b : Fin blocks.length} :
    b ∈ (flowGraph blocks).succ a ↔
      ∃ label ∈ (blocks.get a).terminator.successors, blockIndex? blocks label = some b := by
  rw [flowGraph, Graph.succ_ofFn, List.mem_filterMap]

namespace Cfg

theorem pred_ofGraph (g : Graph n) : (ofGraph g).pred b = g.pred b :=
  Vector.getElem_ofFn b.isLt

theorem get_preds_ofGraph (g : Graph n) : (ofGraph g).preds.get = g.pred :=
  funext fun _ => pred_ofGraph g

/-- The iteration gives a result. -/
theorem find?_ofGraph (g : Graph n) :
    Idoms.find? (ofGraph g).preds.get (ofGraph g).order = some (ofGraph g).idoms := by
  obtain ⟨idoms, hfind, -⟩ := Flow.exists_find? g.lists_reversePostorder
  rw [← get_preds_ofGraph] at hfind
  refine hfind.trans (congrArg some ?_)
  show idoms = (Idoms.find? (ofGraph g).preds.get g.reversePostorder).getD _
  rw [hfind, Option.getD_some]

/-- The iteration comes to an end, so the guesses that the analyses have are those that it ends
with, and not the ones in reserve. -/
theorem idoms_ofGraph (g : Graph n) : (ofGraph g).idoms.Correct g := by
  obtain ⟨idoms, hfind, hc⟩ := Flow.exists_find? g.lists_reversePostorder
  rw [← get_preds_ofGraph] at hfind
  rwa [← Option.some.inj (hfind.symm.trans (find?_ofGraph g))]

theorem isReachable_iff : (ofGraph g).isReachable b ↔ g.Reachable b :=
  (idoms_ofGraph g).isSome_iff b

/-- For a node that can be reached, the chain of its immediate dominators has all of its dominators.
-/
theorem dominates_iff (hb : g.Reachable b) : (ofGraph g).dominates a b ↔ g.Dominates a b := by
  rw [dominates, List.contains_iff_mem]
  exact (idoms_ofGraph g).mem_chain_iff hb

/-- A node that cannot be reached has no immediate dominator, so its chain is itself. -/
theorem dominates_iff_of_not_reachable (hb : ¬ g.Reachable b) :
    (ofGraph g).dominates a b ↔ a = b := by
  rw [dominates, List.contains_iff_mem, dominators,
    (idoms_ofGraph g).chain_eq_of_not_reachable hb, List.mem_singleton]

/-- The immediate dominator is the nearest of the strict dominators. -/
theorem exists_idom? (hb : g.Reachable b) (h0 : b.val ≠ 0) :
    ∃ d, (ofGraph g).idom? b = some d ∧ d ≠ b ∧ g.Dominates d b ∧
      ∀ a, a ≠ b → g.Dominates a b → g.Dominates a d := by
  have hc := idoms_ofGraph g
  obtain ⟨d, hd⟩ := Option.isSome_iff_exists.mp ((hc.isSome_iff b).mpr hb)
  exact ⟨d, hd, hc.ne b d hd h0, hc.dominates b d hd, fun a ha h => hc.nearest b d a hd h ha⟩

/-- The analyses of any list of blocks agree with the paths along the edges that its labels make:
which blocks can be reached, which dominate which, and which are immediate dominators. A block that
cannot be reached is dominated by itself alone. -/
theorem ofBlocks_analyses (blocks : List Block) :
    (∀ a b, b ∈ (flowGraph blocks).succ a ↔
      ∃ label ∈ (blocks.get a).terminator.successors, blockIndex? blocks label = some b) ∧
    (∀ b, (ofBlocks blocks).isReachable b = true ↔ (flowGraph blocks).Reachable b) ∧
    (∀ a b, (flowGraph blocks).Reachable b →
      ((ofBlocks blocks).dominates a b = true ↔ ∀ l, (flowGraph blocks).Path b l → a ∈ l)) ∧
    (∀ b, (flowGraph blocks).Reachable b → b.val ≠ 0 →
      ∃ d, (ofBlocks blocks).idom? b = some d ∧ d ≠ b ∧ (flowGraph blocks).Dominates d b ∧
        ∀ a, a ≠ b → (flowGraph blocks).Dominates a b → (flowGraph blocks).Dominates a d) ∧
    (∀ a b, ¬ (flowGraph blocks).Reachable b →
      ((ofBlocks blocks).dominates a b = true ↔ a = b)) :=
  ⟨fun _ _ => mem_succ_flowGraph, fun _ => isReachable_iff, fun _ _ hb => dominates_iff hb,
    fun _ hb h0 => exists_idom? hb h0, fun _ _ hb => dominates_iff_of_not_reachable hb⟩

/-- A loop that control can enter at either of its blocks. -/
def twoEntries : List Block :=
  [⟨"entry", [], .condBr (.const .bool (.bool true) rfl) "left" "right"⟩,
    ⟨"left", [], .br "right"⟩,
    ⟨"right", [], .br "left"⟩]

/-- Neither block of the loop dominates the other, as one is reached without the other. -/
theorem idom?_twoEntries :
    (ofBlocks twoEntries).idom? ⟨2, by decide⟩ = some ⟨0, by decide⟩ := by
  have hpath : (flowGraph twoEntries).Path ⟨2, by decide⟩ [⟨2, by decide⟩, ⟨0, by decide⟩] :=
    .step (.entry rfl) (by decide)
  obtain ⟨d, hd, hne, hdom, -⟩ := (ofBlocks_analyses twoEntries).2.2.2.1 _ ⟨_, hpath⟩ (by decide)
  have hmem := hdom _ hpath
  simp only [List.mem_cons, List.not_mem_nil, or_false] at hmem
  rw [hd, hmem.resolve_left hne]

/-! ## The order of emission -/

theorem lists_order : g.Lists (ofGraph g).order := g.lists_reversePostorder

theorem mem_filter_not_isReachable :
    (b ∈ (List.finRange n).filter fun b => !(ofGraph g).isReachable b) ↔ ¬ g.Reachable b := by
  simp [← isReachable_iff]

theorem mem_emissionOrder (b : Fin n) : b ∈ (ofGraph g).emissionOrder := by
  rw [emissionOrder, List.mem_append, lists_order.mem_iff, mem_filter_not_isReachable]
  exact Classical.em _

theorem nodup_emissionOrder : (ofGraph g).emissionOrder.Nodup := by
  refine lists_order.nodup.append ((List.nodup_finRange n).filter _) fun b hb hb' => ?_
  exact mem_filter_not_isReachable.mp hb' ((lists_order.mem_iff b).mp hb)

/-- Every node is emitted once, since it can be reached or it cannot. -/
theorem perm_finRange_emissionOrder (g : Graph n) :
    (ofGraph g).emissionOrder.Perm (List.finRange n) := by
  refine (List.perm_ext_iff_of_nodup nodup_emissionOrder (List.nodup_finRange n)).mpr fun b => ?_
  exact iff_of_true (mem_emissionOrder b) (List.mem_finRange b)

/-- Reverse postorder has the nodes that can be reached, each once. It starts with the entry, and a
node comes after those that every path to it goes through. With the other nodes behind it, in
ascending order, it is an order of all of them. -/
theorem reversePostorder_dominators_first (g : Graph n) :
    g.reversePostorder.Nodup ∧
    (∀ b, b ∈ g.reversePostorder ↔ g.Reachable b) ∧
    (∀ hpos : 0 < n, g.reversePostorder.head? = some ⟨0, hpos⟩) ∧
    (∀ a b, a ≠ b → g.Reachable a → g.Reachable b → (∀ l, g.Path b l → a ∈ l) →
      g.reversePostorder.idxOf a < g.reversePostorder.idxOf b) ∧
    (ofGraph g).emissionOrder = g.reversePostorder ++
      (List.finRange n).filter (fun b => !(ofGraph g).isReachable b) ∧
    (ofGraph g).emissionOrder.Perm (List.finRange n) := by
  have hl := g.lists_reversePostorder
  refine ⟨hl.nodup, hl.mem_iff, fun hpos => ?_, fun a b hne _ hb hdom => ?_, rfl,
    perm_finRange_emissionOrder g⟩
  · exact hl.head?_eq_entry rfl
  · exact hl.idxOf_lt_of_dominates hb hne hdom

/-- A loop of two nodes with a way out of each, and a node that nothing leads to. -/
def twoExits : Graph 5 := ⟨#v[[1], [3, 2], [1, 3], [], [3]]⟩

/-- The first node of the loop is on every path to its exit, as control gets to no other node but
the entry without it. -/
theorem idxOf_lt_twoExits : (∀ l, twoExits.Path 3 l → 1 ∈ l) ∧
    twoExits.reversePostorder.idxOf 1 < twoExits.reversePostorder.idxOf 3 := by
  have hpath : ∀ b l, twoExits.Path b l → b = 0 ∨ 1 ∈ l := by
    intro b l hp
    induction hp with
    | entry first => exact .inl (Fin.ext first)
    | @step a b l _ edge ih =>
      rcases ih with rfl | hmem
      · obtain rfl : b = 1 := List.mem_singleton.mp edge
        exact .inr List.mem_cons_self
      · exact .inr (List.mem_cons_of_mem _ hmem)
  have hdom : ∀ l, twoExits.Path 3 l → 1 ∈ l := fun l hp => (hpath 3 l hp).resolve_left (by decide)
  have hfirst : twoExits.Reachable 1 := (Graph.reachable_entry (b := 0) rfl).succ (by decide)
  have hlast : twoExits.Reachable 3 := hfirst.succ (by decide)
  obtain ⟨-, -, -, hbefore, -⟩ := reversePostorder_dominators_first twoExits
  exact ⟨hdom, hbefore 1 3 (by decide) hfirst hlast hdom⟩

/-- A node that can be reached comes after those that dominate it. -/
theorem mem_before_of_dominates {before after : List (Fin n)}
    (horder : (ofGraph g).emissionOrder = before ++ b :: after) (hb : g.Reachable b) (hne : a ≠ b)
    (h : g.Dominates a b) : a ∈ before := by
  have hl : g.Lists (ofGraph g).order := lists_order
  have ha := (hl.mem_iff a).mpr (h.reachable hb)
  have hlt : (ofGraph g).emissionOrder.idxOf a < (ofGraph g).emissionOrder.idxOf b := by
    rw [emissionOrder, List.idxOf_append_of_mem ha,
      List.idxOf_append_of_mem ((hl.mem_iff b).mpr hb)]
    exact hl.idxOf_lt_of_dominates hb hne h
  rw [horder] at hlt
  exact Flow.mem_of_idxOf_lt (horder ▸ nodup_emissionOrder) hlt

/-- A node that cannot be reached comes after those that can, and after the others with smaller
numbers. -/
theorem mem_before_iff {before after : List (Fin n)}
    (horder : (ofGraph g).emissionOrder = before ++ b :: after) (hb : ¬ g.Reachable b) :
    a ∈ before ↔ g.Reachable a ∨ a < b := by
  have hnot : b ∉ (ofGraph g).order := fun h => hb ((lists_order.mem_iff b).mp h)
  obtain ⟨left, rfl, hleft⟩ : ∃ left, before = (ofGraph g).order ++ left ∧
      ((List.finRange n).filter fun b => !(ofGraph g).isReachable b) = left ++ b :: after := by
    rcases List.append_eq_append_iff.mp horder with h | ⟨right, hright, h⟩
    · exact h
    · cases right with
      | nil => exact ⟨[], by simpa using hright.symm, h.symm⟩
      | cons c right =>
        obtain ⟨rfl, -⟩ := List.cons.inj h
        rw [hright] at hnot
        simp at hnot
  have hsorted : (left ++ b :: after).Pairwise (· < ·) := by
    rw [← hleft]
    exact (List.pairwise_lt_finRange n).filter _
  rw [List.mem_append, lists_order.mem_iff]
  refine ⟨fun h => h.imp_right fun ha => ?_, fun h => ?_⟩
  · exact (List.pairwise_append.mp hsorted).2.2 a ha b List.mem_cons_self
  · by_cases ha : g.Reachable a
    · exact .inl ha
    · have hmem := mem_filter_not_isReachable.mpr ha
      rw [hleft, List.mem_append, List.mem_cons] at hmem
      have hlt := h.resolve_left ha
      rcases hmem with hmem | rfl | hmem
      · exact .inr hmem
      · exact absurd hlt (lt_irrefl _)
      · have := List.rel_of_pairwise_cons (List.pairwise_append.mp hsorted).2.1 hmem
        exact absurd (hlt.trans this) (lt_irrefl _)

end Cfg

end TypedSSA
