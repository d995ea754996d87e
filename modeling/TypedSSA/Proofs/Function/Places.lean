import Mathlib.Data.List.Nodup
import Mathlib.Data.List.Sort
import Mathlib.Data.String.Basic
import TypedSSA.Finish
import TypedSSA.Proofs.Flow.Cfg

/-!
# Names and labels of a body

Where the names of a list of blocks are bound and where its labels lead, when no name is bound twice
and no label is given twice. Then `definition?` finds the one place that binds a name
(`definition?_eq_some_iff`), `blockIndex?` the one block with a label (`blockIndex?_eq_some_iff`),
edges are what the terminators name (`mem_succ_iff_label`), and `predecessorLabels` are compared as
sets (`sortLabels_eq_predecessorLabels_iff`).
-/

namespace TypedSSA

/-- The names that a block binds, in order. -/
def Block.names (b : Block) : List LocalName := b.body.filterMap Named.name?

variable {blocks : List Block} {i j : Fin blocks.length} {k m : Nat} {name : LocalName}
  {label : Label}

/-! ## Names -/

/-- The instruction at place `k` of block `i` binds `name`. -/
def BindsAt (blocks : List Block) (i : Fin blocks.length) (k : Nat) (name : LocalName) : Prop :=
  ∃ n, (blocks.get i).body[k]? = some n ∧ n.name? = some name

theorem BindsAt.lt (h : BindsAt blocks i k name) : k < (blocks.get i).body.length := by
  obtain ⟨n, hn, -⟩ := h
  exact (List.getElem?_eq_some_iff.mp hn).1

theorem BindsAt.mem_names (h : BindsAt blocks i k name) : name ∈ (blocks.get i).names := by
  obtain ⟨n, hn, hname⟩ := h
  exact List.mem_filterMap.mpr ⟨n, List.mem_of_getElem? hn, hname⟩

theorem exists_bindsAt (h : name ∈ blocks.flatMap Block.names) :
    ∃ i k, BindsAt blocks i k name := by
  obtain ⟨block, hblock, hname⟩ := List.mem_flatMap.mp h
  obtain ⟨i, rfl⟩ := List.mem_iff_get.mp hblock
  obtain ⟨n, hn, hname⟩ := List.mem_filterMap.mp hname
  obtain ⟨k, hk⟩ := List.mem_iff_getElem?.mp hn
  exact ⟨i, k, n, hk, hname⟩

theorem map_fst_binding? (body : List Named) :
    (body.filterMap Named.binding?).map Prod.fst = body.filterMap Named.name? := by
  rw [List.map_filterMap]
  exact congrArg (body.filterMap ·) (funext fun n => by cases n <;> rfl)

/-- The names bound before place `k` of a block. -/
theorem mem_names_take_iff :
    name ∈ ((blocks.get i).body.take k).filterMap Named.name? ↔
      ∃ m < k, BindsAt blocks i m name := by
  rw [List.mem_filterMap]
  constructor
  · rintro ⟨n, hn, hname⟩
    obtain ⟨m, hm⟩ := List.mem_iff_getElem?.mp hn
    rw [List.getElem?_take] at hm
    split at hm
    · rename_i hlt
      exact ⟨m, hlt, n, hm, hname⟩
    · cases hm
  · rintro ⟨m, hlt, n, hm, hname⟩
    exact ⟨n, List.mem_of_getElem? ((List.getElem?_take_of_lt hlt).trans hm), hname⟩

theorem mem_names_iff :
    name ∈ (blocks.get i).names ↔ ∃ m, BindsAt blocks i m name := by
  have htake : (blocks.get i).names =
      ((blocks.get i).body.take (blocks.get i).body.length).filterMap Named.name? := by
    rw [List.take_length, Block.names]
  rw [htake, mem_names_take_iff]
  constructor
  · rintro ⟨m, -, h⟩
    exact ⟨m, h⟩
  · rintro ⟨m, h⟩
    exact ⟨m, h.lt, h⟩

/-- A name is bound at one place only. -/
theorem BindsAt.unique (hnames : (blocks.flatMap Block.names).Nodup) (h : BindsAt blocks i k name)
    (h' : BindsAt blocks j m name) : i = j ∧ k = m := by
  rw [List.nodup_flatMap] at hnames
  have hij : i = j := by
    by_contra hne
    have hdisj : List.Disjoint (blocks.get i).names (blocks.get j).names := by
      have hp := List.pairwise_iff_get.mp hnames.2
      rcases Nat.lt_or_gt_of_ne (Fin.val_ne_of_ne hne) with hlt | hlt
      · exact hp i j hlt
      · exact (hp j i hlt).symm
    exact hdisj h.mem_names h'.mem_names
  subst hij
  refine ⟨rfl, ?_⟩
  obtain ⟨n, hn, hname⟩ := h
  obtain ⟨n', hn', hname'⟩ := h'
  obtain ⟨hk, rfl⟩ := List.getElem?_eq_some_iff.mp hn
  obtain ⟨hm, rfl⟩ := List.getElem?_eq_some_iff.mp hn'
  -- two places of one block with one name would be two equal names in a row without repeats
  have hbody : (blocks.get i).body.Pairwise
      fun n n' => ∀ x ∈ n.name?, ∀ y ∈ n'.name?, x ≠ y :=
    List.pairwise_filterMap.mp (hnames.1 _ (List.get_mem _ _))
  rw [List.pairwise_iff_getElem] at hbody
  by_contra hne
  rcases Nat.lt_or_gt_of_ne hne with hlt | hlt
  · exact hbody k m hk hm hlt name hname name hname' rfl
  · exact hbody m k hm hk hlt name hname' name hname rfl

theorem bindsAt_of_definition? (h : definition? blocks name = some (i, k)) :
    BindsAt blocks i k name := by
  obtain ⟨i', -, h⟩ := List.exists_of_findSome?_eq_some h
  obtain ⟨k', hk', h⟩ := Option.map_eq_some_iff.mp h
  obtain ⟨rfl, rfl⟩ := Prod.mk.inj h
  obtain ⟨hlt, hname, -⟩ := List.findIdx?_eq_some_iff_getElem.mp hk'
  exact ⟨_, List.getElem?_eq_getElem hlt, by simpa using hname⟩

theorem definition?_eq_none_iff :
    definition? blocks name = none ↔ name ∉ blocks.flatMap Block.names := by
  refine ⟨fun h hname => ?_, fun h => ?_⟩
  · obtain ⟨i, k, n, hn, hname⟩ := exists_bindsAt hname
    rw [definition?, List.findSome?_eq_none_iff] at h
    have := h i (List.mem_finRange i)
    rw [Option.map_eq_none_iff, List.findIdx?_eq_none_iff] at this
    simpa [hname] using this n (List.mem_of_getElem? hn)
  · by_contra hsome
    obtain ⟨⟨i, k⟩, hd⟩ := Option.ne_none_iff_exists'.mp hsome
    exact h (List.mem_flatMap.mpr ⟨_, List.get_mem _ _, (bindsAt_of_definition? hd).mem_names⟩)

/-- If no name is bound twice, the place that is found for a name is the one that binds it. -/
theorem definition?_eq_some_iff (hnames : (blocks.flatMap Block.names).Nodup) :
    definition? blocks name = some (i, k) ↔ BindsAt blocks i k name := by
  refine ⟨bindsAt_of_definition?, fun h => ?_⟩
  cases hd : definition? blocks name with
  | none =>
    exact absurd (List.mem_flatMap.mpr ⟨_, List.get_mem _ _, h.mem_names⟩)
      (definition?_eq_none_iff.mp hd)
  | some p =>
    obtain ⟨rfl, rfl⟩ := (bindsAt_of_definition? hd).unique hnames h
    rfl

/-! ## Labels -/

theorem eq_of_label_eq (hlabels : (blocks.map Block.label).Nodup)
    (h : (blocks.get i).label = (blocks.get j).label) : i = j := by
  have hp := List.pairwise_iff_get.mp (List.pairwise_map.mp hlabels)
  by_contra hne
  rcases Nat.lt_or_gt_of_ne (Fin.val_ne_of_ne hne) with hlt | hlt
  · exact hp i j hlt h
  · exact hp j i hlt h.symm

theorem label_of_blockIndex? (h : blockIndex? blocks label = some i) :
    (blocks.get i).label = label := by
  simpa using List.find?_some h

/-- If no two blocks have one label, the block that is found for a label is the one that has it. -/
theorem blockIndex?_eq_some_iff (hlabels : (blocks.map Block.label).Nodup) :
    blockIndex? blocks label = some i ↔ (blocks.get i).label = label := by
  refine ⟨label_of_blockIndex?, fun h => ?_⟩
  cases hd : blockIndex? blocks label with
  | none =>
    rw [blockIndex?, List.find?_eq_none] at hd
    exact absurd h (by simpa using hd i (by simp))
  | some j => rw [eq_of_label_eq hlabels ((label_of_blockIndex? hd).trans h.symm)]

/-- There is an edge to each block that the terminator names. -/
theorem mem_succ_iff_label (hlabels : (blocks.map Block.label).Nodup) :
    j ∈ (flowGraph blocks).succ i ↔
      (blocks.get j).label ∈ (blocks.get i).terminator.successors := by
  simp only [mem_succ_flowGraph, blockIndex?_eq_some_iff hlabels, exists_eq_right']

/-! ## Sorted labels -/

theorem eraseReps_cons_cons (x y : Label) (l : List Label) :
    (x :: y :: l).eraseReps = if x = y then (x :: l).eraseReps else x :: (y :: l).eraseReps := by
  have hacc : ∀ (l : List Label) (x : Label) (acc : List Label),
      List.eraseRepsBy.loop (· == ·) x l acc =
        acc.reverse ++ List.eraseRepsBy.loop (· == ·) x l [] := by
    intro l
    induction l with
    | nil => simp [List.eraseRepsBy.loop]
    | cons y l ih =>
      intro x acc
      simp only [List.eraseRepsBy.loop]
      split
      · exact ih x acc
      · rw [ih y (x :: acc), ih y [x]]
        simp
  show List.eraseRepsBy.loop (· == ·) x (y :: l) [] = _
  rw [List.eraseRepsBy.loop]
  by_cases hxy : x = y
  · simp only [hxy, beq_self_eq_true, if_true]
    rfl
  · simp only [show (x == y) = false by simpa using hxy, if_neg hxy]
    rw [hacc]
    rfl

/-- Of a sorted list, all elements once. -/
theorem eraseReps_of_sorted {l : List Label} (h : l.Pairwise (· ≤ ·)) :
    l.eraseReps.Pairwise (· < ·) ∧ ∀ x, x ∈ l.eraseReps ↔ x ∈ l := by
  induction l with
  | nil => simp [List.eraseReps, List.eraseRepsBy]
  | cons x l ih =>
    cases l with
    | nil => simp [List.eraseReps, List.eraseRepsBy, List.eraseRepsBy.loop]
    | cons y l =>
      rw [eraseReps_cons_cons]
      obtain ⟨hx, hl⟩ := List.pairwise_cons.mp h
      split
      · rename_i hxy
        subst hxy
        obtain ⟨hp, hm⟩ := ih hl
        exact ⟨hp, fun z => by rw [hm]; simp⟩
      · rename_i hxy
        obtain ⟨hp, hm⟩ := ih hl
        refine ⟨List.pairwise_cons.mpr ⟨fun z hz => ?_, hp⟩, fun z => ?_⟩
        · have hy : y ≤ z := by
            rcases List.mem_cons.mp ((hm z).mp hz) with rfl | hz
            · exact le_refl z
            · exact (List.pairwise_cons.mp hl).1 z hz
          exact lt_of_lt_of_le (lt_of_le_of_ne (hx y List.mem_cons_self) hxy) hy
        · rw [List.mem_cons, List.mem_cons, hm]

theorem insertLabel_eq (label : Label) (l : List Label) :
    insertLabel label l = l.orderedInsert (· ≤ ·) label := by
  induction l with
  | nil => rfl
  | cons next rest ih => rw [insertLabel, ih, List.orderedInsert]

theorem sortLabels_eq (l : List Label) : sortLabels l = l.insertionSort (· ≤ ·) := by
  induction l with
  | nil => rfl
  | cons label l ih =>
    rw [List.insertionSort_cons, ← ih, ← insertLabel_eq]
    rfl

theorem perm_sortLabels (l : List Label) : (sortLabels l).Perm l := by
  rw [sortLabels_eq]
  exact List.perm_insertionSort (· ≤ ·) l

theorem sorted_sortLabels (l : List Label) : (sortLabels l).Pairwise (· ≤ ·) := by
  rw [sortLabels_eq]
  exact List.pairwise_insertionSort (· ≤ ·) l

/-- A list has, sorted, the elements of another once each, if it repeats none and has no others. -/
theorem sortLabels_eq_eraseReps_iff {xs ys : List Label} :
    sortLabels xs = (sortLabels ys).eraseReps ↔ xs.Nodup ∧ ∀ x, x ∈ xs ↔ x ∈ ys := by
  obtain ⟨hp, hm⟩ := eraseReps_of_sorted (sorted_sortLabels ys)
  have hnodup : (sortLabels ys).eraseReps.Nodup := hp.imp fun hlt => ne_of_lt hlt
  have hperm := perm_sortLabels xs
  refine ⟨fun h => ⟨?_, fun x => ?_⟩, fun ⟨hn, hx⟩ => ?_⟩
  · exact hperm.nodup_iff.mp (h ▸ hnodup)
  · rw [← hperm.mem_iff, h, hm, (perm_sortLabels ys).mem_iff]
  · refine List.Perm.eq_of_pairwise' (sorted_sortLabels xs) (hp.imp fun hlt => le_of_lt hlt) ?_
    refine (List.perm_ext_iff_of_nodup (hperm.nodup_iff.mpr hn) hnodup).mpr fun x => ?_
    rw [hperm.mem_iff, hx, hm, (perm_sortLabels ys).mem_iff]

/-- Sorted labels are those of the predecessors if none of them comes twice and each is the label of
a predecessor, and the other way round. -/
theorem sortLabels_eq_predecessorLabels_iff {labels : List Label} :
    sortLabels labels = predecessorLabels blocks (Cfg.ofBlocks blocks) i ↔
      labels.Nodup ∧ ∀ label, label ∈ labels ↔
        ∃ p, i ∈ (flowGraph blocks).succ p ∧ (blocks.get p).label = label := by
  rw [predecessorLabels, sortLabels_eq_eraseReps_iff, Cfg.ofBlocks, Cfg.pred_ofGraph]
  simp only [List.mem_map, Flow.Graph.mem_pred]

end TypedSSA
