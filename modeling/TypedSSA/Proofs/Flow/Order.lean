import TypedSSA.Flow.Order
import TypedSSA.Proofs.Flow.Paths

/-!
# What the depth first walk lists

`Graph.Lists g order` says that `order` has the nodes that can be reached, each once, and each but
the entry after a node with an edge to it. `Graph.lists_reversePostorder` proves it of the walk. All
that is known of the order later follows from it: the entry comes first (`Lists.idxOf_entry`), and a
node comes after those that dominate it (`Lists.idxOf_le_of_dominates`).

The walk is followed by an invariant (`Graph.Walking`) on the nodes met so far, listed as they will
come in the end: those under way from the entry on, and behind them those that are done. Moving a
node from the trail to `done` does not change this list.
-/

namespace TypedSSA.Flow.Graph

variable {n : Nat} {g : Graph n} {a b : Fin n}

/-- The nodes that can be reached, each once and, but for the entry, after some predecessor. -/
structure Lists (g : Graph n) (order : List (Fin n)) : Prop where
  nodup : order.Nodup
  mem_iff (b : Fin n) : b ∈ order ↔ g.Reachable b
  parent (b : Fin n) : b ∈ order → b.val ≠ 0 →
    ∃ a ∈ order, b ∈ g.succ a ∧ order.idxOf a < order.idxOf b

/-! ## Lists that go along edges -/

/-- Each node is the entry or has an edge from a node that stands before it in the list, or among
`before`. -/
def Descends (g : Graph n) : (before : List (Fin n)) → List (Fin n) → Prop
  | _, [] => True
  | before, b :: rest =>
    (b.val = 0 ∨ ∃ a ∈ before, b ∈ g.succ a) ∧ g.Descends (b :: before) rest

theorem Descends.mono {before before' l : List (Fin n)} (h : g.Descends before l)
    (hs : before ⊆ before') : g.Descends before' l := by
  induction l generalizing before before' with
  | nil => trivial
  | cons b rest ih =>
    obtain ⟨hb, hrest⟩ := h
    refine ⟨hb.imp id fun ⟨a, ha, edge⟩ => ⟨a, hs ha, edge⟩, ih hrest ?_⟩
    exact List.cons_subset_cons _ hs

/-- A node may be put in anywhere after one with an edge to it. -/
theorem Descends.insert {before l₁ l₂ : List (Fin n)} (h : g.Descends before (l₁ ++ l₂))
    (ha : a ∈ before ++ l₁) (edge : b ∈ g.succ a) : g.Descends before (l₁ ++ b :: l₂) := by
  induction l₁ generalizing before with
  | nil =>
    rw [List.append_nil] at ha
    exact ⟨.inr ⟨a, ha, edge⟩, h.mono (List.subset_cons_self _ _)⟩
  | cons c l₁ ih =>
    refine ⟨h.1, ih h.2 ?_⟩
    simp only [List.mem_append, List.mem_cons] at ha ⊢
    tauto

theorem Descends.reachable {before l : List (Fin n)} (h : g.Descends before l)
    (hbefore : ∀ a ∈ before, g.Reachable a) : ∀ b ∈ l, g.Reachable b := by
  induction l generalizing before with
  | nil => simp
  | cons c rest ih =>
    obtain ⟨hc, hrest⟩ := h
    have hreach : g.Reachable c := by
      rcases hc with hc | ⟨a, ha, edge⟩
      · exact reachable_entry hc
      · exact (hbefore a ha).succ edge
    intro b hb
    rcases List.mem_cons.mp hb with rfl | hb
    · exact hreach
    · exact ih hrest (List.forall_mem_cons.mpr ⟨hreach, hbefore⟩) b hb

theorem Descends.parent {before l : List (Fin n)} (h : g.Descends before l) (hb : b ∈ l)
    (hne : b.val ≠ 0) :
    (∃ a ∈ before, b ∈ g.succ a) ∨ ∃ a ∈ l, b ∈ g.succ a ∧ l.idxOf a < l.idxOf b := by
  induction l generalizing before with
  | nil => simp at hb
  | cons c rest ih =>
    by_cases hbc : b = c
    · subst hbc
      exact .inl (h.1.resolve_left hne)
    · have hidx : (c :: rest).idxOf b = rest.idxOf b + 1 := List.idxOf_cons_ne _ (Ne.symm hbc)
      rcases ih h.2 (List.mem_of_ne_of_mem hbc hb) with ⟨a, ha, edge⟩ | ⟨a, ha, edge, hlt⟩
      · rcases List.mem_cons.mp ha with rfl | ha
        · refine .inr ⟨a, List.mem_cons_self, edge, ?_⟩
          rw [hidx, List.idxOf_cons_self]
          omega
        · exact .inl ⟨a, ha, edge⟩
      · refine .inr ⟨a, List.mem_cons_of_mem _ ha, edge, ?_⟩
        rw [hidx]
        by_cases hac : a = c
        · subst hac
          rw [List.idxOf_cons_self]
          omega
        · rw [List.idxOf_cons_ne _ (Ne.symm hac)]
          omega

/-! ## The walk -/

/-- The nodes met, in the order in which they will stand when the walk ends. -/
def met (trail : Trail n) (done : List (Fin n)) : List (Fin n) :=
  (trail.map Prod.fst).reverse ++ done

/-- What holds at every step of the walk. -/
structure Walking (g : Graph n) (unseen : List (Fin n)) (trail : Trail n) (done : List (Fin n)) :
    Prop where
  nodup : (met trail done).Nodup
  unseen_nodup : unseen.Nodup
  met_iff (b : Fin n) : b ∈ met trail done ↔ b ∉ unseen
  descends : g.Descends [] (met trail done)
  entry (b : Fin n) : b.val = 0 → b ∉ unseen
  /-- What is left of a node's successors are some of them, and the others have been met. -/
  left (t : Fin n × List (Fin n)) : t ∈ trail →
    t.2 ⊆ g.succ t.1 ∧ ∀ b ∈ g.succ t.1, b ∈ t.2 ∨ b ∉ unseen
  closed (a : Fin n) : a ∈ done → ∀ b ∈ g.succ a, b ∉ unseen

theorem met_finish (t : Fin n × List (Fin n)) (rest : Trail n) (done : List (Fin n)) :
    met (t :: rest) done = met rest (t.1 :: done) := by
  simp [met]

variable {unseen done bs : List (Fin n)} {rest : Trail n}

/-- A node is done when none of its successors is left, which have all been met then. -/
theorem Walking.finish (h : g.Walking unseen ((a, []) :: rest) done) :
    g.Walking unseen rest (a :: done) := by
  have e := met_finish (a, []) rest done
  have ha := (h.left _ List.mem_cons_self).2
  refine ⟨e ▸ h.nodup, h.unseen_nodup, e ▸ h.met_iff, e ▸ h.descends, h.entry,
    fun t ht => h.left t (List.mem_cons_of_mem _ ht), fun c hc b hb => ?_⟩
  rcases List.mem_cons.mp hc with rfl | hc
  · exact (ha b hb).resolve_left List.not_mem_nil
  · exact h.closed c hc b hb

theorem Walking.skip (h : g.Walking unseen ((a, b :: bs) :: rest) done) (hb : b ∉ unseen) :
    g.Walking unseen ((a, bs) :: rest) done := by
  refine ⟨h.nodup, h.unseen_nodup, h.met_iff, h.descends, h.entry, fun t ht => ?_, h.closed⟩
  rcases List.mem_cons.mp ht with rfl | ht
  · obtain ⟨hs, hl⟩ := h.left _ List.mem_cons_self
    refine ⟨fun c hc => hs (List.mem_cons_of_mem _ hc), fun c hc => ?_⟩
    rcases hl c hc with hc | hc
    · rcases List.mem_cons.mp hc with rfl | hc
      · exact .inr hb
      · exact .inl hc
    · exact .inr hc
  · exact h.left t (List.mem_cons_of_mem _ ht)

/-- A node that is met for the first time comes after the node whose successor it is, and has all of
its own successors left. -/
theorem Walking.enter (h : g.Walking unseen ((a, b :: bs) :: rest) done) (hb : b ∈ unseen) :
    g.Walking (unseen.erase b) ((b, g.succ b) :: (a, bs) :: rest) done := by
  have hmem : ∀ c, c ∈ unseen.erase b ↔ c ≠ b ∧ c ∈ unseen :=
    fun c => h.unseen_nodup.mem_erase_iff
  have e : met ((b, g.succ b) :: (a, bs) :: rest) done =
      ((rest.map Prod.fst).reverse ++ [a]) ++ b :: done := by simp [met]
  have e' : met ((a, b :: bs) :: rest) done = ((rest.map Prod.fst).reverse ++ [a]) ++ done := by
    simp [met]
  have hnot : b ∉ met ((a, b :: bs) :: rest) done := fun hm => (h.met_iff b).mp hm hb
  obtain ⟨hs, hl⟩ := h.left _ List.mem_cons_self
  refine ⟨?_, h.unseen_nodup.erase b, fun c => ?_, ?_, fun c hc => ?_, fun t ht => ?_,
    fun c hc d hd => ?_⟩
  · rw [e, List.nodup_middle, ← e']
    exact List.nodup_cons.mpr ⟨hnot, h.nodup⟩
  · have := h.met_iff c
    rw [e'] at this
    rw [e, hmem, List.mem_append, List.mem_cons]
    rw [List.mem_append] at this
    tauto
  · rw [e]
    exact (e' ▸ h.descends).insert (a := a) (by simp) (hs List.mem_cons_self)
  · rw [hmem]
    exact fun hc' => h.entry c hc hc'.2
  · rcases List.mem_cons.mp ht with rfl | ht
    · exact ⟨List.Subset.refl _, fun d hd => .inl hd⟩
    · rcases List.mem_cons.mp ht with rfl | ht
      · refine ⟨fun d hd => hs (List.mem_cons_of_mem _ hd), fun d hd => ?_⟩
        have := hl d hd
        rw [hmem]
        rw [List.mem_cons] at this
        tauto
      · obtain ⟨hs', hl'⟩ := h.left t (List.mem_cons_of_mem _ ht)
        exact ⟨hs', fun d hd => (hl' d hd).imp id fun hd' hd'' => hd' ((hmem d).mp hd'').2⟩
  · rw [hmem]
    exact fun hd' => h.closed c hc d hd hd'.2

/-- When the trail ends, what is done is closed under edges. -/
theorem Walking.lists (h : g.Walking unseen [] done) : g.Lists done := by
  have hmet : met [] done = done := rfl
  have hiff := h.met_iff
  have hdesc := h.descends
  rw [hmet] at hiff hdesc
  refine ⟨h.nodup, fun b => ⟨hdesc.reachable (by simp) b, ?_⟩, fun b hb hne => ?_⟩
  · rintro ⟨l, hp⟩
    induction hp with
    | entry first => exact (hiff _).mpr (h.entry _ first)
    | step _ edge ih => exact (hiff _).mpr (h.closed _ ih _ edge)
  · exact (hdesc.parent hb hne).resolve_left (by simp)

/-- Along the recursion of the walk. At its end the trail is empty, so every node that has been met
is done, and with it all successors. So what has been met is what can be reached. -/
theorem Walking.lists_walk {trail : Trail n} (h : g.Walking unseen trail done) :
    g.Lists (g.walk unseen trail done) := by
  fun_induction walk g unseen trail done with
  | case1 unseen done => exact h.lists
  | case2 unseen done a rest ih => exact ih h.finish
  | case3 unseen done a b bs rest hb ih => exact ih (h.enter hb)
  | case4 unseen done a b bs rest hb ih => exact ih (h.skip hb)

theorem lists_reversePostorder (g : Graph n) : g.Lists g.reversePostorder := by
  unfold reversePostorder
  split
  · rename_i hpos
    apply Walking.lists_walk
    have hmem : ∀ b : Fin n, b ∈ (List.finRange n).erase ⟨0, hpos⟩ ↔ b ≠ ⟨0, hpos⟩ := fun b => by
      simp [(List.nodup_finRange n).mem_erase_iff]
    refine ⟨by simp [met], (List.nodup_finRange n).erase _, fun b => by simp [met, hmem],
      ⟨.inl rfl, trivial⟩, fun b hb => ?_, fun t ht => ?_, by simp⟩
    · rw [hmem, not_not]
      exact Fin.ext hb
    · rw [List.mem_singleton] at ht
      subst ht
      exact ⟨List.Subset.refl _, fun c hc => .inl hc⟩
  · rename_i hpos
    refine ⟨List.nodup_nil, fun b => ?_, by simp⟩
    exact absurd (Nat.pos_of_ne_zero fun h => (h ▸ b).elim0) hpos

/-! ## What a listing tells -/

namespace Lists

variable {order : List (Fin n)}

/-- The first node has none before it, so it is the entry. -/
theorem val_first {c : Fin n} {rest : List (Fin n)} (h : g.Lists (c :: rest)) : c.val = 0 := by
  by_contra hc
  obtain ⟨a, -, -, hlt⟩ := h.parent c List.mem_cons_self hc
  rw [List.idxOf_cons_self] at hlt
  omega

theorem idxOf_entry (h : g.Lists order) (hb : b.val = 0) : order.idxOf b = 0 := by
  have hmem : b ∈ order := (h.mem_iff b).mpr (reachable_entry hb)
  obtain ⟨c, rest, rfl⟩ := List.exists_cons_of_ne_nil (List.ne_nil_of_mem hmem)
  rw [Fin.ext (hb.trans h.val_first.symm), List.idxOf_cons_self]

theorem head?_eq_entry (h : g.Lists order) (hb : b.val = 0) : order.head? = some b := by
  have hmem : b ∈ order := (h.mem_iff b).mpr (reachable_entry hb)
  rw [List.head?_eq_getElem?, ← h.idxOf_entry hb]
  exact List.getElem?_idxOf hmem

/-- A node comes after those that dominate it. -/
theorem idxOf_le_of_dominates (h : g.Lists order) (hb : g.Reachable b) (hdom : g.Dominates a b) :
    order.idxOf a ≤ order.idxOf b := by
  induction hk : order.idxOf b using Nat.strong_induction_on generalizing b with
  | _ k ih =>
    subst hk
    by_cases hab : a = b
    · rw [hab]
    · have hne : b.val ≠ 0 := fun h0 => hab (hdom.eq_entry h0)
      obtain ⟨p, hp, edge, hlt⟩ := h.parent b ((h.mem_iff b).mpr hb) hne
      have := ih _ hlt ((h.mem_iff p).mp hp) (hdom.pred hab edge) rfl
      omega

/-- Go up from a node by an edge from an earlier one, again and again. This is a path from the
entry, so each dominator is on it. -/
theorem idxOf_lt_of_dominates (h : g.Lists order) (hb : g.Reachable b) (hne : a ≠ b)
    (hdom : g.Dominates a b) : order.idxOf a < order.idxOf b := by
  have ha : a ∈ order := (h.mem_iff a).mpr (hdom.reachable hb)
  exact lt_of_le_of_ne (h.idxOf_le_of_dominates hb hdom) (mt (List.idxOf_inj ha).mp hne)

end Lists

/-- Two nodes that dominate each other are one. -/
theorem Dominates.antisymm (h : g.Dominates a b) (hb : g.Reachable b) (h' : g.Dominates b a) :
    a = b := by
  have hl := g.lists_reversePostorder
  have ha := h.reachable hb
  refine (List.idxOf_inj ((hl.mem_iff a).mpr ha)).mp (Nat.le_antisymm ?_ ?_)
  · exact hl.idxOf_le_of_dominates hb h
  · exact hl.idxOf_le_of_dominates ha h'

end TypedSSA.Flow.Graph
