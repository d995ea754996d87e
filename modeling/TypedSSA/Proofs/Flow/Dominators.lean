import TypedSSA.Flow.Dominators
import TypedSSA.Proofs.Flow.Order

/-!
# The iteration finds the immediate dominators

`Idoms.Correct g idoms` says that `idoms` has, of each node that can be reached, the nearest
dominator other than the node itself. `exists_find?` proves that the iteration ends within its limit
and that what it ends with is correct, on every graph. Then the chain of a node is the list of its
dominators (`Idoms.Correct.mem_chain_iff`).

Guesses in the middle of the iteration are not correct yet, but each of them is *sound*
(`Idoms.Sound`): the guess for a node comes before it in the order, and all that strictly dominates
the node dominates the guess. Both are facts on the node and its guess, not on other guesses, so
they survive any change elsewhere. What is still missing is that the guess dominates the node. The
guess is *sharp* up to `k` (`Idoms.Sharp`) when it lies on the paths of at most `k` nodes. A pass
adds one to `k`, and as long as the graph has nodes is far enough, since paths can be made simple.
-/

namespace TypedSSA.Flow

variable {n : Nat} {g : Graph n} {order : List (Fin n)} {idoms : Idoms n} {a b c d : Fin n}

namespace Idoms

theorem get_set (idoms : Idoms n) (b c : Fin n) (v : Option (Fin n)) :
    (idoms.set b v b.isLt).get c = if b = c then v else idoms.get c := by
  show (idoms.set b v)[c.val] = _
  rw [Vector.getElem_set]
  simp only [Fin.ext_iff]
  rfl

/-- `c` is `b` or on the chain of guesses from `b`. -/
inductive Above (idoms : Idoms n) (c : Fin n) : Fin n → Prop where
  | self : Above idoms c c
  | up {b d : Fin n} (guess : idoms.get b = some d) (above : Above idoms c d) : Above idoms c b

/-- Guesses that no strict dominator is lost from, and that go up in the order. -/
structure Sound (g : Graph n) (order : List (Fin n)) (idoms : Idoms n) : Prop where
  entry (b : Fin n) : b.val = 0 → idoms.get b = some b
  reachable (b : Fin n) : (idoms.get b).isSome → g.Reachable b
  known (b d : Fin n) : idoms.get b = some d → (idoms.get d).isSome
  before (b d : Fin n) : idoms.get b = some d → b.val ≠ 0 → order.idxOf d < order.idxOf b
  strict (b d a : Fin n) : idoms.get b = some d → g.Dominates a b → a ≠ b → g.Dominates a d

/-- Every node that can be reached has a guess. -/
def Total (g : Graph n) (idoms : Idoms n) : Prop := ∀ b, g.Reachable b → (idoms.get b).isSome

/-- The guess for `b` is on every path to `b` of at most `k` nodes. -/
def Sharp (g : Graph n) (k : Nat) (idoms : Idoms n) (b : Fin n) : Prop :=
  ∀ d l, idoms.get b = some d → g.Path b l → l.length ≤ k → d ∈ l

theorem Total.set (ht : Total g idoms) (b d : Fin n) : Total g (idoms.set b (some d) b.isLt) := by
  intro x hx
  rw [get_set]
  split
  · rfl
  · exact ht x hx

theorem Sharp.zero : Sharp g 0 idoms b := by
  intro d l _ hp hl
  rw [List.eq_nil_of_length_eq_zero (Nat.le_zero.mp hl)] at hp
  exact absurd hp.mem List.not_mem_nil

theorem Sharp.set_of_ne {k : Nat} (h : Sharp g k idoms a) (hne : b ≠ a) (v : Option (Fin n)) :
    Sharp g k (idoms.set b v b.isLt) a := by
  intro d l hd
  rw [get_set, if_neg hne] at hd
  exact h d l hd

theorem Sharp.mono {k k' : Nat} (h : Sharp g k' idoms b) (hk : k ≤ k') : Sharp g k idoms b :=
  fun d l hd hp hl => h d l hd hp (hl.trans hk)

/-! ## Chains of sound guesses -/

namespace Sound

theorem mem_order (h : g.Lists order) (hs : Sound g order idoms) (hb : (idoms.get b).isSome) :
    b ∈ order :=
  (h.mem_iff b).mpr (hs.reachable b hb)

/-- Along a chain the order is gone up, never down. -/
theorem idxOf_le_of_above (hs : Sound g order idoms) (hc : idoms.Above c b) :
    order.idxOf c ≤ order.idxOf b := by
  induction hc with
  | self => exact Nat.le_refl _
  | @up b d guess _ ih =>
    by_cases hb : b.val = 0
    · rw [hs.entry b hb, Option.some.injEq] at guess
      rwa [guess]
    · exact ih.trans (hs.before b d guess hb).le

/-- A chain has all dominators of the node that it starts from. -/
theorem above_of_dominates (hs : Sound g order idoms) (hb : (idoms.get b).isSome)
    (hdom : g.Dominates a b) : idoms.Above a b := by
  induction hk : order.idxOf b using Nat.strong_induction_on generalizing b with
  | _ k ih =>
    subst hk
    by_cases hab : a = b
    · exact hab ▸ .self
    · have hne : b.val ≠ 0 := fun h0 => hab (hdom.eq_entry h0)
      obtain ⟨d, hd⟩ := Option.isSome_iff_exists.mp hb
      refine .up hd (ih _ (hs.before b d hd hne) (hs.known b d hd) ?_ rfl)
      exact hs.strict b d a hd hdom hab

/-- A dominator of a node dominates what is on the node's chain up to it. -/
theorem dominates_of_above (hs : Sound g order idoms) (hc : idoms.Above c b)
    (hdom : g.Dominates a b) (hac : order.idxOf a ≤ order.idxOf c) : g.Dominates a c := by
  induction hc with
  | self => exact hdom
  | @up b d guess above ih =>
    by_cases hb : b.val = 0
    · rw [hs.entry b hb, Option.some.injEq] at guess
      exact ih (guess ▸ hdom)
    · have hcd := hs.idxOf_le_of_above above
      have hdb := hs.before b d guess hb
      have hab : a ≠ b := by
        rintro rfl
        omega
      exact ih (hs.strict b d a guess hdom hab)

end Sound

/-- If guesses are sharp up to `k`, so are the chains. -/
theorem mem_of_above {k : Nat} {l : List (Fin n)} (hk : ∀ b, Sharp g k idoms b)
    (hc : idoms.Above c b) (hp : g.Path b l) (hl : l.length ≤ k) : c ∈ l := by
  induction hc generalizing l with
  | self => exact hp.mem
  | @up b d guess _ ih =>
    obtain ⟨l', hp', hsuf⟩ := hp.cut (hk b d l guess hp hl)
    exact hsuf.subset (ih hp' (hsuf.length_le.trans hl))

end Idoms

/-! ## Where chains meet -/

/-- The chain from where two chains meet is what they have in common. -/
theorem exists_meet? (h : g.Lists order) (hs : idoms.Sound g order) (ha : (idoms.get a).isSome)
    (hb : (idoms.get b).isSome) :
    ∃ m, meet? order.idxOf idoms a b = some m ∧ (idoms.get m).isSome ∧
      ∀ c, idoms.Above c m ↔ idoms.Above c a ∧ idoms.Above c b := by
  -- the node that comes later is on no chain of the other, so its own chain may be cut by one
  have step : ∀ {x y d : Fin n}, idoms.get x = some d → order.idxOf y < order.idxOf x →
      ∀ c, idoms.Above c y → (idoms.Above c d ↔ idoms.Above c x) := by
    intro x y d hd hlt c hc
    refine ⟨fun h => .up hd h, fun h => ?_⟩
    cases h with
    | self =>
      have := hs.idxOf_le_of_above hc
      omega
    | up guess above =>
      rw [hd, Option.some.injEq] at guess
      exact guess ▸ above
  have later : ∀ {x y : Fin n}, order.idxOf y < order.idxOf x → x.val ≠ 0 := by
    intro x y hlt h0
    rw [h.idxOf_entry h0] at hlt
    omega
  fun_induction meet? order.idxOf idoms a b with
  | case1 a => exact ⟨a, rfl, ha, fun c => (and_self_iff).symm⟩
  | case2 a b _ _ hnone => simp [hnone] at ha
  | case3 a b _ hlt d hd _ ih =>
    obtain ⟨m, hm, hsome, hiff⟩ := ih (hs.known a d hd) hb
    refine ⟨m, hm, hsome, fun c => (hiff c).trans ?_⟩
    exact and_congr_left fun hc => step hd hlt c hc
  | case4 a b _ hlt d hd hnot => exact absurd (hs.before a d hd (later hlt)) hnot
  | case5 a b _ _ hnone => simp [hnone] at hb
  | case6 a b hne hle d hd _ ih =>
    have hlt : order.idxOf a < order.idxOf b :=
      lt_of_le_of_ne (not_lt.mp hle) fun e => hne ((List.idxOf_inj (hs.mem_order h ha)).mp e)
    obtain ⟨m, hm, hsome, hiff⟩ := ih ha (hs.known b d hd)
    refine ⟨m, hm, hsome, fun c => (hiff c).trans ?_⟩
    exact and_congr_right fun hc => step hd hlt c hc
  | case7 a b hne hle d hd hnot =>
    have hlt : order.idxOf a < order.idxOf b :=
      lt_of_le_of_ne (not_lt.mp hle) fun e => hne ((List.idxOf_inj (hs.mem_order h ha)).mp e)
    exact absurd (hs.before b d hd (later hlt)) hnot

/-- The chains of several nodes meet in a node that has on its chain just what all of theirs have.
Two at a time, by `meet?`. -/
theorem exists_foldlM_meet? (h : g.Lists order) (hs : idoms.Sound g order) (ps : List (Fin n))
    (ha : (idoms.get a).isSome) (hps : ∀ p ∈ ps, (idoms.get p).isSome) :
    ∃ m, ps.foldlM (meet? order.idxOf idoms) a = some m ∧ (idoms.get m).isSome ∧
      ∀ c, idoms.Above c m ↔ ∀ p ∈ a :: ps, idoms.Above c p := by
  induction ps generalizing a with
  | nil => exact ⟨a, rfl, ha, fun c => by simp⟩
  | cons p ps ih =>
    rw [List.forall_mem_cons] at hps
    obtain ⟨m, hm, hsome, hiff⟩ := exists_meet? h hs ha hps.1
    obtain ⟨m', hm', hsome', hiff'⟩ := ih hsome hps.2
    refine ⟨m', by rw [List.foldlM_cons, hm]; exact hm', hsome', fun c => ?_⟩
    rw [hiff', List.forall_mem_cons, hiff, List.forall_mem_cons, List.forall_mem_cons, and_assoc]

/-! ## Improving a guess -/

/-- The chain from the new guess for a node has what the chains of its predecessors share. -/
theorem exists_improve? (h : g.Lists order) (hs : idoms.Sound g order)
    (hp : ∃ p, b ∈ g.succ p ∧ (idoms.get p).isSome) :
    ∃ d, improve? g.pred order.idxOf idoms b = some (idoms.set b (some d) b.isLt) ∧
      (idoms.get d).isSome ∧
      ∀ c, idoms.Above c d ↔ ∀ p, b ∈ g.succ p → (idoms.get p).isSome → idoms.Above c p := by
  have hmem : ∀ p, p ∈ (g.pred b).filter (fun a => (idoms.get a).isSome) ↔
      b ∈ g.succ p ∧ (idoms.get p).isSome := fun p => by
    rw [List.mem_filter, Graph.mem_pred]
  unfold improve?
  split
  · rename_i hnil
    obtain ⟨p, hp⟩ := hp
    rw [← hmem, hnil] at hp
    simp at hp
  · rename_i first rest hcons
    rw [hcons] at hmem
    obtain ⟨d, hd, hsome, hiff⟩ := exists_foldlM_meet? h hs rest
      ((hmem first).mp List.mem_cons_self).2 fun p hp => ((hmem p).mp (List.mem_cons_of_mem _ hp)).2
    refine ⟨d, by rw [hd]; rfl, hsome, fun c => ?_⟩
    simp only [hiff, hmem, and_imp]

namespace Idoms

/-- What is needed to take `d` as the guess for `b`. -/
structure Improves (g : Graph n) (order : List (Fin n)) (idoms : Idoms n) (b d : Fin n) : Prop where
  reachable : g.Reachable b
  ne_entry : b.val ≠ 0
  known : (idoms.get d).isSome
  above_iff (c : Fin n) :
    idoms.Above c d ↔ ∀ p, b ∈ g.succ p → (idoms.get p).isSome → idoms.Above c p
  /-- Some predecessor that has a guess comes before `b`. -/
  parent : ∃ p, b ∈ g.succ p ∧ (idoms.get p).isSome ∧ order.idxOf p < order.idxOf b

namespace Improves

theorem above (hi : Improves g order idoms b d) (edge : b ∈ g.succ a) (ha : (idoms.get a).isSome) :
    idoms.Above d a :=
  (hi.above_iff d).mp .self a edge ha

/-- A better guess is as sound as the one before. What dominates a node strictly is on the chains of
all its predecessors, so also on the chain of the node where they meet. -/
theorem sound (hs : Sound g order idoms) (hi : Improves g order idoms b d) :
    Sound g order (idoms.set b (some d) b.isLt) := by
  obtain ⟨p, edge, hp, hlt⟩ := hi.parent
  have hle := hs.idxOf_le_of_above (hi.above edge hp)
  refine ⟨fun x hx => ?_, fun x hx => ?_, fun x y hx => ?_, fun x y hx hne => ?_,
    fun x y z hx hz hne => ?_⟩
  · rw [get_set, if_neg (fun e : b = x => hi.ne_entry (e ▸ hx)), hs.entry x hx]
  · by_cases e : b = x
    · exact e ▸ hi.reachable
    · rw [get_set, if_neg e] at hx
      exact hs.reachable x hx
  · rw [get_set]
    split
    · rfl
    · by_cases e : b = x
      · rw [get_set, if_pos e, Option.some.injEq] at hx
        exact hx ▸ hi.known
      · rw [get_set, if_neg e] at hx
        exact hs.known x y hx
  · by_cases e : b = x
    · rw [get_set, if_pos e, Option.some.injEq] at hx
      rw [← hx, ← e]
      omega
    · rw [get_set, if_neg e] at hx
      exact hs.before x y hx hne
  · by_cases e : b = x
    · subst e
      rw [get_set, if_pos rfl, Option.some.injEq] at hx
      subst hx
      -- a strict dominator is on the chains of all predecessors, so it is on the chain of `d`
      have hz' : idoms.Above z d := (hi.above_iff z).mpr fun q hq hsome =>
        hs.above_of_dominates hsome (hz.pred hne hq)
      exact hs.dominates_of_above (hi.above edge hp) (hz.pred hne edge)
        (hs.idxOf_le_of_above hz')
    · rw [get_set, if_neg e] at hx
      exact hs.strict x y z hx hz hne

/-- When all nodes have guesses, the new one is sharper by a node. -/
theorem sharp {k : Nat} (hi : Improves g order idoms b d) (ht : Total g idoms)
    (hk : ∀ x, Sharp g k idoms x) : Sharp g (k + 1) (idoms.set b (some d) b.isLt) b := by
  intro d' l hd' hp hl
  rw [get_set, if_pos rfl, Option.some.injEq] at hd'
  subst hd'
  cases hp with
  | entry first => exact absurd first hi.ne_entry
  | @step p _ l before edge =>
    have hlen : l.length ≤ k := by simpa using hl
    have hmem := mem_of_above hk (hi.above edge (ht p before.reachable)) before hlen
    exact List.mem_cons_of_mem _ hmem

end Improves

end Idoms

/-! ## Passes -/

theorem mem_of_idxOf_lt {pre nodes : List (Fin n)} (h : (pre ++ b :: nodes).Nodup)
    (hlt : (pre ++ b :: nodes).idxOf a < (pre ++ b :: nodes).idxOf b) : a ∈ pre := by
  have hb : b ∉ pre := fun hm => (List.nodup_append.mp h).2.2 b hm b List.mem_cons_self rfl
  by_contra ha
  rw [List.idxOf_append_of_notMem ha, List.idxOf_append_of_notMem hb, List.idxOf_cons_self] at hlt
  omega

/-- A node that can be reached is improved, if those before it in the order have guesses. -/
theorem exists_improves (h : g.Lists order) {pre nodes : List (Fin n)}
    (ho : order = pre ++ b :: nodes) (hpre : ∃ e ∈ pre, e.val = 0) (hs : idoms.Sound g order)
    (hknown : ∀ a ∈ pre, (idoms.get a).isSome) :
    ∃ d, improve? g.pred order.idxOf idoms b = some (idoms.set b (some d) b.isLt) ∧
      Idoms.Improves g order idoms b d ∧
      ∀ a ∈ pre ++ [b], ((idoms.set b (some d) b.isLt).get a).isSome := by
  have hb : b ∈ order := by simp [ho]
  have hnodup := ho ▸ h.nodup
  obtain ⟨e, he, he0⟩ := hpre
  have hne : b.val ≠ 0 := by
    intro h0
    have := (List.nodup_append.mp hnodup).2.2 e he b List.mem_cons_self
    exact this (Fin.ext (he0.trans h0.symm))
  obtain ⟨p, -, edge, hlt⟩ := h.parent b hb hne
  have hp : (idoms.get p).isSome := hknown p (mem_of_idxOf_lt hnodup (ho ▸ hlt))
  obtain ⟨d, hd, hsome, hiff⟩ := exists_improve? h hs ⟨p, edge, hp⟩
  refine ⟨d, hd, ⟨(h.mem_iff b).mp hb, hne, hsome, hiff, ⟨p, edge, hp, hlt⟩⟩, fun a ha => ?_⟩
  rw [Idoms.get_set]
  split
  · rfl
  · rename_i hba
    rw [List.mem_append, List.mem_singleton] at ha
    exact hknown a (ha.resolve_right (Ne.symm hba))

/-- A pass over nodes that can be reached, each after a predecessor with a guess, gives all of them
guesses. If all nodes had guesses before, the new ones are sharper by a node. -/
theorem exists_pass? (h : g.Lists order) {pre nodes : List (Fin n)} (ho : order = pre ++ nodes)
    (hpre : ∃ e ∈ pre, e.val = 0) (hs : idoms.Sound g order)
    (hknown : ∀ b ∈ pre, (idoms.get b).isSome) :
    ∃ next, pass? g.pred order.idxOf nodes idoms = some next ∧ next.Sound g order ∧
      (∀ b ∈ order, (next.get b).isSome) ∧
      ∀ k, idoms.Total g → (∀ b, idoms.Sharp g k b) →
        ∀ b, b ∈ nodes ∨ idoms.Sharp g (k + 1) b → next.Sharp g (k + 1) b := by
  induction nodes generalizing pre idoms with
  | nil =>
    rw [List.append_nil] at ho
    exact ⟨idoms, rfl, hs, ho ▸ hknown, fun k _ _ b hb => hb.resolve_left List.not_mem_nil⟩
  | cons b nodes ih =>
    obtain ⟨d, hd, hi, hknown'⟩ := exists_improves h ho hpre hs hknown
    obtain ⟨e, he, he0⟩ := hpre
    obtain ⟨next, hnext, hsound, htotal, hsharp⟩ :=
      ih (by simp [ho]) ⟨e, List.mem_append_left _ he, he0⟩ (hi.sound hs) hknown'
    refine ⟨next, ?_, hsound, htotal, fun k ht hk x hx => ?_⟩
    · show (improve? g.pred order.idxOf idoms b).bind _ = _
      rw [hd]
      exact hnext
    · have hk' : ∀ y, Idoms.Sharp g k (idoms.set b (some d)) y := fun y => by
        by_cases e : b = y
        · exact e ▸ (hi.sharp ht hk).mono (Nat.le_succ k)
        · exact (hk y).set_of_ne e _
      refine hsharp k (ht.set b d) hk' x ?_
      by_cases e : b = x
      · exact .inr (e ▸ hi.sharp ht hk)
      · refine hx.imp (fun hm => ?_) fun hm => hm.set_of_ne e _
        exact (List.mem_cons.mp hm).resolve_left (Ne.symm e)

/-! ## Immediate dominators -/

namespace Idoms

/-- Of each node that can be reached, the nearest dominator but the node itself, and of no other
node anything. The entry stands for its own. -/
structure Correct (g : Graph n) (idoms : Idoms n) : Prop where
  entry (b : Fin n) : b.val = 0 → idoms.get b = some b
  isSome_iff (b : Fin n) : (idoms.get b).isSome ↔ g.Reachable b
  ne (b d : Fin n) : idoms.get b = some d → b.val ≠ 0 → d ≠ b
  dominates (b d : Fin n) : idoms.get b = some d → g.Dominates d b
  nearest (b d a : Fin n) : idoms.get b = some d → g.Dominates a b → a ≠ b → g.Dominates a d

/-- Once guesses are sharp for paths of all lengths that matter, a guess is on every path to its
node, and it is the last such node by soundness. -/
theorem Sound.correct (hs : Sound g order idoms) (ht : Total g idoms)
    (hk : ∀ b, Sharp g n idoms b) : Correct g idoms where
  entry := hs.entry
  isSome_iff b := ⟨hs.reachable b, ht b⟩
  ne b d hd hb := fun e => Nat.lt_irrefl _ (e ▸ hs.before b d hd hb)
  dominates b d hd := Graph.dominates_of_short fun l hp hl => hk b d l hd hp hl
  nearest := hs.strict

/-- Immediate dominators are unique, so the iteration has one outcome, whatever the order. -/
theorem Correct.unique {idoms' : Idoms n} (hc : Correct g idoms) (hc' : Correct g idoms') :
    idoms = idoms' := by
  have key : ∀ b, idoms.get b = idoms'.get b := by
    intro b
    by_cases hb : g.Reachable b
    · obtain ⟨d, hd⟩ := Option.isSome_iff_exists.mp ((hc.isSome_iff b).mpr hb)
      obtain ⟨d', hd'⟩ := Option.isSome_iff_exists.mp ((hc'.isSome_iff b).mpr hb)
      by_cases h0 : b.val = 0
      · rw [hc.entry b h0, hc'.entry b h0]
      · have hr := (hc.dominates b d hd).reachable hb
        have hle := hc'.nearest b d' d hd' (hc.dominates b d hd) (hc.ne b d hd h0)
        have hge := hc.nearest b d d' hd (hc'.dominates b d' hd') (hc'.ne b d' hd' h0)
        rw [hd, hd', hge.antisymm hr hle]
    · have hnone := Option.not_isSome_iff_eq_none.mp (mt (hc.isSome_iff b).mp hb)
      rw [hnone, Option.not_isSome_iff_eq_none.mp (mt (hc'.isSome_iff b).mp hb)]
  exact Vector.ext fun i hi => key ⟨i, hi⟩

end Idoms

/-! ## The end of the iteration -/

section Settle

variable {e : Fin n} {rest : List (Fin n)} (h : g.Lists (e :: rest)) (he : e.val = 0)

include h he

/-- A pass over all nodes but the entry. -/
theorem exists_round (hs : idoms.Sound g (e :: rest)) :
    ∃ next, pass? g.pred (e :: rest).idxOf rest idoms = some next ∧
      next.Sound g (e :: rest) ∧ next.Total g ∧
      ∀ k, idoms.Total g → (∀ b, idoms.Sharp g k b) → ∀ b, next.Sharp g (k + 1) b := by
  have hknown : ∀ b ∈ [e], (idoms.get b).isSome := by
    intro b hb
    rw [List.mem_singleton.mp hb, hs.entry e he]
    rfl
  obtain ⟨next, hnext, hs', hsome, hsharp⟩ := exists_pass? h
    (show e :: rest = [e] ++ rest from rfl) ⟨e, List.mem_singleton_self e, he⟩ hs hknown
  refine ⟨next, hnext, hs', fun b hb => hsome b ((h.mem_iff b).mpr hb), fun k ht hk b => ?_⟩
  by_cases hb : b ∈ rest
  · exact hsharp k ht hk b (.inl hb)
  · intro d l hd hp _
    have hbe : b = e := (List.mem_cons.mp ((h.mem_iff b).mpr hp.reachable)).resolve_right hb
    rw [hs'.entry b (hbe ▸ he), Option.some.injEq] at hd
    exact hd ▸ hp.mem

/-- Passes from guesses for all nodes end with the immediate dominators. -/
theorem exists_settle? (k limit : Nat) (hs : idoms.Sound g (e :: rest)) (ht : idoms.Total g)
    (hk : ∀ b, idoms.Sharp g k b) (hn : n ≤ k + limit) :
    ∃ settled, settle? g.pred (e :: rest).idxOf rest (limit + 1) idoms = some settled ∧
      settled.Correct g := by
  induction limit generalizing k idoms with
  | zero =>
    obtain ⟨next, hnext, hs', ht', hsharp⟩ := exists_round h he hs
    -- the guesses are sharp enough already, so the pass cannot change them
    have hc := hs.correct ht fun b => (hk b).mono hn
    have hc' := hs'.correct ht' fun b => (hsharp k ht hk b).mono (by omega)
    refine ⟨idoms, ?_, hc⟩
    rw [settle?, hnext, hc'.unique hc]
    simp
  | succ limit ih =>
    obtain ⟨next, hnext, hs', ht', hsharp⟩ := exists_round h he hs
    rw [settle?, hnext]
    by_cases heq : next = idoms
    · -- a pass that changes nothing could be made again, as often as needed
      subst heq
      have hall : ∀ j b, next.Sharp g (k + j) b := by
        intro j
        induction j with
        | zero => exact hk
        | succ j ihj => exact hsharp (k + j) ht ihj
      refine ⟨next, by simp, hs.correct ht fun b => (hall n b).mono (by omega)⟩
    · obtain ⟨settled, hsettled, hc⟩ := ih (k + 1) hs' ht' (hsharp k ht hk) (by omega)
      refine ⟨settled, ?_, hc⟩
      simpa [heq] using hsettled

end Settle

theorem Idoms.sound_start {e : Fin n} (he : e.val = 0) : (Idoms.start e).Sound g order := by
  have hget : ∀ b, (Idoms.start e).get b = if e = b then some e else none := fun b => by
    rw [Idoms.start, Idoms.get_set]
    simp [Vector.get]
  have hsome : ∀ {b d : Fin n}, (Idoms.start e).get b = some d → b = e ∧ d = e := by
    intro b d hd
    rw [hget] at hd
    split at hd
    · rename_i heb
      exact ⟨heb.symm, (Option.some.inj hd).symm⟩
    · cases hd
  refine ⟨fun b hb => ?_, fun b hb => ?_, fun b d hd => ?_, fun b d hd hb => ?_,
    fun b d a hd ha hne => ?_⟩
  · rw [hget, if_pos (Fin.ext (he.trans hb.symm)), Fin.ext (he.trans hb.symm)]
  · obtain ⟨d, hd⟩ := Option.isSome_iff_exists.mp hb
    exact Graph.reachable_entry ((hsome hd).1 ▸ he)
  · rw [(hsome hd).2, hget, if_pos rfl]
    rfl
  · exact absurd ((hsome hd).1 ▸ he) hb
  · exact absurd (ha.eq_entry ((hsome hd).1 ▸ he)) hne

theorem Idoms.find?_cons (pred : Fin n → List (Fin n)) (e : Fin n) (rest : List (Fin n)) :
    Idoms.find? pred (e :: rest) =
      settle? pred (e :: rest).idxOf rest (n * n + 2) (Idoms.start e) := by
  have hpos : (Vector.ofFn (e :: rest).idxOf).get = (e :: rest).idxOf := by
    funext b
    exact Vector.getElem_ofFn b.isLt
  rw [Idoms.find?, hpos]

/-- The iteration ends, with the immediate dominators. -/
theorem exists_find? (h : g.Lists order) :
    ∃ idoms, Idoms.find? g.pred order = some idoms ∧ idoms.Correct g := by
  cases order with
  | nil =>
    have hno : ∀ b, ¬ g.Reachable b := fun b hb => List.not_mem_nil ((h.mem_iff b).mpr hb)
    have hget : ∀ b, (Vector.replicate n (none : Option (Fin n))).get b = none := by
      simp [Vector.get]
    refine ⟨_, rfl, fun b hb => absurd (Graph.reachable_entry hb) (hno b), fun b => ?_,
      fun b d hd => ?_, fun b d hd => ?_, fun b d a hd => ?_⟩
    · rw [hget]
      exact ⟨by simp, fun hb => absurd hb (hno b)⟩
    all_goals rw [hget] at hd; cases hd
  | cons e rest =>
    have he : e.val = 0 := h.val_first
    have hn : n ≤ n * n := Nat.le_mul_self n
    obtain ⟨first, hfirst, hs, ht, -⟩ := exists_round h he (Idoms.sound_start he)
    rw [Idoms.find?_cons]
    by_cases heq : first = Idoms.start e
    · exact exists_settle? h he 0 (n * n + 1) (Idoms.sound_start he) (heq ▸ ht)
        (fun _ => .zero) (by omega)
    · obtain ⟨settled, hsettled, hc⟩ :=
        exists_settle? h he 0 (n * n) hs ht (fun _ => .zero) (by omega)
      refine ⟨settled, ?_, hc⟩
      rw [settle?, hfirst]
      simpa [heq] using hsettled

/-! ## Chains of immediate dominators -/

namespace Idoms.Correct

theorem dominates_iff (hc : Correct g idoms) (hd : idoms.get b = some d) :
    g.Dominates a b ↔ a = b ∨ g.Dominates a d := by
  refine ⟨fun h => ?_, fun h => ?_⟩
  · by_cases hab : a = b
    · exact .inl hab
    · exact .inr (hc.nearest b d a hd h hab)
  · rcases h with rfl | h
    · exact Graph.dominates_refl a
    · exact h.trans (hc.dominates b d hd)

/-- By induction on the limit. Each step up the chain comes earlier in the order, so as many steps
are enough as the place that the node has there. -/
theorem mem_chain_iff_of_le (hc : Correct g idoms) (limit : Nat) (hb : g.Reachable b)
    (hlimit : g.reversePostorder.idxOf b ≤ limit) :
    a ∈ idoms.chain limit b ↔ g.Dominates a b := by
  have hl := g.lists_reversePostorder
  have hself : ∀ x : Fin n, x.val = 0 → (a ∈ [x] ↔ g.Dominates a x) := fun x h0 => by
    rw [List.mem_singleton]
    exact ⟨fun h => h ▸ Graph.dominates_refl a, fun h => h.eq_entry h0⟩
  induction limit generalizing b with
  | zero =>
    refine hself b ?_
    by_contra h0
    obtain ⟨p, -, -, hlt⟩ := hl.parent b ((hl.mem_iff b).mpr hb) h0
    omega
  | succ limit ih =>
    obtain ⟨d, hd⟩ := Option.isSome_iff_exists.mp ((hc.isSome_iff b).mpr hb)
    rw [chain, hd]
    by_cases hdb : d = b
    · simp only [hdb, if_true]
      refine hself b ?_
      by_contra h0
      exact hc.ne b d hd h0 hdb
    · have hdom := hc.dominates b d hd
      have hr := hdom.reachable hb
      have hle := hl.idxOf_le_of_dominates hb hdom
      have hne : g.reversePostorder.idxOf d ≠ g.reversePostorder.idxOf b :=
        fun e => hdb ((List.idxOf_inj ((hl.mem_iff d).mpr hr)).mp e)
      have hd' : g.reversePostorder.idxOf d ≤ limit := by omega
      simp only [hdb, if_false, List.mem_cons]
      exact (or_congr_right (ih hr hd')).trans (hc.dominates_iff hd).symm

/-- The chain from a node that can be reached has its dominators. -/
theorem mem_chain_iff (hc : Correct g idoms) (hb : g.Reachable b) :
    a ∈ idoms.chain n b ↔ g.Dominates a b := by
  have hl := g.lists_reversePostorder
  refine hc.mem_chain_iff_of_le n hb (List.idxOf_le_length.trans ?_)
  simpa using hl.nodup.length_le_card

/-- The chain from a node that cannot be reached has the node alone. -/
theorem chain_eq_of_not_reachable (hc : Correct g idoms) (hb : ¬ g.Reachable b) (limit : Nat) :
    idoms.chain limit b = [b] := by
  have hnone : idoms.get b = none :=
    Option.not_isSome_iff_eq_none.mp (mt (hc.isSome_iff b).mp hb)
  cases limit with
  | zero => rfl
  | succ limit => rw [chain, hnone]

end Idoms.Correct

end TypedSSA.Flow
