import TypedSSA.Proofs.Flow.Cfg

/-!
# The iteration, turn by turn

The definitions of `Flow.Dominators` give up where a chain would leave the nodes that have guesses,
where it would not go up in the order, and after a number of passes. Here the loops stand without
these guards, on tables that are read and written by number, so that each of them may go wrong
(`Mishap`) or go on forever. `Loops.turn` is what happens between two tests of a loop: a pass is
begun, a node of it is taken up, one of two chains goes up by a node, or a guess is recorded.

`Cfg.iteration_ends` says that none of this happens. The loops take the same way as the guarded
definitions: for each of these there is a run of turns (`runs_meet`, `runs_fold`, `runs_improve`,
`runs_pass`, `runs_settle`) on which all guesses are sound, and as a turn leaves no choice, there is
no other run (`Loops.Runs.of_reaches`).
-/

namespace TypedSSA.Flow

/-! ## Tables -/

/-- What may go wrong in a turn. -/
inductive Mishap where
  /-- A table has no entry with this number. -/
  | outOfRange (index : Nat)
  /-- A chain is to go up from a node that has no guess. -/
  | noGuess (node : Nat)
deriving DecidableEq

section Tables

variable {α : Type}

def fetch (table : List α) (i : Nat) : Except Mishap α :=
  match table[i]? with
  | some x => .ok x
  | none => .error (.outOfRange i)

def store (table : List α) (i : Nat) (x : α) : Except Mishap (List α) :=
  if i < table.length then .ok (table.set i x) else .error (.outOfRange i)

theorem fetch_eq_ok {table : List α} {i : Nat} {x : α} (h : table[i]? = some x) :
    fetch table i = .ok x := by
  rw [fetch, h]

theorem store_eq_ok {table : List α} {i : Nat} (h : i < table.length) (x : α) :
    store table i x = .ok (table.set i x) := if_pos h

end Tables

/-! ## Loops -/

/-- What is under way: nothing, or the predecessors of `node` are gone through. The chains from `x`
and `y` are followed to where they meet, and from there on that of each node in `rest` in turn. -/
inductive Task where
  | idle
  | meet (node x y : Nat) (rest : List Nat)
deriving DecidableEq

/-- Where the loops stand. -/
structure Moment where
  /-- The guesses. -/
  idoms : List (Option Nat)
  /-- Whether this pass has changed a guess. -/
  changed : Bool
  /-- The nodes of this pass that are still to come. -/
  left : List Nat
  task : Task
deriving DecidableEq

/-- What the loops read: predecessors, the order, and the place of each node in it. -/
structure Loops where
  preds : List (List Nat)
  order : List Nat
  positions : List Nat
deriving DecidableEq

namespace Loops

/-- The place of each node in the order, and `far` for nodes that are not in it. -/
def places (far size : Nat) (order : List Nat) : Except Mishap (List Nat) :=
  order.zipIdx.foldlM (fun table p => store table p.1 p.2) (List.replicate size far)

/-- The loops, and the moment before the first turn: only the entry has a guess, itself. -/
def prepare (far : Nat) (preds : List (List Nat)) (order : List Nat) :
    Except Mishap (Loops × Moment) := do
  let positions ← places far preds.length order
  let unknown := List.replicate preds.length none
  let idoms ← match order with
    | [] => pure unknown
    | entry :: _ => store unknown entry (some entry)
  return (⟨preds, order, positions⟩, ⟨idoms, false, order.tail, .idle⟩)

/-- Those of the nodes that have guesses. -/
def known (idoms : List (Option Nat)) : List Nat → Except Mishap (List Nat)
  | [] => pure []
  | a :: rest => do
    let d ← fetch idoms a
    let rest ← known idoms rest
    return if d.isSome then a :: rest else rest

/-- The guess for a node, which there must be. -/
def up (idoms : List (Option Nat)) (a : Nat) : Except Mishap Nat := do
  match ← fetch idoms a with
  | some d => return d
  | none => throw (.noGuess a)

/-- Goes up from the one of `x` and `y` that comes later in the order. If neither does, both stay
where they are. -/
def climb (l : Loops) (idoms : List (Option Nat)) (x y : Nat) : Except Mishap (Nat × Nat) := do
  let p ← fetch l.positions x
  let q ← fetch l.positions y
  if q < p then return (← up idoms x, y)
  else if p < q then return (x, ← up idoms y)
  else return (x, y)

/-- Records a guess. -/
def record (s : Moment) (node d : Nat) : Except Mishap Moment := do
  if (← fetch s.idoms node) = some d then return { s with task := .idle }
  else return { s with idoms := ← store s.idoms node (some d), changed := true, task := .idle }

/-- The next moment, or none if a pass has changed nothing. -/
def turn (l : Loops) (s : Moment) : Except Mishap (Option Moment) := do
  match s.task, s.left with
  | .meet node x y rest, _ =>
    if x = y then
      match rest with
      | [] => return some (← record s node x)
      | p :: rest => return some { s with task := .meet node x p rest }
    else
      let next ← l.climb s.idoms x y
      return some { s with task := .meet node next.1 next.2 rest }
  | .idle, node :: left =>
    match ← known s.idoms (← fetch l.preds node) with
    | [] => return some { s with left := left }
    | p :: rest => return some { s with left := left, task := .meet node p p rest }
  | .idle, [] =>
    if s.changed then return some { s with changed := false, left := l.order.tail }
    else return none

/-- The loops come from one moment to the other. -/
def Reaches (l : Loops) : Moment → Moment → Prop :=
  Relation.ReflTransGen fun s next => l.turn s = .ok (some next)

/-- The loops come from one moment to the other, and `good` holds at each after the first. -/
def Runs (l : Loops) (good : Moment → Prop) : Moment → Moment → Prop :=
  Relation.ReflTransGen fun s next => l.turn s = .ok (some next) ∧ good next

variable {l : Loops} {good : Moment → Prop} {s next last : Moment}

theorem Runs.single (h : l.turn s = .ok (some next)) (hgood : good next) : l.Runs good s next :=
  Relation.ReflTransGen.single ⟨h, hgood⟩

theorem Runs.reaches (h : l.Runs good s last) : l.Reaches s last :=
  Relation.ReflTransGen.mono (fun _ _ h => h.1) _ _ h

/-- A turn leaves no choice, so what holds along a run to the end holds at every moment, and none of
them goes wrong. -/
theorem Runs.of_reaches (h : l.Runs good s last) (hend : l.turn last = .ok none) (hs : good s)
    (hr : l.Reaches s next) : good next ∧ ∃ after?, l.turn next = .ok after? := by
  induction h using Relation.ReflTransGen.head_induction_on with
  | refl =>
    cases hr using Relation.ReflTransGen.head_induction_on with
    | refl => exact ⟨hs, none, hend⟩
    | head h' _ =>
      rw [hend] at h'
      cases h'
  | head h' _ ih =>
    cases hr using Relation.ReflTransGen.head_induction_on with
    | refl => exact ⟨hs, _, h'.1⟩
    | head h'' hr =>
      rw [h'.1] at h''
      cases h''
      exact ih h'.2 hr

end Loops

/-! ## Tables of nodes -/

variable {n : Nat} {g : Graph n} {order : List (Fin n)} {idoms : Idoms n} {a b d m : Fin n}

/-- The guesses, by number. -/
def Idoms.numbers (idoms : Idoms n) : List (Option Nat) := idoms.toList.map (Option.map Fin.val)

theorem fetch_numbers (idoms : Idoms n) (b : Fin n) :
    fetch idoms.numbers b.val = .ok ((idoms.get b).map Fin.val) := by
  refine fetch_eq_ok ?_
  rw [Idoms.numbers, List.getElem?_map, List.getElem?_eq_getElem (by simp), Vector.getElem_toList]
  rfl

theorem store_numbers (idoms : Idoms n) (b d : Fin n) :
    store idoms.numbers b.val (some d.val) = .ok (Idoms.numbers (idoms.set b (some d) b.isLt)) := by
  rw [store_eq_ok (by simp [Idoms.numbers]), Idoms.numbers, Idoms.numbers, Vector.toList_set,
    List.map_set]
  rfl

theorem known_numbers (idoms : Idoms n) (nodes : List (Fin n)) :
    Loops.known idoms.numbers (nodes.map Fin.val) =
      .ok ((nodes.filter fun a => (idoms.get a).isSome).map Fin.val) := by
  induction nodes with
  | nil => rfl
  | cons a nodes ih =>
    rw [List.map_cons, Loops.known, fetch_numbers, ih]
    cases h : idoms.get a <;> simp [h, bind, Except.bind, pure, Except.pure]

/-- The guesses at this moment are sound. -/
def Moment.Sound (g : Graph n) (order : List (Fin n)) (s : Moment) : Prop :=
  ∃ idoms : Idoms n, s.idoms = idoms.numbers ∧ idoms.Sound g order

namespace Loops

/-- The loops read this graph and this order. -/
structure Reads (g : Graph n) (order : List (Fin n)) (l : Loops) : Prop where
  preds (b : Fin n) : fetch l.preds b.val = .ok ((g.pred b).map Fin.val)
  nodes : l.order = order.map Fin.val
  positions (b : Fin n) : b ∈ order → fetch l.positions b.val = .ok (order.idxOf b)

end Loops

/-! ## Runs -/

theorem Idoms.set_of_get (h : idoms.get b = some d) : idoms.set b (some d) b.isLt = idoms := by
  rw [← h]
  exact Vector.set_getElem_self b.isLt

/-- A guess is recorded, and it is noticed if it is a new one. -/
theorem turn_record (l : Loops) (changed : Bool) (left : List Nat) (b d : Fin n) :
    l.turn ⟨idoms.numbers, changed, left, .meet b.val d.val d.val []⟩ =
      .ok (some ⟨Idoms.numbers (idoms.set b (some d) b.isLt),
        changed || decide (idoms.get b ≠ some d), left, .idle⟩) := by
  have hiff : (idoms.get b).map Fin.val = some d.val ↔ idoms.get b = some d := by
    cases idoms.get b <;> simp [Fin.ext_iff]
  simp only [Loops.turn, if_true, Loops.record, fetch_numbers, store_numbers, bind, Except.bind,
    hiff]
  by_cases hd : idoms.get b = some d
  · simp [hd, Idoms.set_of_get hd]
    rfl
  · simp [hd]
    rfl

section Runs

variable {l : Loops} (h : g.Lists order) (hl : l.Reads g order)

include h hl

theorem climb_fst (hs : idoms.Sound g order) (ha : idoms.get a = some d)
    (hb : (idoms.get b).isSome) (hlt : order.idxOf b < order.idxOf a) :
    l.climb idoms.numbers a.val b.val = .ok (d.val, b.val) := by
  have hp := hl.positions a (hs.mem_order h (by simp [ha]))
  have hq := hl.positions b (hs.mem_order h hb)
  have hup : Loops.up idoms.numbers a.val = .ok d.val := by
    rw [Loops.up, fetch_numbers, ha]
    rfl
  simp only [Loops.climb, hp, hq, hup, bind, Except.bind, if_pos hlt]
  rfl

theorem climb_snd (hs : idoms.Sound g order) (ha : (idoms.get a).isSome)
    (hb : idoms.get b = some d) (hlt : order.idxOf a < order.idxOf b) :
    l.climb idoms.numbers a.val b.val = .ok (a.val, d.val) := by
  have hp := hl.positions a (hs.mem_order h ha)
  have hq := hl.positions b (hs.mem_order h (by simp [hb]))
  have hup : Loops.up idoms.numbers b.val = .ok d.val := by
    rw [Loops.up, fetch_numbers, hb]
    rfl
  simp only [Loops.climb, hp, hq, hup, bind, Except.bind, if_neg (Nat.not_lt_of_lt hlt),
    if_pos hlt]
  rfl

/-- Two chains are followed to where they meet. -/
theorem runs_meet (hs : idoms.Sound g order) (hm : meet? order.idxOf idoms a b = some m)
    (ha : (idoms.get a).isSome) (hb : (idoms.get b).isSome) (changed : Bool) (left : List Nat)
    (node : Nat) (rest : List Nat) :
    l.Runs (Moment.Sound g order) ⟨idoms.numbers, changed, left, .meet node a.val b.val rest⟩
      ⟨idoms.numbers, changed, left, .meet node m.val m.val rest⟩ := by
  have step : ∀ {x y x' y' : Fin n}, x ≠ y →
      l.climb idoms.numbers x.val y.val = .ok (x'.val, y'.val) →
      l.Runs (Moment.Sound g order) ⟨idoms.numbers, changed, left, .meet node x.val y.val rest⟩
        ⟨idoms.numbers, changed, left, .meet node x'.val y'.val rest⟩ := by
    intro x y x' y' hne hclimb
    refine .single ?_ ⟨idoms, rfl, hs⟩
    simp only [Loops.turn, if_neg (Fin.val_ne_of_ne hne), hclimb]
    rfl
  fun_induction meet? order.idxOf idoms a b with
  | case1 a =>
    obtain rfl := Option.some.inj hm
    exact .refl
  | case2 | case4 | case5 | case7 => cases hm
  | case3 a b hne hlt d hd _ ih =>
    exact (step hne (climb_fst h hl hs hd hb hlt)).trans (ih hm (hs.known a d hd) hb)
  | case6 a b hne hle d hd _ ih =>
    have hlt : order.idxOf a < order.idxOf b :=
      lt_of_le_of_ne (not_lt.mp hle) fun e => hne ((List.idxOf_inj (hs.mem_order h ha)).mp e)
    exact (step hne (climb_snd h hl hs ha hd hlt)).trans (ih hm ha (hs.known b d hd))

/-- The chains of a node's predecessors are followed to where all of them meet. -/
theorem runs_fold (hs : idoms.Sound g order) {ps : List (Fin n)}
    (hm : ps.foldlM (meet? order.idxOf idoms) a = some m) (ha : (idoms.get a).isSome)
    (hps : ∀ p ∈ ps, (idoms.get p).isSome) (changed : Bool) (left : List Nat) (node : Nat) :
    l.Runs (Moment.Sound g order)
      ⟨idoms.numbers, changed, left, .meet node a.val a.val (ps.map Fin.val)⟩
      ⟨idoms.numbers, changed, left, .meet node m.val m.val []⟩ := by
  induction ps generalizing a with
  | nil =>
    obtain rfl := Option.some.inj hm
    exact .refl
  | cons p ps ih =>
    rw [List.forall_mem_cons] at hps
    obtain ⟨c, hc, hsome, -⟩ := exists_meet? h hs ha hps.1
    rw [List.foldlM_cons, hc] at hm
    have hnext : l.turn
          ⟨idoms.numbers, changed, left, .meet node a.val a.val (p.val :: ps.map Fin.val)⟩ =
        .ok (some ⟨idoms.numbers, changed, left, .meet node a.val p.val (ps.map Fin.val)⟩) := by
      simp only [Loops.turn, if_true]
      rfl
    exact (Loops.Runs.single hnext ⟨idoms, rfl, hs⟩).trans
      ((runs_meet h hl hs hc ha hps.1 changed left node _).trans (ih hm hsome hps.2))

/-- A node gets its guess. -/
theorem runs_improve (hs : idoms.Sound g order) (hi : Idoms.Improves g order idoms b d)
    (hd : improve? g.pred order.idxOf idoms b = some (idoms.set b (some d) b.isLt))
    (changed : Bool) (left : List Nat) :
    l.Runs (Moment.Sound g order) ⟨idoms.numbers, changed, b.val :: left, .idle⟩
      ⟨Idoms.numbers (idoms.set b (some d) b.isLt), changed || decide (idoms.get b ≠ some d), left,
        .idle⟩ := by
  have hmem : ∀ p, p ∈ (g.pred b).filter (fun a => (idoms.get a).isSome) ↔
      b ∈ g.succ p ∧ (idoms.get p).isSome := fun p => by
    rw [List.mem_filter, Graph.mem_pred]
  unfold improve? at hd
  split at hd
  · rename_i hnil
    obtain ⟨p, edge, hp, -⟩ := hi.parent
    have := (hmem p).mpr ⟨edge, hp⟩
    rw [hnil] at this
    cases this
  · rename_i first rest hcons
    rw [hcons] at hmem
    obtain ⟨m, hm, hset⟩ := Option.bind_eq_some_iff.mp hd
    obtain rfl : m = d := by
      have hget := congrArg (fun v => Vector.get v b) (Option.some.inj hset)
      simpa only [Idoms.get_set, if_true, Option.some.injEq] using hget
    have htake : l.turn ⟨idoms.numbers, changed, b.val :: left, .idle⟩ =
        .ok (some ⟨idoms.numbers, changed, left,
          .meet b.val first.val first.val (rest.map Fin.val)⟩) := by
      simp only [Loops.turn, hl.preds, known_numbers, hcons, bind, Except.bind, List.map_cons]
      rfl
    have hfold := runs_fold h hl hs hm ((hmem first).mp List.mem_cons_self).2
      (fun p hp => ((hmem p).mp (List.mem_cons_of_mem _ hp)).2) changed left b.val
    have hrecord : l.Runs (Moment.Sound g order) _ _ :=
      .single (turn_record l changed left b m) ⟨_, rfl, hi.sound hs⟩
    exact (Loops.Runs.single htake ⟨idoms, rfl, hs⟩).trans (hfold.trans hrecord)

/-- The nodes of a pass get their guesses. -/
theorem runs_pass {pre nodes : List (Fin n)} (ho : order = pre ++ nodes)
    (hpre : ∃ e ∈ pre, e.val = 0) (hs : idoms.Sound g order)
    (hknown : ∀ b ∈ pre, (idoms.get b).isSome) (changed : Bool) :
    ∃ next, pass? g.pred order.idxOf nodes idoms = some next ∧ next.Sound g order ∧
      (∀ b ∉ nodes, next.get b = idoms.get b) ∧
      l.Runs (Moment.Sound g order) ⟨idoms.numbers, changed, nodes.map Fin.val, .idle⟩
        ⟨next.numbers, changed || decide (next ≠ idoms), [], .idle⟩ := by
  induction nodes generalizing pre idoms changed with
  | nil =>
    refine ⟨idoms, rfl, hs, fun _ _ => rfl, ?_⟩
    rw [show (changed || decide (idoms ≠ idoms)) = changed by simp]
    exact .refl
  | cons b nodes ih =>
    obtain ⟨d, hd, hi, hknown'⟩ := exists_improves h ho hpre hs hknown
    obtain ⟨e, he, he0⟩ := hpre
    obtain ⟨next, hnext, hsound, hrest, hrun⟩ := ih (by simp [ho])
      ⟨e, List.mem_append_left _ he, he0⟩ (hi.sound hs) hknown'
      (changed || decide (idoms.get b ≠ some d))
    have hb : b ∉ nodes := (List.nodup_cons.mp (List.nodup_append.mp (ho ▸ h.nodup)).2.1).1
    refine ⟨next, ?_, hsound, fun x hx => ?_, ?_⟩
    · show (improve? g.pred order.idxOf idoms b).bind _ = _
      rw [hd]
      exact hnext
    · rw [List.mem_cons, not_or] at hx
      rw [hrest x hx.2, Idoms.get_set, if_neg (Ne.symm hx.1)]
    · -- the guess of `b` is not changed again in this pass
      have hsame : next = idoms ↔ idoms.get b = some d ∧ next = idoms.set b (some d) b.isLt := by
        constructor
        · intro e
          have hget := hrest b hb
          rw [Idoms.get_set, if_pos rfl, e] at hget
          exact ⟨hget, by rw [Idoms.set_of_get hget, e]⟩
        · rintro ⟨hget, e⟩
          rw [e, Idoms.set_of_get hget]
      have hflag : (changed || decide (next ≠ idoms)) = (changed || decide (idoms.get b ≠ some d) ||
          decide (next ≠ idoms.set b (some d) b.isLt)) := by
        rw [Bool.or_assoc, ← Bool.decide_or]
        simp only [ne_eq, hsame, not_and_or]
      rw [hflag]
      exact (runs_improve h hl hs hi hd changed (nodes.map Fin.val)).trans hrun

end Runs

section Settle

variable {l : Loops} {e : Fin n} {rest : List (Fin n)} (h : g.Lists (e :: rest))
  (hl : l.Reads g (e :: rest))

include h hl

/-- Passes are made until one changes nothing. -/
theorem runs_settle {limit : Nat} {settled : Idoms n} (hs : idoms.Sound g (e :: rest))
    (hsettle : settle? g.pred (e :: rest).idxOf rest limit idoms = some settled) :
    l.Runs (Moment.Sound g (e :: rest)) ⟨idoms.numbers, false, rest.map Fin.val, .idle⟩
      ⟨settled.numbers, false, [], .idle⟩ := by
  induction limit generalizing idoms with
  | zero => cases hsettle
  | succ limit ih =>
    have he : e.val = 0 := h.val_first
    obtain ⟨next, hnext, hsound, -, hrun⟩ := runs_pass h hl (show e :: rest = [e] ++ rest from rfl)
      ⟨e, List.mem_singleton_self e, he⟩ hs
      (List.forall_mem_singleton.mpr (by rw [hs.entry e he]; rfl)) false
    replace hsettle : (if next = idoms then some idoms else
        settle? g.pred (e :: rest).idxOf rest limit next) = some settled := by
      rwa [settle?, hnext] at hsettle
    by_cases hsame : next = idoms
    · rw [if_pos hsame] at hsettle
      obtain rfl := Option.some.inj hsettle
      rwa [Bool.false_or, decide_eq_false (not_not_intro hsame), hsame] at hrun
    · rw [if_neg hsame] at hsettle
      rw [Bool.false_or, decide_eq_true hsame] at hrun
      have hagain : l.turn ⟨next.numbers, true, [], .idle⟩ =
          .ok (some ⟨next.numbers, false, rest.map Fin.val, .idle⟩) := by
        simp only [Loops.turn, if_true, hl.nodes, List.map_cons, List.tail_cons]
        rfl
      exact hrun.trans ((Loops.Runs.single hagain ⟨next, rfl, hsound⟩).trans (ih hsound hsettle))

end Settle

/-! ## Preparation -/

namespace Idoms.Correct

theorem idxOf_lt (hc : Idoms.Correct g idoms) (h : g.Lists order) (hd : idoms.get b = some d)
    (hne : d ≠ b) : order.idxOf d < order.idxOf b :=
  h.idxOf_lt_of_dominates ((hc.isSome_iff b).mp (by simp [hd])) hne (hc.dominates b d hd)

/-- The immediate dominators are a sound guess. -/
theorem sound (hc : Idoms.Correct g idoms) (h : g.Lists order) : idoms.Sound g order where
  entry := hc.entry
  reachable b := (hc.isSome_iff b).mp
  known b d hd :=
    (hc.isSome_iff d).mpr ((hc.dominates b d hd).reachable ((hc.isSome_iff b).mp (by simp [hd])))
  before b d hd hb := hc.idxOf_lt h hd (hc.ne b d hd hb)
  strict := hc.nearest

end Idoms.Correct

/-- The places of different nodes do not get in each other's way. -/
theorem exists_store_places {nodes : List (Fin n)} (hnd : nodes.Nodup) (k : Nat)
    {table : List Nat} (hlen : table.length = n) :
    ∃ placed, ((nodes.map Fin.val).zipIdx k).foldlM (fun table p => store table p.1 p.2) table =
        .ok placed ∧
      ∀ b : Fin n, placed[b.val]? =
        if b ∈ nodes then some (k + nodes.idxOf b) else table[b.val]? := by
  induction nodes generalizing k table with
  | nil => exact ⟨table, rfl, fun _ => rfl⟩
  | cons a nodes ih =>
    rw [List.nodup_cons] at hnd
    have ha : a.val < table.length := hlen ▸ a.isLt
    have hset : (table.set a.val k).length = n := List.length_set.trans hlen
    obtain ⟨placed, hplaced, hget⟩ := ih hnd.2 (k + 1) hset
    refine ⟨placed, ?_, fun b => ?_⟩
    · rw [List.map_cons, List.zipIdx_cons, List.foldlM_cons, store_eq_ok ha]
      exact hplaced
    · rw [hget]
      by_cases hb : b ∈ nodes
      · have hne : a ≠ b := fun e => hnd.1 (e ▸ hb)
        rw [if_pos hb, if_pos (List.mem_cons_of_mem _ hb), List.idxOf_cons_ne _ hne]
        congr 1
        omega
      · rw [if_neg hb]
        by_cases hne : a = b
        · subst hne
          simp [ha]
        · rw [if_neg (by simpa [Ne.symm hne] using hb),
            List.getElem?_set_ne (Fin.val_ne_of_ne hne)]

theorem Idoms.numbers_replicate (n : Nat) :
    Idoms.numbers (Vector.replicate n (none : Option (Fin n))) = List.replicate n none := by
  simp [Idoms.numbers]

theorem exists_places (h : g.Lists order) {preds : List (List Nat)} (hlen : preds.length = n)
    (hpreds : ∀ b : Fin n, fetch preds b.val = .ok ((g.pred b).map Fin.val)) (far : Nat) :
    ∃ placed, Loops.places far preds.length (order.map Fin.val) = .ok placed ∧
      Loops.Reads g order ⟨preds, order.map Fin.val, placed⟩ := by
  obtain ⟨placed, hplaced, hget⟩ :=
    exists_store_places h.nodup 0 (List.length_replicate (n := n) (a := far))
  refine ⟨placed, ?_, hpreds, rfl, fun b hb => fetch_eq_ok ?_⟩
  · rw [Loops.places, hlen, hplaced]
  · rw [hget, if_pos hb, Nat.zero_add]

/-- From their first moment on, the loops run to the end of the guarded iteration. -/
theorem exists_prepare (h : g.Lists order) {settled : Idoms n}
    (hsettled : Idoms.find? g.pred order = some settled) {preds : List (List Nat)}
    (hlen : preds.length = n)
    (hpreds : ∀ b : Fin n, fetch preds b.val = .ok ((g.pred b).map Fin.val)) (far : Nat) :
    ∃ l first, Loops.prepare far preds (order.map Fin.val) = .ok (l, first) ∧
      Moment.Sound g order first ∧
      l.Runs (Moment.Sound g order) first ⟨settled.numbers, false, [], .idle⟩ := by
  obtain ⟨placed, hplaced, hl⟩ := exists_places h hlen hpreds far
  obtain ⟨found, hfound, hc⟩ := exists_find? h
  obtain rfl : found = settled := Option.some.inj (hfound.symm.trans hsettled)
  refine ⟨⟨preds, order.map Fin.val, placed⟩, ?_⟩
  cases order with
  | nil =>
    refine ⟨⟨found.numbers, false, [], .idle⟩, ?_, ⟨_, rfl, hc.sound h⟩, .refl⟩
    obtain rfl := Option.some.inj hfound
    rw [Loops.prepare, hplaced, hlen, Idoms.numbers_replicate]
    rfl
  | cons e rest =>
    have hs : (Idoms.start e).Sound g (e :: rest) := Idoms.sound_start h.val_first
    rw [Idoms.find?_cons] at hsettled
    refine ⟨⟨(Idoms.start e).numbers, false, rest.map Fin.val, .idle⟩, ?_, ⟨_, rfl, hs⟩,
      runs_settle h hl hs hsettled⟩
    rw [Loops.prepare, hplaced, hlen]
    simp only [List.map_cons, ← Idoms.numbers_replicate, store_numbers, bind, Except.bind]
    rfl

/-! ## The walk up -/

/-- What is found out at `current` on the way up to `a`: an answer, or where to go on from. -/
def ascend (idoms : List (Option Nat)) (a current : Nat) : Except Mishap (Bool ⊕ Nat) := do
  if current = a then return .inl true
  match ← fetch idoms current with
  | some d => return if d = current then .inl false else .inr d
  | none => return .inl false

/-- The way up from `current` comes to an end with this answer. -/
inductive Ascends (idoms : List (Option Nat)) (a : Nat) : (current : Nat) → (answer : Bool) → Prop
  | stop {current : Nat} {answer : Bool} (h : ascend idoms a current = .ok (.inl answer)) :
    Ascends idoms a current answer
  | up {current d : Nat} {answer : Bool} (h : ascend idoms a current = .ok (.inr d))
    (above : Ascends idoms a d answer) : Ascends idoms a current answer

theorem ascend_numbers (hne : b ≠ a) : ascend idoms.numbers a.val b.val = .ok
    (match idoms.get b with
      | some d => if d = b then .inl false else .inr d.val
      | none => .inl false) := by
  simp only [ascend, if_neg (Fin.val_ne_of_ne hne), fetch_numbers, bind, Except.bind]
  cases idoms.get b with
  | none => rfl
  | some d => simp only [Option.map_some, Fin.ext_iff]; rfl

theorem chain_of_root (h : ∀ d, idoms.get b = some d → d = b) (limit : Nat) :
    idoms.chain limit b = [b] := by
  cases limit with
  | zero => rfl
  | succ limit =>
    cases hd : idoms.get b with
    | none => rw [Idoms.chain, hd]
    | some d => simp only [Idoms.chain, hd, h d hd, if_true]

/-- The way up looks through the chain. -/
theorem ascends_chain (hc : idoms.Correct g) (limit : Nat)
    (hlimit : g.reversePostorder.idxOf b ≤ limit) :
    Ascends idoms.numbers a.val b.val ((idoms.chain limit b).contains a) := by
  have hself : ∀ l : List (Fin n), Ascends idoms.numbers a.val a.val ((a :: l).contains a) := by
    intro l
    refine .stop ?_
    rw [ascend, if_pos rfl, List.contains_cons, beq_self_eq_true, Bool.true_or]
    rfl
  have hroot : ∀ x : Fin n, (∀ d, idoms.get x = some d → d = x) →
      Ascends idoms.numbers a.val x.val ([x].contains a) := by
    intro x hx
    by_cases hxa : x = a
    · exact hxa ▸ hself []
    · refine .stop ?_
      rw [ascend_numbers hxa]
      cases hd : idoms.get x with
      | none => simp [Ne.symm hxa]
      | some d => simp [hx d hd, Ne.symm hxa]
  induction limit generalizing b with
  | zero =>
    refine hroot b fun d hd => ?_
    by_contra hne
    have := hc.idxOf_lt g.lists_reversePostorder hd hne
    omega
  | succ limit ih =>
    by_cases hb : ∀ d, idoms.get b = some d → d = b
    · rw [chain_of_root hb]
      exact hroot b hb
    · push Not at hb
      obtain ⟨d, hd, hne⟩ := hb
      have hlt := hc.idxOf_lt g.lists_reversePostorder hd hne
      rw [Idoms.chain, hd]
      simp only [if_neg hne]
      by_cases hba : b = a
      · exact hba ▸ hself _
      · have hup : ascend idoms.numbers a.val b.val = .ok (.inr d.val) := by
          simp only [ascend_numbers hba, hd, if_neg hne]
        rw [List.contains_cons, beq_eq_false_iff_ne.mpr (Ne.symm hba), Bool.false_or]
        exact .up hup (ih (by omega))

end TypedSSA.Flow

namespace TypedSSA.Cfg

open TypedSSA.Flow

variable {n : Nat} {g : Graph n}

/-- The predecessors, by number. -/
def numberedPreds (c : Cfg n) : List (List Nat) := c.preds.toList.map (List.map Fin.val)

theorem fetch_numberedPreds (b : Fin n) :
    fetch (ofGraph g).numberedPreds b.val = .ok ((g.pred b).map Fin.val) := by
  refine fetch_eq_ok ?_
  rw [numberedPreds, List.getElem?_map, List.getElem?_eq_getElem (by simp), Vector.getElem_toList,
    Option.map_some]
  exact congrArg (fun l => some (l.map Fin.val)) (pred_ofGraph g)

theorem ascends_dominates (a b : Fin n) :
    Ascends (ofGraph g).idoms.numbers a.val b.val ((ofGraph g).dominates a b) := by
  refine ascends_chain (idoms_ofGraph g) n (List.idxOf_le_length.trans ?_)
  simpa using g.lists_reversePostorder.nodup.length_le_card

/-- The loops that look for immediate dominators come to an end for any list of blocks, with the
result of the guarded iteration, which does not give up. At no moment do they leave a table or the
nodes that have guesses, and at every moment a guess comes before its node in the order, for all
nodes but the entry. Then the way up from any block comes to an end as well. -/
theorem iteration_ends (blocks : List Block) (far : Nat) :
    Idoms.find? (ofBlocks blocks).preds.get (ofBlocks blocks).order =
      some (ofBlocks blocks).idoms ∧
    (∃ l first, Loops.prepare far (ofBlocks blocks).numberedPreds
        ((ofBlocks blocks).order.map Fin.val) = .ok (l, first) ∧
      (∃ last, l.Reaches first last ∧ l.turn last = .ok none ∧
        last.idoms = (ofBlocks blocks).idoms.numbers) ∧
      ∀ s, l.Reaches first s → (∃ next, l.turn s = .ok next) ∧
        ∃ idoms : Idoms blocks.length, s.idoms = idoms.numbers ∧
          ∀ b d, idoms.get b = some d → (flowGraph blocks).Reachable b ∧ (b.val ≠ 0 →
            (ofBlocks blocks).order.idxOf d < (ofBlocks blocks).order.idxOf b)) ∧
    ∀ a b, Ascends (ofBlocks blocks).idoms.numbers a.val b.val
      ((ofBlocks blocks).dominates a b) := by
  have hlists : (flowGraph blocks).Lists (ofBlocks blocks).order := lists_order
  have hfind := find?_ofGraph (flowGraph blocks)
  obtain ⟨l, first, hprepare, hfirst, hrun⟩ := exists_prepare hlists
    (get_preds_ofGraph (flowGraph blocks) ▸ hfind) (by simp [numberedPreds]) fetch_numberedPreds far
  refine ⟨hfind, ⟨l, first, hprepare, ⟨_, hrun.reaches, rfl, rfl⟩, fun s hs => ?_⟩,
    ascends_dominates⟩
  obtain ⟨⟨idoms, heq, hsound⟩, hturn⟩ := hrun.of_reaches rfl hfirst hs
  exact ⟨hturn, idoms, heq,
    fun b d hd => ⟨hsound.reachable b (by simp [hd]), hsound.before b d hd⟩⟩

/-- A loop that control can enter at either of its blocks, and at one of them by a way round. -/
def wayRound : List Block :=
  [⟨"entry", [], .condBr (.loc .bool (.number 0) none) "aside" "right"⟩,
    ⟨"aside", [], .br "left"⟩,
    ⟨"left", [], .br "right"⟩,
    ⟨"right", [], .br "left"⟩]

/-- Its loops, and where they start. -/
def wayRoundLoops : Loops × Moment :=
  (⟨[[], [0], [1, 3], [0, 2]], [0, 1, 2, 3], [0, 1, 2, 3]⟩,
    ⟨[some 0, none, none, none], false, [1, 2, 3], .idle⟩)

/-- The guess for the loop's first block is the way round at first, as the other block has none yet.
Another pass moves it to the entry. -/
theorem iteration_wayRound :
    Loops.prepare 4 (ofBlocks wayRound).numberedPreds ((ofBlocks wayRound).order.map Fin.val) =
      .ok wayRoundLoops ∧
    (∃ s, wayRoundLoops.1.Reaches wayRoundLoops.2 s ∧
      s.idoms = [some 0, some 0, some 1, none] ∧
      (ofBlocks wayRound).order.idxOf ⟨1, by decide⟩ <
        (ofBlocks wayRound).order.idxOf ⟨2, by decide⟩) ∧
    ∃ last, wayRoundLoops.1.Reaches wayRoundLoops.2 last ∧ wayRoundLoops.1.turn last = .ok none ∧
      last.idoms = [some 0, some 0, some 0, some 0] := by
  have hprepare : Loops.prepare 4 (ofBlocks wayRound).numberedPreds
      ((ofBlocks wayRound).order.map Fin.val) = .ok wayRoundLoops := by decide +kernel
  have hidoms : (ofBlocks wayRound).idoms.numbers = [some 0, some 0, some 0, some 0] := by
    decide +kernel
  obtain ⟨-, ⟨l, first, hl, ⟨last, hlast, hend, hsettled⟩, hall⟩, -⟩ := iteration_ends wayRound 4
  obtain ⟨rfl, rfl⟩ := Prod.mk.inj (Except.ok.inj (hl.symm.trans hprepare))
  have hreaches : wayRoundLoops.1.Reaches wayRoundLoops.2
      ⟨[some 0, some 0, some 1, none], true, [3], .idle⟩ := by
    unfold Loops.Reaches
    exact .head rfl (.head rfl (.head rfl (.head rfl .refl)))
  obtain ⟨-, idoms, hs, hbefore⟩ := hall _ hreaches
  have hfetch := fetch_numbers idoms ⟨2, by decide⟩
  rw [← hs] at hfetch
  obtain ⟨d, hd, hval⟩ := Option.map_eq_some_iff.mp (Except.ok.inj hfetch).symm
  obtain rfl : d = ⟨1, by decide⟩ := Fin.ext hval
  exact ⟨hprepare, ⟨_, hreaches, rfl, (hbefore _ _ hd).2 (by decide)⟩, last, hlast, hend,
    hsettled.trans hidoms⟩

end TypedSSA.Cfg
