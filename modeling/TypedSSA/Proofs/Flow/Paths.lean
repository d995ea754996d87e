import Mathlib.Data.Fintype.Card
import TypedSSA.Flow.Graph

/-!
# Paths and dominance

What it means for a node of a flow graph to be reached and to be dominated, said with paths alone.
`Graph.Path g b l` is a path along edges from the entry to `b` through the nodes `l`.
`Graph.Reachable` and `Graph.Dominates` say that there is one, and that each of them goes through a
node. A path can be cut at any of its nodes (`Path.cut`), and holds one that meets no node twice
(`Path.simple`), so a node dominates another as soon as it is on the short paths to it
(`dominates_of_short`).
-/

namespace TypedSSA.Flow.Graph

variable {n : Nat} {g : Graph n} {a b c : Fin n} {l : List (Fin n)}

/-- A path from the entry to a node. The nodes on it are listed from the last one back. -/
inductive Path (g : Graph n) : Fin n → List (Fin n) → Prop where
  | entry {b : Fin n} (first : b.val = 0) : Path g b [b]
  | step {a b : Fin n} {l : List (Fin n)} (before : Path g a l) (edge : b ∈ g.succ a) :
      Path g b (b :: l)

def Reachable (g : Graph n) (b : Fin n) : Prop := ∃ l, g.Path b l

/-- Every path to `b` goes through `a`. -/
def Dominates (g : Graph n) (a b : Fin n) : Prop := ∀ l, g.Path b l → a ∈ l

theorem mem_pred : a ∈ g.pred b ↔ b ∈ g.succ a := by
  simp [pred, and_comm]

/-! ## Paths -/

theorem Path.mem (h : g.Path b l) : b ∈ l := by
  cases h <;> simp

/-- A path cut short at one of its nodes. -/
theorem Path.cut (h : g.Path b l) (ha : a ∈ l) : ∃ l', g.Path a l' ∧ l' <:+ l := by
  induction h with
  | entry first =>
    rw [List.mem_singleton] at ha
    subst ha
    exact ⟨_, .entry first, List.suffix_refl _⟩
  | @step c b l before edge ih =>
    rcases List.mem_cons.mp ha with rfl | ha
    · exact ⟨_, before.step edge, List.suffix_refl _⟩
    · obtain ⟨l', hp, hs⟩ := ih ha
      exact ⟨l', hp, hs.trans (List.suffix_cons _ _)⟩

/-- Among the nodes of a path there is a path that meets none of them twice. -/
theorem Path.simple (h : g.Path b l) : ∃ l', g.Path b l' ∧ l' ⊆ l ∧ l'.Nodup := by
  induction h with
  | entry first => exact ⟨_, .entry first, List.Subset.refl _, List.nodup_singleton _⟩
  | @step c b l before edge ih =>
    obtain ⟨l', hp, hs, hn⟩ := ih
    by_cases hb : b ∈ l'
    · -- the path came by `b` already, and goes no further than that
      obtain ⟨l'', hp', hs'⟩ := hp.cut hb
      refine ⟨l'', hp', fun x hx => ?_, hn.sublist hs'.sublist⟩
      exact List.mem_cons_of_mem _ (hs (hs'.subset hx))
    · exact ⟨b :: l', hp.step edge, List.cons_subset_cons _ hs, List.nodup_cons.mpr ⟨hb, hn⟩⟩

/-! ## Reachable nodes -/

theorem Path.reachable (h : g.Path b l) : g.Reachable b := ⟨l, h⟩

theorem reachable_entry (h : b.val = 0) : g.Reachable b := ⟨_, .entry h⟩

theorem Reachable.succ (h : g.Reachable a) (edge : b ∈ g.succ a) : g.Reachable b := by
  obtain ⟨l, hp⟩ := h
  exact ⟨_, hp.step edge⟩

theorem Path.reachable_of_mem (h : g.Path b l) (ha : a ∈ l) : g.Reachable a := by
  obtain ⟨l', hp, -⟩ := h.cut ha
  exact hp.reachable

/-! ## Dominance -/

theorem dominates_refl (b : Fin n) : g.Dominates b b := fun _ hp => hp.mem

theorem Dominates.trans (hab : g.Dominates a b) (hbc : g.Dominates b c) : g.Dominates a c := by
  intro l hp
  obtain ⟨l', hp', hs⟩ := hp.cut (hbc l hp)
  exact hs.subset (hab l' hp')

theorem Dominates.reachable (h : g.Dominates a b) (hb : g.Reachable b) : g.Reachable a := by
  obtain ⟨l, hp⟩ := hb
  exact hp.reachable_of_mem (h l hp)

/-- Only the entry dominates the entry. -/
theorem Dominates.eq_entry (h : g.Dominates a b) (hb : b.val = 0) : a = b :=
  List.mem_singleton.mp (h [b] (.entry hb))

/-- What dominates a node, and is not the node, dominates all before it. -/
theorem Dominates.pred (h : g.Dominates a b) (hne : a ≠ b) (edge : b ∈ g.succ c) :
    g.Dominates a c := by
  intro l hp
  rcases List.mem_cons.mp (h _ (hp.step edge)) with rfl | hl
  · exact absurd rfl hne
  · exact hl

/-- Paths that go through as many nodes as there are tell what dominates. -/
theorem dominates_of_short (h : ∀ l, g.Path b l → l.length ≤ n → a ∈ l) : g.Dominates a b := by
  intro l hp
  obtain ⟨l', hp', hs, hn⟩ := hp.simple
  have hlen : l'.length ≤ n := by simpa using hn.length_le_card
  exact hs (h l' hp' hlen)

end TypedSSA.Flow.Graph
