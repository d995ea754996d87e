import TypedSSA.Flow.Graph

/-!
# Reverse postorder

The nodes that can be reached from the entry, each before those that are finished earlier by a
depth first walk (`Graph.reversePostorder`). Every node comes after the nodes that every path to it
goes through.
-/

namespace TypedSSA.Flow

variable {n : Nat}

/-- The nodes under way in a depth first walk, innermost first, each with the successors that are
still to be looked at. -/
abbrev Trail (n : Nat) := List (Fin n × List (Fin n))

/-- The number of steps that a trail takes if it meets nothing new. -/
def Trail.weight : Trail n → Nat
  | [] => 0
  | (_, left) :: rest => left.length + 1 + weight rest

namespace Graph

/-- The number of steps that nodes take once they are met. -/
def steps (g : Graph n) : List (Fin n) → Nat
  | [] => 0
  | b :: rest => (g.succ b).length + 1 + g.steps rest

theorem steps_erase (g : Graph n) {b : Fin n} {nodes : List (Fin n)} (h : b ∈ nodes) :
    (g.succ b).length + 1 + g.steps (nodes.erase b) = g.steps nodes := by
  induction nodes with
  | nil => cases h
  | cons c rest ih =>
    by_cases hc : c = b
    · rw [hc, List.erase_cons_head, steps]
    · have hrest : b ∈ rest := (List.mem_cons.mp h).resolve_left fun hb => hc hb.symm
      rw [List.erase_cons_tail (by simpa using hc), steps, steps, ← ih hrest]
      omega

/-- Walks on along a trail. A node is put in front of `done` when all its successors have been
looked at; `unseen` are the nodes not met yet. -/
def walk (g : Graph n) (unseen : List (Fin n)) (trail : Trail n) (done : List (Fin n)) :
    List (Fin n) :=
  match trail with
  | [] => done
  | (a, []) :: rest => g.walk unseen rest (a :: done)
  | (a, b :: bs) :: rest =>
    if b ∈ unseen then g.walk (unseen.erase b) ((b, g.succ b) :: (a, bs) :: rest) done
    else g.walk unseen ((a, bs) :: rest) done
termination_by g.steps unseen + trail.weight
decreasing_by
  · simp [Trail.weight]
  · -- the steps of the node that is met pass to the trail, and one step of the trail is done
    rename_i h
    have hsteps := g.steps_erase h
    simp only [Trail.weight, List.length_cons]
    omega
  · simp [Trail.weight]

/-- The nodes that can be reached from the entry, in reverse order of the end of their visit. -/
def reversePostorder (g : Graph n) : List (Fin n) :=
  if h : 0 < n then
    let entry : Fin n := ⟨0, h⟩
    g.walk ((List.finRange n).erase entry) [(entry, g.succ entry)] []
  else []

end Graph

end TypedSSA.Flow
