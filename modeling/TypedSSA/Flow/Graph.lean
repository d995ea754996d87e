/-!
# Flow graphs

A directed graph on the nodes `0, …, n - 1`, given by each node's successors. Edges count: a node
that lists a successor twice has two edges to it. Node `0` is the entry.
-/

namespace TypedSSA.Flow

/-- A graph with `n` nodes. -/
structure Graph (n : Nat) where
  succs : Vector (List (Fin n)) n

namespace Graph

variable {n : Nat}

def ofFn (f : Fin n → List (Fin n)) : Graph n := ⟨Vector.ofFn f⟩

def succ (g : Graph n) (a : Fin n) : List (Fin n) := g.succs.get a

/-- The nodes with an edge to `b`, once for each edge, in ascending order. -/
def pred (g : Graph n) (b : Fin n) : List (Fin n) :=
  (List.finRange n).flatMap fun a => ((g.succ a).filter (· = b)).map fun _ => a

@[simp] theorem succ_ofFn (f : Fin n → List (Fin n)) (a : Fin n) : (ofFn f).succ a = f a :=
  Vector.getElem_ofFn a.isLt

end Graph

end TypedSSA.Flow
