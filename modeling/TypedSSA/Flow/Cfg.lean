import TypedSSA.Flow.Dominators
import TypedSSA.Func

/-!
# The control flow of a list of blocks

The flow graph of a list of blocks, the first of which is the entry: there is an edge for each
label that a terminator names, to the last block with that label, and none if there is no such
block. `Cfg.ofBlocks` works out predecessors, order and dominators once.
-/

namespace TypedSSA

/-- The place of the last block with this label. -/
def blockIndex? (blocks : List Block) (label : Label) : Option (Fin blocks.length) :=
  (List.finRange blocks.length).reverse.find? fun i => (blocks.get i).label = label

/-- The flow graph of a list of blocks. -/
def flowGraph (blocks : List Block) : Flow.Graph blocks.length :=
  .ofFn fun i => (blocks.get i).terminator.successors.filterMap (blockIndex? blocks)

/-- The analyses of a graph with `n` nodes. -/
structure Cfg (n : Nat) where
  graph : Flow.Graph n
  preds : Vector (List (Fin n)) n
  order : List (Fin n)
  idoms : Flow.Idoms n

namespace Cfg

variable {n : Nat}

def ofGraph (g : Flow.Graph n) : Cfg n :=
  let preds := Vector.ofFn g.pred
  let order := g.reversePostorder
  { graph := g
    preds := preds
    order := order
    idoms := (Flow.Idoms.find? preds.get order).getD (Vector.replicate n none) }

def ofBlocks (blocks : List Block) : Cfg blocks.length := ofGraph (flowGraph blocks)

/-- The nodes with an edge to `b`, once for each edge. -/
def pred (c : Cfg n) (b : Fin n) : List (Fin n) := c.preds.get b

/-- The immediate dominator of `b`, if `b` can be reached. The entry is its own. -/
def idom? (c : Cfg n) (b : Fin n) : Option (Fin n) := c.idoms.get b

def isReachable (c : Cfg n) (b : Fin n) : Bool := (c.idom? b).isSome

/-- The chain of immediate dominators from `b`, with `b` in front. -/
def dominators (c : Cfg n) (b : Fin n) : List (Fin n) := c.idoms.chain n b

/-- Whether `a` is `b` or on the chain of immediate dominators above it. -/
def dominates (c : Cfg n) (a b : Fin n) : Bool := (c.dominators b).contains a

/-- Every node once: those that can be reached in reverse postorder, then the others in ascending
order. -/
def emissionOrder (c : Cfg n) : List (Fin n) :=
  c.order ++ (List.finRange n).filter fun b => !c.isReachable b

end Cfg

end TypedSSA
