import TypedSSA.Flow.Order

/-!
# Dominators

A node dominates another when every path from the entry to the other goes through it. The nearest
dominator of a node other than itself is its immediate dominator, and these form a tree with the
entry as its root, which is recorded as its own immediate dominator.

They are found by iteration. Given a guess, the guess for a node is improved to the place where the
chains of immediate dominators from its predecessors meet (`meet?`). A pass does this for every
node in reverse postorder, and passes are made until one changes nothing (`settle?`). Each of these
is `none` where it would leave the chains or not come to an end.
-/

namespace TypedSSA.Flow

variable {n : Nat}

/-- The immediate dominators found so far. -/
abbrev Idoms (n : Nat) := Vector (Option (Fin n)) n

/-- Where the chains from `a` and `b` meet. The node that comes later in the order goes up, to a
node that comes before it. -/
def meet? (pos : Fin n → Nat) (idoms : Idoms n) (a b : Fin n) : Option (Fin n) :=
  if a = b then some a
  else if pos b < pos a then
    match idoms.get a with
    | none => none
    | some c => if pos c < pos a then meet? pos idoms c b else none
  else
    match idoms.get b with
    | none => none
    | some c => if pos c < pos b then meet? pos idoms a c else none
termination_by pos a + pos b

/-- Improves the guess for `b` from those of its predecessors that have one. -/
def improve? (pred : Fin n → List (Fin n)) (pos : Fin n → Nat) (idoms : Idoms n) (b : Fin n) :
    Option (Idoms n) :=
  match (pred b).filter fun a => (idoms.get a).isSome with
  | [] => some idoms
  | first :: rest => do
    let d ← rest.foldlM (meet? pos idoms) first
    return idoms.set b (some d) b.isLt

/-- Improves the guesses of these nodes in turn. -/
def pass? (pred : Fin n → List (Fin n)) (pos : Fin n → Nat) (nodes : List (Fin n))
    (idoms : Idoms n) : Option (Idoms n) :=
  nodes.foldlM (improve? pred pos) idoms

/-- Makes passes until one changes nothing, but no more than `limit`. -/
def settle? (pred : Fin n → List (Fin n)) (pos : Fin n → Nat) (nodes : List (Fin n)) :
    (limit : Nat) → Idoms n → Option (Idoms n)
  | 0, _ => none
  | limit + 1, idoms => do
    let next ← pass? pred pos nodes idoms
    if next = idoms then return idoms else settle? pred pos nodes limit next

/-- The first guess: only the entry has an immediate dominator, itself. -/
def Idoms.start (entry : Fin n) : Idoms n :=
  (Vector.replicate n none).set entry (some entry) entry.isLt

/-- The immediate dominators for an order that starts with the entry. Every pass but the first and
the last moves some node's guess toward the entry, so the square of the number of nodes bounds the
number of passes. -/
def Idoms.find? (pred : Fin n → List (Fin n)) : (order : List (Fin n)) → Option (Idoms n)
  | [] => some (Vector.replicate n none)
  | entry :: rest =>
    let position := Vector.ofFn (entry :: rest).idxOf
    settle? pred position.get rest (n * n + 2) (Idoms.start entry)

/-- The chain of immediate dominators from `b`, of at most `limit` steps. -/
def Idoms.chain (idoms : Idoms n) : (limit : Nat) → Fin n → List (Fin n)
  | 0, b => [b]
  | limit + 1, b =>
    match idoms.get b with
    | none => [b]
    | some d => if d = b then [b] else b :: idoms.chain limit d

end TypedSSA.Flow
