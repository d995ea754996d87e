/-!
# Names

Labels of functions and blocks, names of locals, and the scopes that tell the locals of one
function body from those of another.
-/

namespace TypedSSA

/-- The name of a block or a function. -/
abbrev Label := String

/-- The name of a local, unique within one function body. -/
inductive LocalName where
  | number (n : Nat)
  | symbol (s : String)
deriving DecidableEq, Repr

def LocalName.text : LocalName → String
  | number n => "%" ++ toString n
  | symbol s => "%" ++ s

/-- The function body that a name was issued for. -/
structure Scope where
  id : Nat
deriving DecidableEq, Repr

/-- Issues scopes, each one once. -/
structure Scopes where
  next : Nat := 0
deriving DecidableEq, Repr

namespace Scopes

/-- A scope that was not issued before, and the scopes that are left. -/
def fresh (s : Scopes) : Scope × Scopes := (⟨s.next⟩, ⟨s.next + 1⟩)

end Scopes

end TypedSSA
