import TypedSSA.Fault

/-!
# Supplies of names

A supply issues the names and labels of one function body: numbered locals, locals spelled by a
symbol that was not used before, and labels numbered after a hint.
-/

namespace TypedSSA

/-- What a function body has issued so far. -/
structure Supply where
  scope : Scope
  nextLocal : Nat
  nextLabel : Nat
  symbols : List String
deriving DecidableEq, Repr

namespace Supply

/-- The supply of a body that has issued nothing. -/
def new (scope : Scope) : Supply := ⟨scope, 0, 0, []⟩

/-- A numbered name that was not issued before. -/
def fresh (s : Supply) : LocalName × Supply :=
  (.number s.nextLocal, { s with nextLocal := s.nextLocal + 1 })

/-- Whether a symbol may spell a name. One that starts with a digit would print as a number. -/
def validSymbol (symbol : String) : Bool :=
  match symbol.toList with
  | [] => false
  | c :: _ => !c.isDigit

/-- The name spelled `symbol`, if it may be and was not issued before. -/
def symbol (s : Supply) (symbol : String) : Except Fault LocalName × Supply :=
  if validSymbol symbol then
    if symbol ∈ s.symbols then (.error (.duplicateName (.symbol symbol)), s)
    else (.ok (.symbol symbol), { s with symbols := symbol :: s.symbols })
  else (.error (.invalidSymbol symbol), s)

/-- A label that starts with `hint` and was not issued before. -/
def label (s : Supply) (hint : String) : Label × Supply :=
  (hint ++ "." ++ toString s.nextLabel, { s with nextLabel := s.nextLabel + 1 })

end Supply

end TypedSSA
