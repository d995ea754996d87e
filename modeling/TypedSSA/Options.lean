/-!
# Options

What a code generator is told: how hard to optimize, and for which machine.
-/

namespace TypedSSA

/-- How hard to optimize. -/
inductive OptLevel where
  | none
  | less
  | default
  | aggressive
deriving DecidableEq, Repr

namespace OptLevel

/-- Levels from 3 on are all the same. -/
def ofNumber : Nat → OptLevel
  | 0 => none
  | 1 => less
  | 2 => default
  | _ => aggressive

def number : OptLevel → Nat
  | none => 0
  | less => 1
  | default => 2
  | aggressive => 3

def name : OptLevel → String
  | none => "None"
  | less => "Less"
  | default => "Default"
  | aggressive => "Aggressive"

end OptLevel

/-- The settings of a code generator. -/
structure Options where
  level : OptLevel
  /-- The machine to generate code for, or the host. -/
  triple : Option String
deriving DecidableEq, Repr

end TypedSSA
