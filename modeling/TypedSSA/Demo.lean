import TypedSSA.Finish
import TypedSSA.Module

/-!
# Demonstration functions

Three functions of three numbers, built with typed code: their average, the first one kept between
the other two, and a grade for them that calls the other functions.
-/

namespace TypedSSA.Demo

/-- The type of the functions. -/
abbrev ternary : FuncType := ⟨[.i32, .i32, .i32], .scalar .i32⟩

/-- Steps of a builder that stop at the first fault. -/
abbrev Script := ExceptT Fault (StateM (Builder ternary))

/-- An operation of the builder as a step. -/
def step {α : Type} (f : Builder ternary → Except Fault α × Builder ternary) : Script α :=
  ExceptT.mk fun b => f b

def bind {t : Scalar} (i : Typed.Instr (.scalar t)) : Script (Typed.Operand t) :=
  .name <$> step fun b => b.bind i

def bindAs {t : Scalar} (symbol : String) (i : Typed.Instr (.scalar t)) :
    Script (Typed.Operand t) :=
  .name <$> step fun b => b.bindAs symbol i

def newLabel (hint : String) : Script Label := step fun b =>
  let (label, b) := b.newLabel hint
  (.ok label, b)

def terminate (t : Typed.Terminator (.scalar .i32)) : Script Unit := step fun b => b.terminate t

def startBlock (label : Label) : Script Unit := step fun b => b.startBlock label

/-- Builds a function from its parameters. -/
def build (scope : Scope) (label : Label)
    (body : Typed.Operand .i32 → Typed.Operand .i32 → Typed.Operand .i32 → Script Unit) :
    Except Fault Func :=
  match Builder.new ternary scope label with
  | (b, .cons x (.cons y (.cons z .nil))) =>
    match (body x y z).run.run b with
    | (.ok (), b) => b.finish
    | (.error f, _) => .error f

/-- An `i32` literal. -/
def int (v : Int) (inRange : Scalar.i32.hasInt v = true := by decide) : Typed.Operand .i32 :=
  .literal (.int v inRange)

/-- `(a + b + c) / 3` -/
def average (scope : Scope) : Except Fault Func :=
  build scope "average" fun a b c => do
    let sum ← bindAs "sum" (.binary .add a b (by decide))
    let sum ← bind (.binary .add sum c (by decide))
    let avg ← bindAs "avg" (.binary .quot sum (int 3) (by decide))
    terminate (.retVal avg)

/-- `x`, but at least `lo` and at most `hi`. -/
def clamp (scope : Scope) : Except Fault Func :=
  build scope "clamp" fun x lo hi => do
    let low ← newLabel "low"
    let check ← newLabel "check"
    let join ← newLabel "join"
    let below ← bind (.cmp .lt x lo)
    terminate (.condBr below low check)
    startBlock low
    terminate (.br join)
    startBlock check
    let above ← bind (.cmp .gt x hi)
    let clamped ← bind (.select above hi x)
    terminate (.br join)
    startBlock join
    let result ← bind (.phi [(lo, low), (clamped, check)] (by simp))
    terminate (.retVal result)

/-- 10, 20 or 30 for an average of at most 0, of 1, or more. -/
def grade (scope : Scope) : Except Fault Func :=
  build scope "grade" fun a b c => do
    let avg ← bind (t := .i32)
      (.call "average" (.cons a (.cons b (.cons c .nil))) [.noUnwind, .readNone])
    let level ← bind (t := .i32)
      (.call "clamp" (.cons avg (.cons (int 0) (.cons (int 2) .nil))) [.noUnwind])
    let zero ← newLabel "zero"
    let one ← newLabel "one"
    let two ← newLabel "two"
    terminate (.switch .i32 level two
      [(.int 0 (by decide), zero), (.int 1 (by decide), one)]
      (by simp [firstRepeat, Typed.Literal.toConst]))
    startBlock zero
    terminate (.retVal (int 10))
    startBlock one
    terminate (.retVal (int 20))
    startBlock two
    terminate (.retVal (int 30))

/-- Builds the three functions, each in a scope of its own. -/
def functions (scopes : Scopes) : Except Fault (List Func) × Scopes :=
  let (first, scopes) := scopes.fresh
  let (second, scopes) := scopes.fresh
  let (third, scopes) := scopes.fresh
  (do return [← average first, ← clamp second, ← grade third], scopes)

/-- Defines functions in turn, up to the first that is refused. -/
def defineAll : List Func → Module → Except Fault Unit × Module
  | [], m => (.ok (), m)
  | f :: rest, m =>
    match m.define f with
    | (.ok (), m) => defineAll rest m
    | (.error e, m) => (.error e, m)

/-- Defines the three functions in a module and validates it. -/
def define (scopes : Scopes) (m : Module) : Except Fault Unit × Scopes × Module :=
  match functions scopes with
  | (.error e, scopes) => (.error e, scopes, m)
  | (.ok fs, scopes) =>
    match defineAll fs m with
    | (.error e, m) => (.error e, scopes, m)
    | (.ok (), m) => (m.validate, scopes, m)

end TypedSSA.Demo
