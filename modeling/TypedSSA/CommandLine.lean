import TypedSSA.Config
import TypedSSA.Demo

/-!
# The command line

`CommandLine.parse` reads the arguments, and `Invocation.run` does what they ask for: it builds the
demonstration functions and writes a summary of them.

Options are `-c`, `-r`, `-h` and `-V` with their long forms. One dash may take several letters, and
the path after `-c` may follow at once. Besides there are integers, in groups of three that stand
together; a run takes one group. An argument that looks like a negative number is no option.
-/

namespace TypedSSA

/-- What the command line asks for. -/
structure Invocation where
  /-- The path of a settings file. -/
  config : Option String := none
  release : Bool := false
  /-- The integers of all groups. -/
  values : List Int := [1, 2, 3]
deriving DecidableEq, Repr

namespace CommandLine

/-- What to do with a command line. -/
inductive Request where
  | run (i : Invocation)
  | help
  | version
  | misuse
deriving DecidableEq, Repr

/-- The arguments read so far. -/
structure State where
  config : Option String := none
  release : Bool := false
  /-- The integers of the groups that are complete and ended by an option. -/
  values : List Int := []
  /-- The integers of the group that may go on. -/
  group : List Int := []
  /-- A path is to follow. -/
  wantsPath : Bool := false
  /-- Options have ended. -/
  ended : Bool := false
deriving DecidableEq, Repr

/-- Whether `s` looks like a number without a sign: digits, with at most one point and one exponent,
neither in front. -/
def looksNumeric (cs : List Char) : Bool :=
  go cs true false false
where
  go : List Char → (first pointed raised : Bool) → Bool
    | [], _, _, _ => true
    | c :: rest, first, pointed, raised =>
      if c.isDigit then go rest false pointed raised
      else if c == '.' && !pointed && !raised && !first then go rest false true raised
      else if c == 'e' && !raised && !first then !rest.isEmpty && go rest false pointed true
      else false

/-- The integer of 32 bits that an argument writes. -/
def int32? (arg : String) : Option Int :=
  let (negative, ds) := match arg.toList with
    | '-' :: ds => (true, ds)
    | '+' :: ds => (false, ds)
    | ds => (false, ds)
  if ds.isEmpty || !ds.all Char.isDigit then none
  else
    let n : Int := ds.foldl (fun n d => 10 * n + (d.toNat - '0'.toNat)) 0
    let v := if negative then -n else n
    if Scalar.i32.hasInt v then some v else none

namespace State

/-- Ends the group of integers, so that an option may follow. No path and no integer may be
missing. -/
def settle (s : State) : Except Request State :=
  if !s.wantsPath && (s.group.isEmpty || s.group.length == 3) then
    .ok { s with values := s.values ++ s.group, group := [] }
  else .error .misuse

/-- Notes the path of the settings file, which is given once and is not empty. -/
def setConfig (s : State) (path : String) : Except Request State :=
  if s.config.isSome || path.isEmpty then .error .misuse
  else .ok { s with config := some path, wantsPath := false }

/-- Notes an integer. -/
def addValue (s : State) (arg : String) : Except Request State :=
  if s.wantsPath || s.group.length == 3 then .error .misuse
  else
    match int32? arg with
    | some v => .ok { s with group := s.group ++ [v] }
    | none => .error .misuse

/-- Notes an argument that is no option. -/
def addPlain (s : State) (arg : String) : Except Request State :=
  if s.wantsPath then s.setConfig arg else s.addValue arg

def setRelease (s : State) : Except Request State :=
  if s.release then .error .misuse else .ok { s with release := true }

/-- Reads letters after a dash. -/
def addShort (s : State) : List Char → Except Request State
  | [] => .ok s
  | c :: rest => do
    let s ← s.settle
    match c with
    | 'h' => .error .help
    | 'V' => .error .version
    | 'r' => do
      let s ← s.setRelease
      s.addShort rest
    | 'c' =>
      match rest with
      | [] => .ok { s with wantsPath := true }
      | '=' :: path => s.setConfig (String.ofList path)
      | path => s.setConfig (String.ofList path)
    | _ => .error .misuse

/-- Reads what follows two dashes: a name, and a value after an equals sign if there is one. -/
def addLong (s : State) (name : String) (value? : Option String) : Except Request State := do
  let s ← s.settle
  match name, value? with
  | "config", some path => s.setConfig path
  | "config", none => .ok { s with wantsPath := true }
  | "release", none => s.setRelease
  | "help", none => .error .help
  | "version", none => .error .version
  | _, _ => .error .misuse

/-- Reads an argument. -/
def add (s : State) (arg : String) : Except Request State :=
  if s.ended then s.addValue arg
  else
    match arg.toList with
    | ['-', '-'] => if s.wantsPath then .error .misuse else .ok { s with ended := true }
    | '-' :: '-' :: rest =>
      let name := String.ofList (rest.takeWhile (· != '='))
      match rest.dropWhile (· != '=') with
      | [] => s.addLong name none
      | _ :: value => s.addLong name (some (String.ofList value))
    | '-' :: c :: rest =>
      if looksNumeric (c :: rest) then s.addPlain arg
      else s.addShort (c :: rest)
    | _ => s.addPlain arg

/-- What the arguments ask for when there are no more. -/
def request (s : State) : Except Request Request := do
  let s ← s.settle
  return .run
    { config := s.config
      release := s.release
      values := if s.values.isEmpty then [1, 2, 3] else s.values }

end State

/-- What the command line asks for. -/
def parse (args : List String) : Request :=
  match args.foldlM State.add {} >>= State.request with
  | .ok r => r
  | .error r => r

def helpText : String :=
  "Usage: typed-ir [OPTIONS] [VALUES] [VALUES] [VALUES]...

Arguments:
  [VALUES] [VALUES] [VALUES]...  The three numbers to run the functions on [default: 1 2 3]

Options:
  -c, --config <CONFIG>  Code generation settings, see `typed-ir.toml`
  -r, --release          Use the profile marked `release = true`, or the built-in `release` at -O3
  -h, --help             Print help
  -V, --version          Print version
"

def versionText : String := "typed-llvm-ir 0.1.0\n"

def misuseText : String := "error: invalid arguments\n\nFor more information, try '--help'.\n"

/-- What a run leaves behind. -/
structure Outcome where
  code : Nat := 0
  stdout : String := ""
  stderr : String := ""
deriving DecidableEq, Repr

/-- Text in a terminal's style with this number, and back to the usual with that one. -/
def styled (on off : Nat) (s : String) : String :=
  "\x1b[" ++ toString on ++ "m" ++ s ++ "\x1b[" ++ toString off ++ "m"

def bold (s : String) : String := styled 1 0 s

def green (s : String) : String := styled 32 39 s

def yellow (s : String) : String := styled 33 39 s

/-- A line for each function of a module, after its name and target. -/
def summary (m : Module) : String :=
  bold "module" ++ " " ++ m.name ++ "\n" ++ bold "target:" ++ " " ++ m.target.triple ++ "\n" ++
    String.join (m.definitions.map fun f =>
      let instructions := (f.blocks.flatMap Block.body).length
      "  " ++ green f.label ++ " " ++ f.type.text ++ ": " ++ toString f.blocks.length ++
        " blocks, " ++ toString instructions ++ " instructions\n")

/-- A failure of the program, with the reason in words. -/
def failure (reason : String) : Outcome := { code := 1, stderr := "Error: " ++ reason ++ "\n" }

/-- The summary of the demonstration functions for these options. -/
def demonstrate (o : Options) : Outcome :=
  let target : TargetDesc := ⟨o.triple.getD "unknown-unknown-unknown", ""⟩
  match Demo.define {} (Module.new "demo" target) with
  | (.ok (), _, m) =>
    { stdout := summary m ++ yellow "built without the `llvm` feature, nothing to run" ++ "\n" }
  | (.error f, _, _) => failure f.message

end CommandLine

namespace Invocation

open CommandLine

/-- Runs with these settings. -/
def runWith (i : Invocation) (c : Config) : Outcome :=
  match c.options (c.defaultProfile i.release) with
  | .error e => failure e.message
  | .ok o =>
    if i.values.length = 3 then demonstrate o
    else failure ("expected three numbers, got " ++ toString i.values.length)

/-- Runs an invocation. `file` are the bytes of its settings file, if there is one. -/
def run (i : Invocation) (file : Option ByteArray) : Outcome :=
  match i.config with
  | none => i.runWith {}
  | some path =>
    match Config.load file with
    | .ok c => i.runWith c
    | .error _ => failure ("loading " ++ path)

end Invocation

namespace CommandLine.Request

/-- The settings file that a request needs. -/
def path? : Request → Option String
  | run i => i.config
  | _ => none

/-- Does what is asked for. `file` are the bytes of the settings file, if there is one. -/
def perform (r : Request) (file : Option ByteArray) : Outcome :=
  match r with
  | run i => i.run file
  | help => { stdout := helpText }
  | version => { stdout := versionText }
  | misuse => { code := 2, stderr := misuseText }

end CommandLine.Request

end TypedSSA
