import TypedSSA.CommandLine

/-!
# The program

Reads the command line and the settings file that it names, and writes the outcome.
-/

open TypedSSA

/-- The bytes of a file, if it can be read. -/
def readBytes (path : String) : IO (Option ByteArray) := do
  try
    return some (← IO.FS.readBinFile path)
  catch _ =>
    return none

def main (args : List String) : IO UInt32 := do
  let request := CommandLine.parse args
  let file ← match request.path? with
    | some path => readBytes path
    | none => pure none
  let outcome := request.perform file
  IO.print outcome.stdout
  IO.eprint outcome.stderr
  return outcome.code.toUInt32
