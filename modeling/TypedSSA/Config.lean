import TypedSSA.Options
import TypedSSA.Toml.Document

/-!
# Settings

Settings for code generation, read from a TOML file: a target, and profiles with a level of
optimization each.

```toml
[target]
triple = "x86_64-unknown-linux-gnu"

[profile.release]
release = true
opt_level = 3
```

Keys that mean nothing here are passed over, and a value of another type than expected is an error.
Where a table with known keys is expected there may also be an array of their values in order.
-/

namespace TypedSSA

/-- Why there are no settings. -/
inductive ConfigError where
  /-- The file cannot be read as text. -/
  | unreadable
  /-- The text does not hold settings. -/
  | invalid
  | unknownProfile (name : String)
deriving DecidableEq, Repr

def ConfigError.message : ConfigError → String
  | unreadable => "failed to read the config"
  | invalid => "invalid config"
  | unknownProfile name => "profile " ++ name ++ " is not defined"

/-- A named set of settings. -/
structure Profile where
  /-- Whether this is a profile for releases. -/
  release : Bool := false
  /-- The level of optimization, below 256. -/
  optLevel : Nat := 0
deriving DecidableEq, Repr

/-- What a settings file holds. -/
structure Config where
  /-- The machine to generate code for. -/
  triple : Option String := none
  profiles : List (String × Profile) := []
deriving DecidableEq, Repr

namespace Config

section Decoding

open Toml (Value)

def decodeString : Value → Option String
  | .string s => some s
  | _ => none

def decodeBool : Value → Option Bool
  | .boolean b => some b
  | _ => none

/-- A level is an integer of eight bits. -/
def decodeLevel : Value → Option Nat
  | .integer v => if 0 ≤ v ∧ v < 256 then some v.toNat else none
  | _ => none

/-- Decodes a value that may be missing. -/
def decodeOr {α : Type} (decode : Value → Option α) (default : α) : Option Value → Option α
  | none => some default
  | some v => decode v

/-- The triple of a target. As an array it must be there. A date counts as a table without known
keys. -/
def decodeTarget : Value → Option (Option String)
  | .table _ es => decodeOr (fun v => (decodeString v).map some) none (es.lookup "triple")
  | .array (v :: _) => (decodeString v).map some
  | .date _ => some none
  | _ => none

/-- A profile. A date counts as a table without known keys. -/
def decodeProfile : Value → Option Profile
  | .table _ es => do
    return ⟨← decodeOr decodeBool false (es.lookup "release"),
      ← decodeOr decodeLevel 0 (es.lookup "opt_level")⟩
  | .array vs => do
    return ⟨← decodeOr decodeBool false vs[0]?, ← decodeOr decodeLevel 0 vs[1]?⟩
  | .date _ => some {}
  | _ => none

def decodeProfiles : Value → Option (List (String × Profile))
  | .table _ es => es.mapM fun (name, v) => do return (name, ← decodeProfile v)
  | _ => none

/-- The settings in a document. -/
def decode (es : Toml.Entries) : Option Config := do
  return ⟨← decodeOr decodeTarget none (es.lookup "target"),
    ← decodeOr decodeProfiles [] (es.lookup "profile")⟩

end Decoding

/-- The settings in a text. -/
def ofToml (source : String) : Except ConfigError Config :=
  match (Toml.Document.read source).bind decode with
  | some c => .ok c
  | none => .error .invalid

/-- The settings in a file with these bytes, if there is one. -/
def load (bytes? : Option ByteArray) : Except ConfigError Config :=
  match bytes?.bind String.fromUTF8? with
  | some source => ofToml source
  | none => .error .unreadable

/-- The profile in use if none is named: `dev`, or for a release the first by name of the profiles
for releases, or else `release`. -/
def defaultProfile (c : Config) (release : Bool) : String :=
  if release then
    let names := (c.profiles.filter fun p => p.2.release).map (·.1)
    names.mergeSort.head?.getD "release"
  else "dev"

/-- The options of a profile. `dev` and `release` need not be defined. -/
def options (c : Config) (profile : String) : Except ConfigError Options :=
  match c.profiles.lookup profile, profile with
  | some p, _ => .ok ⟨OptLevel.ofNumber p.optLevel, c.triple⟩
  | none, "dev" => .ok ⟨.none, c.triple⟩
  | none, "release" => .ok ⟨.aggressive, c.triple⟩
  | none, name => .error (.unknownProfile name)

end Config

end TypedSSA
