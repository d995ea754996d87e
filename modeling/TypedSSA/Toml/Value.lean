/-!
# TOML values

The tree that a TOML document stands for. A table remembers how it came about, since that decides
what may still be added to it: a table written in braces is complete, one named by a header may not
be named again, and one made by a dotted key can only be added to by dotted keys.
-/

namespace TypedSSA.Toml

/-- How a table came about. -/
inductive Origin where
  /-- Written in braces. -/
  | braces
  /-- Named by a header, or the document itself. -/
  | header
  /-- On the way to a table named by a header. -/
  | path
  /-- Made by a dotted key. -/
  | dotted
deriving DecidableEq, Repr

/-- A value. Floating numbers and dates are kept as they were written. -/
inductive Value where
  | string (s : String)
  | integer (v : Int)
  | float (text : String)
  | boolean (b : Bool)
  | date (text : String)
  | array (elements : List Value)
  | table (origin : Origin) (entries : List (String × Value))
  /-- The tables named by double brackets. There is at least one. -/
  | tables (elements : List (List (String × Value)))
deriving Repr

/-- The keys of a table with their values, in the order in which they were first named. -/
abbrev Entries := List (String × Value)

namespace Entries

/-- Replaces the value of a key, or adds the key. -/
def set (es : Entries) (key : String) (v : Value) : Entries :=
  if es.any fun e => e.1 == key then es.map fun e => if e.1 == key then (key, v) else e
  else es ++ [(key, v)]

/-- Changes the table at the end of a path. Tables on the way are made if they are missing. Of an
array of tables the last one is meant. With `dotted` the path is a dotted key, which must not lead
into a table that a header names. -/
def modifyAt (dotted : Bool) (change : Origin → Entries → Option Entries) :
    List String → Origin → Entries → Option Entries
  | [], origin, es => change origin es
  | key :: rest, _, es =>
    match es.lookup key with
    | none => do
      let origin := if dotted then .dotted else .path
      return es.set key (.table origin (← modifyAt dotted change rest origin []))
    | some (.table origin child) =>
      if origin = .braces || (dotted && origin = .header) then none
      else do return es.set key (.table origin (← modifyAt dotted change rest origin child))
    | some (.tables elements) =>
      match elements.getLast? with
      | none => none
      | some last => do
        let changed ← modifyAt dotted change rest .header last
        return es.set key (.tables (elements.dropLast ++ [changed]))
    | some _ => none

/-- Adds a value under a dotted key, all but the last part of which is the path. The key must be
new, and a table that was on the way to a header's takes no dotted keys. -/
def insert (es : Entries) (path : List String) (key : String) (v : Value) : Option Entries :=
  modifyAt true (fun origin table =>
    if decide (origin = .dotted) == path.isEmpty then none
    else
      match table.lookup key with
      | none => some (table ++ [(key, v)])
      | some _ => none) path .header es

/-- Adds the table that a header names, which may have been on the way to others. -/
def openTable (es : Entries) (path : List String) (key : String) : Option Entries :=
  modifyAt false (fun _ table =>
    match table.lookup key with
    | none => some (table ++ [(key, .table .header [])])
    | some (.table .path child) => some (set table key (.table .header child))
    | some _ => none) path .header es

/-- Adds a table to the array that a header in double brackets names. -/
def openElement (es : Entries) (path : List String) (key : String) : Option Entries :=
  modifyAt false (fun _ table =>
    match table.lookup key with
    | none => some (table ++ [(key, .tables [[]])])
    | some (.tables elements) => some (set table key (.tables (elements ++ [[]])))
    | some _ => none) path .header es

end Entries

end TypedSSA.Toml
