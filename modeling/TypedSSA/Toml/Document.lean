import TypedSSA.Toml.Numbers

/-!
# TOML documents

A document is a list of statements: a header names the table that the pairs after it go into. It is
read in two steps, the statements first (`Document.statements`), and then the table that they make
(`Document.ofStatements`).
-/

namespace TypedSSA.Toml

/-- A statement. A dotted key is given as its path and its last part. -/
inductive Statement where
  | pair (path : List String) (key : String) (value : Value)
  | header (path : List String) (key : String)
  | elementHeader (path : List String) (key : String)

namespace Scanner

/-- The greatest depth of values in values, and of a dotted key. -/
def maxDepth : Nat := 79

/-- Whether a character can stand in a key without quotes. -/
def isBare (c : Char) : Bool := c.isAlphanum || c == '-' || c == '_'

def keyPart : Scanner String := do
  blanks
  let part ← match ← peek? with
    | some '"' | some '\'' => line
    | _ => do
      let c ← satisfy isBare
      let cs ← takeWhile isBare
      pure (String.ofList (c :: cs))
  blanks
  return part

/-- Takes the parts of a dotted key, of which there are at most `limit`. -/
def keyParts : (limit : Nat) → Scanner (List String × String)
  | 0 => failure
  | limit + 1 => do
    let part ← keyPart
    match ← peek? with
    | some '.' => do
      char '.'
      let (path, key) ← keyParts limit
      return (part :: path, key)
    | _ => return ([], part)

/-- Takes a key: its path and its last part. -/
def key : Scanner (List String × String) := keyParts maxDepth

/-- Takes the rest of an array, with at most `limit` elements. -/
def elements (value : Scanner Value) : (limit : Nat) → Scanner (List Value)
  | 0 => failure
  | limit + 1 => do
    gap
    match ← peek? with
    | some ']' => do
      char ']'
      pure []
    | _ => do
      let v ← value
      gap
      match ← satisfy fun c => c == ',' || c == ']' with
      | ',' => return v :: (← elements value limit)
      | _ => return [v]

/-- Takes a key and its value. -/
def pair (value : Scanner Value) : Scanner (List String × String × Value) := do
  let (path, key) ← key
  char '='
  blanks
  return (path, key, ← value)

/-- Takes the rest of a table in braces that is not empty, with at most `limit` more pairs. -/
def pairs (value : Scanner Value) : (limit : Nat) → Entries → Scanner Entries
  | 0, _ => failure
  | limit + 1, es => do
    let (path, key, v) ← pair value
    let es ← StateT.lift (es.insert path key v)
    blanks
    match ← satisfy fun c => c == ',' || c == '\x7d' with
    | ',' => pairs value limit es
    | _ => return es

/-- Takes a value that holds no others. -/
def simpleValue : Scanner Value := do
  match ← peek? with
  | some '"' | some '\'' => return .string (← string)
  | some 't' => do
    text ['t', 'r', 'u', 'e']
    return .boolean true
  | some 'f' => do
    text ['f', 'a', 'l', 's', 'e']
    return .boolean false
  | some 'i' | some 'n' => return .float (← taken specialFloat)
  | some c => if isDigit c || c == '+' || c == '-' then numeric else failure
  | none => failure

/-- Takes a value in which at most `depth` arrays and tables lie inside one another. -/
def value : (depth : Nat) → Scanner Value
  | 0 => simpleValue
  | depth + 1 => do
    match ← peek? with
    | some '[' => do
      char '['
      let limit := (← get).length
      return .array (← elements (value depth) limit)
    | some '\x7b' => do
      char '\x7b'
      blanks
      match ← peek? with
      | some '\x7d' => do
        char '\x7d'
        return .table .braces []
      | _ => do
        let limit := (← get).length
        return .table .braces (← pairs (value depth) limit [])
    | _ => simpleValue

/-- Takes a header with the line that it is on. -/
def header : Scanner Statement := do
  char '['
  match ← optional (char '[') with
  | some _ => do
    let (path, key) ← key
    text [']', ']']
    restOfLine
    return .elementHeader path key
  | none => do
    let (path, key) ← key
    char ']'
    restOfLine
    return .header path key

/-- Takes the statements up to the end of the text, from at most `limit` lines. -/
def statements : (limit : Nat) → Scanner (List Statement)
  | 0 => failure
  | limit + 1 => do
    blanks
    match ← peek? with
    | none => pure []
    | some '#' => do
      comment
      lineEnd
      statements limit
    | some '\n' | some '\r' => do
      newline
      statements limit
    | some '[' => do
      let s ← header
      return s :: (← statements limit)
    | some _ => do
      let (path, key, v) ← pair (value maxDepth)
      restOfLine
      return .pair path key v :: (← statements limit)

end Scanner

namespace Document

/-- The statements of a document, which may start with a byte order mark. -/
def statements (source : String) : Option (List Statement) :=
  let cs := match source.toList with
    | '\ufeff' :: rest => rest
    | cs => cs
  (Scanner.statements (cs.length + 1) cs).map (·.1)

/-- A document half way: the table so far, and where the next pairs go. -/
structure Draft where
  root : Entries
  current? : Option (List String)

/-- Adds a statement. -/
def Draft.add (d : Draft) : Statement → Option Draft
  | .pair path key v => do
    let root ← Entries.modifyAt false (fun _ table => table.insert path key v)
      (d.current?.getD []) .header d.root
    return { d with root := root }
  | .header path key => do
    return { root := ← d.root.openTable path key, current? := some (path ++ [key]) }
  | .elementHeader path key => do
    return { root := ← d.root.openElement path key, current? := some (path ++ [key]) }

/-- The table that the statements make. -/
def ofStatements (ss : List Statement) : Option Entries :=
  (ss.foldlM Draft.add ⟨[], none⟩).map (·.root)

/-- The table that a document stands for. -/
def read (source : String) : Option Entries := do
  ofStatements (← statements source)

end Document

end TypedSSA.Toml
