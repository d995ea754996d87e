import TypedSSA.Toml.Scanner

/-!
# TOML strings

Strings between one or three quotes, with escapes between double quotes and without between single
ones. A string between three quotes may go over several lines, and may end in up to two more.
-/

namespace TypedSSA.Toml.Scanner

/-- The value of a hexadecimal digit. -/
def hexValue? (c : Char) : Option Nat :=
  if '0' ≤ c ∧ c ≤ '9' then some (c.toNat - '0'.toNat)
  else if 'a' ≤ c ∧ c ≤ 'f' then some (c.toNat - 'a'.toNat + 10)
  else if 'A' ≤ c ∧ c ≤ 'F' then some (c.toNat - 'A'.toNat + 10)
  else none

/-- Takes `count` hexadecimal digits that continue the number `n`. -/
def hexDigits : (count : Nat) → (n : Nat) → Scanner Nat
  | 0, n => pure n
  | count + 1, n => do
    match hexValue? (← satisfy fun _ => true) with
    | some d => hexDigits count (16 * n + d)
    | none => failure

/-- Takes the code point of a character in `count` hexadecimal digits. -/
def codePoint (count : Nat) : Scanner Char := do
  let n ← hexDigits count 0
  if n.isValidChar then return Char.ofNat n else failure

/-- Takes what follows the backslash of an escape. -/
def escape : Scanner Char := do
  match ← satisfy fun _ => true with
  | 'b' => pure '\x08'
  | 't' => pure '\t'
  | 'n' => pure '\n'
  | 'f' => pure '\x0c'
  | 'r' => pure '\r'
  | '"' => pure '"'
  | '\\' => pure '\\'
  | 'u' => codePoint 4
  | 'U' => codePoint 8
  | _ => failure

/-- Takes the rest of a string between double quotes. -/
def basicRest : (limit : Nat) → Scanner (List Char)
  | 0 => failure
  | limit + 1 => do
    match ← satisfy isPlain with
    | '"' => pure []
    | '\\' => do
      let c ← escape
      return c :: (← basicRest limit)
    | c => return c :: (← basicRest limit)

/-- Takes the rest of a string between single quotes. -/
def literalRest : Scanner (List Char) := do
  let cs ← takeWhile fun c => isPlain c && c != '\''
  char '\''
  return cs

/-- Takes the quotes at the end of a string between three quotes: those three, and before them up
to two that belong to the string. -/
def closingQuotes (quote : Char) : Scanner (List Char) := do
  text [quote, quote, quote]
  let extra ← optional (char quote)
  match extra with
  | none => pure []
  | some _ =>
    match ← optional (char quote) with
    | none => pure [quote]
    | some _ => pure [quote, quote]

/-- Takes blanks and line ends, the first of which follows a backslash. -/
def escapedNewline : Scanner Unit := do
  blanks
  newline
  let limit := (← get).length
  go limit
where
  /-- Takes blanks and line ends. -/
  go : Nat → Scanner Unit
    | 0 => blanks
    | limit + 1 => do
      blanks
      match ← optional newline with
      | some _ => go limit
      | none => pure ()

/-- Takes the rest of a string between three quotes of this kind. -/
def multilineRest (quote : Char) (escapes : Bool) : (limit : Nat) → Scanner (List Char)
  | 0 => failure
  | limit + 1 => do
    match ← optional (closingQuotes quote) with
    | some cs => pure cs
    | none =>
      match ← optional newline with
      | some _ => return '\n' :: (← multilineRest quote escapes limit)
      | none =>
        let c ← satisfy isPlain
        if escapes && c == '\\' then
          match ← optional escapedNewline with
          | some _ => multilineRest quote escapes limit
          | none => do
            let c ← escape
            return c :: (← multilineRest quote escapes limit)
        else return c :: (← multilineRest quote escapes limit)

/-- Takes a string on one line. -/
def line : Scanner String := do
  let limit := (← get).length
  match ← satisfy fun _ => true with
  | '"' => return String.ofList (← basicRest limit)
  | '\'' => return String.ofList (← literalRest)
  | _ => failure

/-- Takes a string between three quotes. A line end right after the first three is dropped. -/
def multiline : Scanner String := do
  let limit := (← get).length
  let quote ← satisfy fun c => c == '"' || c == '\''
  text [quote, quote]
  let _ ← optional newline
  return String.ofList (← multilineRest quote (quote == '"') limit)

/-- Takes a string. -/
def string : Scanner String := do
  match ← get with
  | '"' :: '"' :: '"' :: _ | '\'' :: '\'' :: '\'' :: _ => multiline
  | _ => line

end TypedSSA.Toml.Scanner
