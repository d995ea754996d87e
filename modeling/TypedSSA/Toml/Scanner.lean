/-!
# Scanning

A scanner reads from the front of a text and gives what it has read and what is left, or fails.
Blanks, line ends and comments are common to all that is read.
-/

namespace TypedSSA.Toml

/-- Reads from the front of a text. -/
abbrev Scanner := StateT (List Char) Option

namespace Scanner

/-- The next character, which is not taken. -/
def peek? : Scanner (Option Char) := fun cs => some (cs.head?, cs)

/-- Takes a character that satisfies `p`. -/
def satisfy (p : Char → Bool) : Scanner Char
  | c :: rest => if p c then some (c, rest) else none
  | [] => none

/-- Takes this character. -/
def char (c : Char) : Scanner Unit := do
  let _ ← satisfy (· == c)

/-- Takes this text. -/
def text : List Char → Scanner Unit
  | [] => pure ()
  | c :: rest => do
    char c
    text rest

/-- Takes characters as long as they satisfy `p`. -/
def takeWhile (p : Char → Bool) : Scanner (List Char) := fun cs =>
  some (cs.takeWhile p, cs.dropWhile p)

/-- Tries a scanner, and takes nothing if it fails. -/
def optional {α : Type} (x : Scanner α) : Scanner (Option α) := (some <$> x) <|> pure none

/-- Whether a character can stand in a comment: no control character but the tab. -/
def isPlain (c : Char) : Bool := c == '\t' || (' ' ≤ c && c != '\x7f')

def isBlank (c : Char) : Bool := c == ' ' || c == '\t'

def blanks : Scanner Unit := do
  let _ ← takeWhile isBlank

/-- Takes the end of a line, with or without a carriage return. -/
def newline : Scanner Unit := text ['\n'] <|> text ['\r', '\n']

def comment : Scanner Unit := do
  char '#'
  let _ ← takeWhile isPlain

/-- Takes the end of a line, or finds the end of the text. -/
def lineEnd : Scanner Unit := do
  match ← peek? with
  | none => pure ()
  | some _ => newline

/-- Takes blanks, a comment if there is one, and the end of the line. -/
def restOfLine : Scanner Unit := do
  blanks
  let _ ← optional comment
  lineEnd

/-- Takes blanks, line ends and comments, in at most `limit` lines. -/
def gapWithin : (limit : Nat) → Scanner Unit
  | 0 => failure
  | limit + 1 => do
    blanks
    match ← peek? with
    | some '#' => do
      comment
      newline
      gapWithin limit
    | some '\n' | some '\r' => do
      newline
      gapWithin limit
    | _ => pure ()

/-- Takes blanks, line ends and comments. -/
def gap : Scanner Unit := do
  gapWithin ((← get).length + 1)

end Scanner

end TypedSSA.Toml
