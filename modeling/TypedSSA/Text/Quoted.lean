import TypedSSA.Text.Extending
import TypedSSA.Text.Unprintable

/-!
# Quoted text

Text between double quotes, on one line and with every character visible: quotes and backslashes
get a backslash, the common controls their letter, and every other character that does not print
on its own its code point in braces.
-/

namespace TypedSSA.Text

/-- The form of one character between quotes. -/
def escape (c : Char) : List Char :=
  match c with
  | '\x00' => ['\\', '0']
  | '\t' => ['\\', 't']
  | '\r' => ['\\', 'r']
  | '\n' => ['\\', 'n']
  | '"' => ['\\', '"']
  | '\\' => ['\\', '\\']
  | c =>
    if isExtending c || isUnprintable c then
      ['\\', 'u', '\x7b'] ++ Nat.toDigits 16 c.toNat ++ ['\x7d']
    else [c]

/-- Text between quotes. -/
def quoted (s : String) : String :=
  String.ofList ('"' :: (s.toList.flatMap escape ++ ['"']))

end TypedSSA.Text
