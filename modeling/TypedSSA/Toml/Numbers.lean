import TypedSSA.Toml.Strings
import TypedSSA.Toml.Value

/-!
# TOML numbers and dates

Integers of 64 bits in four bases, floating numbers, and dates and times. Digits may be set apart
by single underscores. A floating number too large to be finite is refused, unless it is negative.
-/

namespace TypedSSA.Toml.Scanner

def isDigit (c : Char) : Bool := '0' ≤ c && c ≤ '9'

/-- Takes digits, each of which may follow an underscore. -/
def moreDigits (p : Char → Bool) : (limit : Nat) → Scanner (List Char)
  | 0 => pure []
  | limit + 1 => do
    match ← peek? with
    | some '_' => do
      char '_'
      let d ← satisfy p
      return d :: (← moreDigits p limit)
    | some c =>
      if p c then do
        let _ ← satisfy p
        return c :: (← moreDigits p limit)
      else pure []
    | none => pure []

/-- Takes at least one digit, without the underscores between them. -/
def digits (p : Char → Bool) : Scanner (List Char) := do
  let d ← satisfy p
  let limit := (← get).length
  return d :: (← moreDigits p limit)

/-- The number that these digits write. -/
def number (base : Nat) (ds : List Char) : Nat :=
  ds.foldl (fun n d => base * n + (hexValue? d).getD 0) 0

/-- Takes a sign; whether it is a minus. -/
def sign : Scanner Bool := do
  match ← optional (satisfy fun c => c == '+' || c == '-') with
  | some '-' => pure true
  | _ => pure false

/-- Takes the digits of a decimal integer, which starts with a zero only if it is one. -/
def decimalDigits : Scanner (List Char) := do
  match ← peek? with
  | some '0' => do
    char '0'
    pure ['0']
  | _ => digits isDigit

/-- The integers that can be written. -/
def inRange (v : Int) : Bool := decide (-0x8000000000000000 ≤ v) && decide (v < 0x8000000000000000)

def integerIn (mark : Char) (base : Nat) : Scanner Int := do
  text ['0', mark]
  let ds ← digits fun c => ((hexValue? c).map fun d => decide (d < base)).getD false
  let v : Int := number base ds
  if inRange v then return v else failure

def decimalInteger : Scanner Int := do
  let negative ← sign
  let n : Int := number 10 (← decimalDigits)
  let v := if negative then -n else n
  if inRange v then return v else failure

def integer : Scanner Int :=
  integerIn 'x' 16 <|> integerIn 'o' 8 <|> integerIn 'b' 2 <|> decimalInteger

/-- Takes an exponent. -/
def exponent : Scanner Int := do
  let _ ← satisfy fun c => c == 'e' || c == 'E'
  let negative ← sign
  let n : Int := number 10 (← digits isDigit)
  return if negative then -n else n

/-- The least number that is nearer to `2^1024` than to the largest finite number of 64 bits, or as
near. -/
def overflowAt : Nat := 1 <<< 1024 - 1 <<< 970

/-- Whether `n · 10^e` rounds to no finite number. The number of digits settles all but a few
cases. -/
def overflows (n : Nat) (e : Int) : Bool :=
  let size := (Nat.toDigits 10 n).length + e
  if n = 0 || size < 300 then false
  else if 400 < size then true
  else if 0 ≤ e then decide (overflowAt ≤ n * Nat.pow 10 e.toNat)
  else decide (overflowAt * Nat.pow 10 (-e).toNat ≤ n)

/-- Takes a floating number with a point or an exponent. -/
def decimalFloat : Scanner Unit := do
  let negative ← sign
  let whole ← decimalDigits
  let fraction ← optional do
    char '.'
    digits isDigit
  let power ← optional exponent
  if fraction.isNone && power.isNone then failure
  let places := fraction.getD []
  if !negative && overflows (number 10 (whole ++ places)) (power.getD 0 - places.length) then
    failure

/-- Takes an infinity, or what is not a number. -/
def specialFloat : Scanner Unit := do
  let _ ← sign
  text ['i', 'n', 'f'] <|> text ['n', 'a', 'n']

/-- Takes exactly `count` digits. -/
def fixedDigits : (count : Nat) → (n : Nat) → Scanner Nat
  | 0, n => pure n
  | count + 1, n => do
    let d ← satisfy isDigit
    fixedDigits count (10 * n + (d.toNat - '0'.toNat))

/-- Takes two digits for a number between `low` and `high`. -/
def field (low high : Nat) : Scanner Nat := do
  let n ← fixedDigits 2 0
  if low ≤ n ∧ n ≤ high then return n else failure

def isLeap (year : Nat) : Bool := year % 4 == 0 && (year % 100 != 0 || year % 400 == 0)

def daysIn (year month : Nat) : Nat :=
  if month = 2 then (if isLeap year then 29 else 28)
  else if month = 4 ∨ month = 6 ∨ month = 9 ∨ month = 11 then 30
  else 31

def fullDate : Scanner Unit := do
  let year ← fixedDigits 4 0
  char '-'
  let month ← field 1 12
  char '-'
  let day ← field 1 31
  if daysIn year month < day then failure

def time : Scanner Unit := do
  let _ ← field 0 23
  char ':'
  let _ ← field 0 59
  char ':'
  let _ ← field 0 60
  let _ ← optional do
    char '.'
    let _ ← satisfy isDigit
    takeWhile isDigit

/-- Takes the distance from universal time. -/
def offset : Scanner Unit := do
  match ← satisfy fun c => c == 'Z' || c == 'z' || c == '+' || c == '-' with
  | '+' | '-' => do
    let _ ← field 0 23
    char ':'
    let _ ← field 0 59
  | _ => pure ()

def dateTime : Scanner Unit := do
  fullDate
  let _ ← optional do
    let _ ← satisfy fun c => c == 'T' || c == 't' || c == ' '
    time
    optional offset

/-- Gives the text that a scanner takes. -/
def taken (x : Scanner Unit) : Scanner String := do
  let before ← get
  x
  let after ← get
  return String.ofList (before.take (before.length - after.length))

/-- Takes what starts with a digit or a sign. -/
def numeric : Scanner Value :=
  (Value.date <$> taken (dateTime <|> time)) <|>
    (Value.float <$> taken (decimalFloat <|> specialFloat)) <|>
    (Value.integer <$> integer)

end TypedSSA.Toml.Scanner
