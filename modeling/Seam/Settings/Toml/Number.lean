import Seam.Number.Scalar
import Seam.Settings.Toml.Text

/-!
Numbers, dates and times of TOML. A whole number must fit into 64 bits with its
sign, and a decimal must not be too large for a finite number above zero. Dates
and times are checked, but which ones they are is not kept, because no setting
is one.
-/
namespace Seam.Toml

/-- Digits with single underscores between them. -/
def digits (p : Char → Bool) : Scan (List Char) := do
  let budget := (← get).length
  let groups ← Scan.items (Scan.takeWhile1 p) (Scan.accept ['_']) (return true) budget
  return groups.flatten

/-- A sign, if there is one; `true` for a minus. -/
def sign : Scan Bool := do
  if ← Scan.accept ['-'] then return true
  let _ ← Scan.accept ['+']
  return false

/-- Digits that have no zero before others. -/
def wholeDigits : Scan (List Char) := do
  if ← Scan.accept ['0'] then return ['0'] else digits Char.isDigit

/-- A whole number of 64 bits. -/
def ofInt? (n : Int) : Option Int := if -Int.pow 2 63 ≤ n && n < Int.pow 2 63 then some n else none

/-- The whole number that digits of a base denote. -/
def ofBase (base : Nat) (cs : List Char) : Nat :=
  cs.foldl (fun n c => base * n + (Text.hexValue? c).getD 0) 0

/-- A digit of a base up to sixteen. -/
def isDigitOf (base : Nat) (c : Char) : Bool := (Text.hexValue? c).any (· < base)

/-- A whole number behind the mark of its base. -/
def based (base : Nat) : Scan Int := do ofInt? (ofBase base (← digits (isDigitOf base)))

def integer : Scan Int := do
  if ← Scan.accept ['0', 'x'] then based 16
  else if ← Scan.accept ['0', 'o'] then based 8
  else if ← Scan.accept ['0', 'b'] then based 2
  else
    let negative ← sign
    let n : Int := Decimal.ofDigits (← wholeDigits)
    ofInt? (if negative then -n else n)

/-- The exponent of a decimal, behind its letter. -/
def exponent : Scan Int := do
  let _ ← Scan.one fun c => c == 'e' || c == 'E'
  let negative ← sign
  let n : Int := Decimal.ofDigits (← digits Char.isDigit)
  return if negative then -n else n

def exponent? : Scan Int := do
  match ← Scan.peek? with
  | some 'e' | some 'E' => exponent
  | _ => return 0

/-- A decimal with a point, an exponent or both. -/
def decimal : Scan Decimal := do
  let negative ← sign
  let whole ← wholeDigits
  if ← Scan.accept ['.'] then
    let places ← digits Char.isDigit
    return ⟨negative, Decimal.ofDigits (whole ++ places), (← exponent?) - places.length⟩
  else return ⟨negative, Decimal.ofDigits whole, ← exponent⟩

/-- The names of what is no finite number. -/
def special : Scan Numeral := do
  let negative ← sign
  if ← Scan.accept ['i', 'n', 'f'] then return .infinite negative
  Scan.expect ['n', 'a', 'n']
  return .undefined

/-- A number of exactly so many digits between two bounds. -/
def field (width least most : Nat) : Scan Nat := fun cs =>
  let ds := cs.take width
  let n := Decimal.ofDigits ds
  if ds.length = width && ds.all Char.isDigit && least ≤ n && n ≤ most then some (n, cs.drop width)
  else none

def monthLength (year month : Nat) : Nat :=
  if month = 2 then
    if year % 4 = 0 && (year % 100 != 0 || year % 400 = 0) then 29 else 28
  else if month = 4 || month = 6 || month = 9 || month = 11 then 30
  else 31

def date : Scan Unit := do
  let year ← field 4 0 9999
  Scan.expect ['-']
  let month ← field 2 1 12
  Scan.expect ['-']
  let _ ← field 2 1 (monthLength year month)

/-- A time of the day; the last minute may have one second more. -/
def time : Scan Unit := do
  let _ ← field 2 0 23
  Scan.expect [':']
  let _ ← field 2 0 59
  Scan.expect [':']
  let _ ← field 2 0 60
  if ← Scan.accept ['.'] then
    let _ ← Scan.takeWhile1 Char.isDigit

/-- How far a time is ahead of or behind universal time. -/
def offset : Scan Unit := do
  let mark ← Scan.one fun c => c == 'Z' || c == 'z' || c == '+' || c == '-'
  if mark == '+' || mark == '-' then
    let _ ← field 2 0 23
    Scan.expect [':']
    let _ ← field 2 0 59

/-- A date, a time, or both with a letter or a space between them. -/
def moment : Scan Unit :=
  (do
    date
    (do
      let _ ← Scan.one fun c => c == 'T' || c == 't' || c == ' '
      time
      offset <|> pure ()) <|> pure ()) <|> time

variable {α : Type} [Scalar α]

/-- A decimal as a number, which must not be infinite above zero. -/
def decimalValue? (d : Decimal) : Option α :=
  let value : α := Scalar.ofDecimal d
  if d.negative || Scalar.isFinite value then some value else none

/-- A decimal, or the name of what is no finite number. -/
def float : Scan α := (do decimalValue? (← decimal)) <|> (return Scalar.ofNumeral (← special))

/-- A whole number as a scalar. -/
def ofInt (n : Int) : α := Scalar.ofDecimal ⟨n < 0, n.natAbs, 0⟩

end Seam.Toml
