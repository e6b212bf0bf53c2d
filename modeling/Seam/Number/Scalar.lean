/-!
The numbers that a machine computes with, and decimal numerals. `Scalar` gathers the
arithmetic, the tests and the decimal notations that the rest of the library needs of
numbers, so that one definition serves floating point and exact numbers alike. An
unknown coordinate is the scalar `infinity`, and every comparison with an undefined
number is false. Reading a numeral takes an optional sign, digits with an optional
point, an optional exponent, and the names of infinity and of the undefined value;
writing never uses an exponent.
-/
namespace Seam

/-- The decimal `± digits · 10 ^ exponent`. -/
structure Decimal where
  negative : Bool
  digits : Nat
  exponent : Int
deriving Repr, DecidableEq

/-- What a numeral denotes: a decimal, an infinity, or no number at all. -/
inductive Numeral where
  | finite (value : Decimal)
  | infinite (negative : Bool)
  | undefined
deriving Repr, DecidableEq

namespace Decimal

def ofDigits (cs : List Char) : Nat := Nat.ofDigitChars 10 cs 0

/-- The digits of `n` with a point before the last `places` of them and at
    least one digit in front of it; without places there is no point. -/
def pointed (places n : Nat) : List Char :=
  let ds := (Nat.toDigits 10 n).leftpad (places + 1) '0'
  if places = 0 then ds
  else ds.take (ds.length - places) ++ '.' :: ds.drop (ds.length - places)

/-- The unsigned decimal in full: zeros before the point stand for a positive
    exponent, places after the point for a negative one. -/
def magnitude (digits : Nat) : Int → List Char
  | .ofNat k => Nat.toDigits 10 (digits * Nat.pow 10 k)
  | .negSucc k => pointed (k + 1) digits

/-- The sign of a numeral as written: nothing when it is positive. -/
def signText (negative : Bool) : List Char := if negative then ['-'] else []

/-- The decimal in full, with its sign even when it is zero. -/
def text (d : Decimal) : List Char := signText d.negative ++ magnitude d.digits d.exponent

/-- The same decimal, a zero without sign. -/
def unsignedZero (d : Decimal) : Decimal := { d with negative := d.negative && d.digits != 0 }

/-- Splits off an optional sign; `true` for a minus. -/
def takeSign : List Char → Bool × List Char
  | '-' :: cs => (true, cs)
  | '+' :: cs => (false, cs)
  | cs => (false, cs)

/-- A signed whole number with at least one digit and nothing behind it. -/
def readInt? (cs : List Char) : Option Int :=
  let (negative, ds) := takeSign cs
  if ds.isEmpty || !ds.all Char.isDigit then none
  else some (if negative then -(ofDigits ds : Int) else ofDigits ds)

/-- The exponent part: nothing, or a letter `e` and a signed whole number. -/
def readExponent? : List Char → Option Int
  | [] => some 0
  | c :: cs => if c = 'e' || c = 'E' then readInt? cs else none

/-- The digits before a point and those behind it, and what follows. -/
def takeDigits (cs : List Char) : List Char × List Char × List Char :=
  let whole := cs.takeWhile Char.isDigit
  match cs.dropWhile Char.isDigit with
  | '.' :: r => (whole, r.takeWhile Char.isDigit, r.dropWhile Char.isDigit)
  | r => (whole, [], r)

/-- An unsigned decimal with at least one digit before or behind its point. -/
def readMagnitude? (negative : Bool) (cs : List Char) : Option Decimal :=
  let (whole, places, rest) := takeDigits cs
  if whole.isEmpty && places.isEmpty then none
  else (readExponent? rest).map fun e => ⟨negative, ofDigits (whole ++ places), e - places.length⟩

end Decimal

namespace Numeral

/-- The texts of the infinities and of the undefined value stand beside those
    of the decimals. -/
def text : Numeral → List Char
  | .finite d => d.text
  | .infinite negative => Decimal.signText negative ++ ['i', 'n', 'f']
  | .undefined => ['N', 'a', 'N']

/-- A numeral with nothing around it; the names are read in either case. -/
def read? (cs : List Char) : Option Numeral :=
  let (negative, body) := Decimal.takeSign cs
  match Decimal.readMagnitude? negative body with
  | some d => some (.finite d)
  | none =>
    let name := String.ofList (body.map Char.toLower)
    if name = "inf" || name = "infinity" then some (.infinite negative)
    else if name = "nan" then some .undefined
    else none

/-- The numeral without a sign on a decimal zero. -/
def unsignedZero : Numeral → Numeral
  | .finite d => .finite d.unsignedZero
  | other => other

end Numeral

/-- What becomes of a decimal halfway between the two nearest candidates. -/
inductive Tie where
  /-- The one of larger magnitude. -/
  | away
  /-- The one whose last digit is even. -/
  | even
deriving Repr, DecidableEq

/-- Numbers with the arithmetic of a machine: `infinity` stands for an unknown
    value, and results that are no number are equal to nothing. -/
class Scalar (α : Type) extends Add α, Sub α, Mul α, Div α, BEq α, LT α, LE α where
  decLt : (a b : α) → Decidable (a < b)
  decLe : (a b : α) → Decidable (a ≤ b)
  sqrt : α → α
  /-- The number of the other sign, also for zero. -/
  negate : α → α
  /-- Neither infinite nor undefined. -/
  isFinite : α → Bool
  infinity : α
  ofNat : Nat → α
  /-- The scalar nearest to a decimal. -/
  ofDecimal : Decimal → α
  /-- The least whole number not below the scalar, none below zero. -/
  ceil : α → Nat
  /-- The nearest decimal with so many places, a tie to the even one. -/
  rounded : Nat → α → Numeral
  /-- The shortest decimal that only this scalar is nearest to. -/
  shortest : Tie → α → Numeral

namespace Scalar

variable {α : Type} [Scalar α]

instance (a b : α) : Decidable (a < b) := decLt a b
instance (a b : α) : Decidable (a ≤ b) := decLe a b
instance (priority := low) (n : Nat) : OfNat α n := ⟨Scalar.ofNat n⟩

/-- No number: the scalar differs from itself. -/
def isUndefined (a : α) : Bool := !(a == a)

/-- The lesser of two, ignoring one that is undefined. -/
def min (a b : α) : α :=
  if isUndefined a then b else if isUndefined b then a else if b < a then b else a

/-- The greater of two, ignoring one that is undefined. -/
def max (a b : α) : α :=
  if isUndefined a then b else if isUndefined b then a else if a < b then b else a

/-- The scalar moved into the interval from zero to one. -/
def clamp (a : α) : α := if a < 0 then 0 else if 1 < a then 1 else a

def abs (a : α) : α := if a < 0 then negate a else a

/-- The scalar nearest to `digits / 10 ^ places`. -/
def ofPlaces (digits places : Nat) : α := ofDecimal ⟨false, digits, -places⟩

/-- The sum of a list, added up from the left. -/
def sum (xs : List α) : α := xs.foldl (· + ·) 0

/-- What a numeral denotes among the scalars. -/
def ofNumeral : Numeral → α
  | .finite d => ofDecimal d
  | .infinite negative => if negative then negate infinity else infinity
  | .undefined => infinity - infinity

/-- The scalar that a text denotes, if it is a numeral. -/
def read? (text : List Char) : Option α := (Numeral.read? text).map ofNumeral

/-- The shortest text of a scalar, in full. -/
def text (a : α) : String := String.ofList (shortest .away a).text

/-- The text of a scalar rounded to so many places, a sign on zero included. -/
def fixed (places : Nat) (a : α) : String := String.ofList (rounded places a).text

end Scalar

end Seam
