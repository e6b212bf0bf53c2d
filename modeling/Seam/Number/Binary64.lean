import Seam.Number.Scalar

/-!
Floating point numbers of 64 bits as scalars. A finite one is `± m · 2 ^ e` for
whole `m` and `e`, so that rounding to places, rounding up and the search for
the shortest decimal are done in exact arithmetic on `m` and `e`. A decimal of `n`
digits that lies in an interval around a positive quotient is one of the quotient's two
neighbours on the grid of `n` digits, so the grids are tried from the coarsest on and
the first one with a neighbour in the interval gives the shortest decimal.
-/
namespace Seam.Rounding

/-- The whole number nearest to `num / den`, a tie to the even one. -/
def halfEven (num den : Nat) : Nat :=
  let q := num / den
  let r := num % den
  if 2 * r < den || (2 * r = den && q % 2 = 0) then q else q + 1

/-- The least whole number that is not below `num / den`. -/
def ceil (num den : Nat) : Nat := (num + den - 1) / den

/-- The number of decimal digits of `n`, one for zero. -/
def width (n : Nat) : Nat := (Nat.toDigits 10 n).length

/-- The power of ten just above a positive quotient: the least `k` with
    `num / den < 10 ^ k`. -/
def magnitude (num den : Nat) : Int :=
  if den ≤ num then width (num / den) else 1 - (width ((den - 1) / num) : Int)

/-- The quotient `num / den` divided by `10 ^ k`, as a quotient. -/
def shift (num den : Nat) : Int → Nat × Nat
  | .ofNat k => (num, den * Nat.pow 10 k)
  | .negSucc k => (num * Nat.pow 10 (k + 1), den)

end Seam.Rounding

namespace Seam.Shortest

/-- The positive quotient `num / den` and the ends `low / den` and `high / den`
    of an interval around it; `closed` says whether the ends belong to it. -/
structure Interval where
  num : Nat
  low : Nat
  high : Nat
  den : Nat
  closed : Bool

/-- Does `d · 10 ^ j` lie in the interval? -/
def Interval.holds (i : Interval) (d : Nat) (j : Int) : Bool :=
  let (low, den) := Rounding.shift i.low i.den j
  let (high, _) := Rounding.shift i.high i.den j
  if i.closed then low ≤ d * den && d * den ≤ high else low < d * den && d * den < high

/-- The nearer neighbour of `num / den` among `q` and `q + 1`, where `q` is the
    whole part. -/
def nearer (tie : Tie) (num den : Nat) : Nat :=
  let q := num / den
  let r := num % den
  if 2 * r < den || (2 * r = den && tie == .even && q % 2 = 0) then q else q + 1

/-- The neighbour of the quotient on the grid of step `10 ^ j` that lies in the
    interval, the nearer one if both do. -/
def Interval.onGrid? (i : Interval) (tie : Tie) (j : Int) : Option Nat :=
  let (num, den) := Rounding.shift i.num i.den j
  let q := num / den
  match i.holds q j, i.holds (q + 1) j with
  | true, true => some (nearer tie num den)
  | true, false => some q
  | false, true => some (q + 1)
  | false, false => none

/-- Moves the zeros at the end of a number of at most `fuel` digits into the
    exponent. -/
def trim : Nat → Nat → Int → Nat × Int
  | 0, d, j => (d, j)
  | fuel + 1, d, j => if d % 10 = 0 && d != 0 then trim fuel (d / 10) (j + 1) else (d, j)

/-- The shortest decimal in the interval with at most `limit` digits, or else
    the quotient rounded to that many digits. -/
def ofInterval (tie : Tie) (limit : Nat) (negative : Bool) (i : Interval) : Decimal :=
  let k := Rounding.magnitude i.num i.den
  let grid := (List.range limit).findSome? fun (n : Nat) =>
    let j : Int := k - (n + 1 : Nat)
    (i.onGrid? tie j).map fun d => (d, j)
  let (d, j) := grid.getD
    (let j := k - limit
     let (num, den) := Rounding.shift i.num i.den j
     (nearer tie num den, j))
  let (d, j) := trim (Rounding.width d) d j
  ⟨negative, d, j⟩

end Seam.Shortest

namespace Seam.Binary64

open Float.Model (UnpackedFloat Format)

/-- Sign, whole factor and exponent of two of a finite number. -/
def unpack (x : Float) : UnpackedFloat := UnpackedFloat.unpack Format.binary64 x.toBits.toBitVec

/-- Is the number written with a minus? -/
def isMinus : UnpackedFloat.Sign → Bool
  | .positive => false
  | .negative => true

/-- The quotient `m · 2 ^ e`. -/
def quotient (m : Nat) : Int → Nat × Nat
  | .ofNat k => (m * Nat.pow 2 k, 1)
  | .negSucc k => (m, Nat.pow 2 (k + 1))

/-- The numbers that are nearest to `m · 2 ^ e` among those that a word can
    hold: half a unit of the last bit to either side, but half as much below a
    power of two, where the numbers lie closer. The ends round to the even
    factor. -/
def interval (m : Nat) (e : Int) : Shortest.Interval :=
  let (scale, den) := quotient 1 (e - 2)
  let below := if m = Nat.pow 2 52 && -1074 < e then 1 else 2
  ⟨4 * m * scale, (4 * m - below) * scale, (4 * m + 2) * scale, den, m % 2 = 0⟩

/-- The most decimal digits that are ever needed to tell two numbers apart. -/
def digitLimit : Nat := 17

/-- The shortest decimal that reads back as the number. -/
def shortest (tie : Tie) (x : Float) : Numeral :=
  match unpack x with
  | .zero s => .finite ⟨isMinus s, 0, 0⟩
  | .finite s m e _ => .finite (Shortest.ofInterval tie digitLimit (isMinus s) (interval m e))
  | .infinity s => .infinite (isMinus s)
  | .notANumber => .undefined

/-- The nearest decimal with so many places. -/
def rounded (places : Nat) (x : Float) : Numeral :=
  match unpack x with
  | .zero s => .finite ⟨isMinus s, 0, -places⟩
  | .finite s m e _ =>
    let (num, den) := quotient (m * Nat.pow 10 places) e
    .finite ⟨isMinus s, Rounding.halfEven num den, -places⟩
  | .infinity s => .infinite (isMinus s)
  | .notANumber => .undefined

/-- Rounds up to a whole number; what a word of 64 bits cannot hold becomes the
    largest that it can, and all that is negative or undefined becomes zero. -/
def ceil (x : Float) : Nat :=
  match unpack x with
  | .finite .positive m e _ =>
    let (num, den) := quotient m e
    min (Rounding.ceil num den) (Nat.pow 2 64 - 1)
  | .infinity .positive => Nat.pow 2 64 - 1
  | _ => 0

/-- The number nearest to a decimal; one too large for all of them is infinite. -/
def ofDecimal (d : Decimal) : Float :=
  let x := match d.exponent with
    | .ofNat k => Float.ofScientific d.digits false k
    | .negSucc k => Float.ofScientific d.digits true (k + 1)
  if d.negative then -x else x

instance : Scalar Float where
  add := Float.add
  sub := Float.sub
  mul := Float.mul
  div := Float.div
  beq := Float.beq
  lt := (· < ·)
  le := (· ≤ ·)
  decLt := inferInstance
  decLe := inferInstance
  sqrt := Float.sqrt
  negate := Float.neg
  isFinite := Float.isFinite
  infinity := 1 / 0
  ofNat := Float.ofNat
  ofDecimal := ofDecimal
  ceil := ceil
  rounded := rounded
  shortest := shortest

end Seam.Binary64
