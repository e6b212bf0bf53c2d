import Mathlib
import Seam.Number.Scalar

/-!
Exact arithmetic: the scalars of the theory. A number is a real, one of the two
infinities, or undefined; the infinities follow the rules of floating point and
nothing is ever rounded. On reals every operation is that of the reals, and
adding a real commutes with every sum and difference, known or not
(`add_assoc`, `shift_sub_shift`).
-/
namespace Seam

/-- A number that is computed without rounding. -/
inductive Exact where
  | real (r : ℝ)
  | infinite (negative : Bool)
  /-- No number at all. -/
  | undefined

/-- What a decimal denotes. -/
noncomputable def Decimal.value (d : Decimal) : ℝ :=
  (if d.negative then -1 else 1) * d.digits * (10 : ℝ) ^ d.exponent

namespace Exact
open Classical

/-- Infinities of different signs have no sum. -/
noncomputable def add : Exact → Exact → Exact
  | real a, real b => real (a + b)
  | infinite s, infinite t => if s = t then infinite s else undefined
  | infinite s, real _ => infinite s
  | real _, infinite t => infinite t
  | _, _ => undefined

/-- The number of the other sign. -/
noncomputable def negate : Exact → Exact
  | real a => real (-a)
  | infinite s => infinite !s
  | undefined => undefined

/-- Zero times an infinity is no number. -/
noncomputable def mul : Exact → Exact → Exact
  | real a, real b => real (a * b)
  | infinite s, infinite t => infinite (s != t)
  | infinite s, real b => if b = 0 then undefined else infinite (s != decide (b < 0))
  | real a, infinite t => if a = 0 then undefined else infinite (t != decide (a < 0))
  | _, _ => undefined

/-- A real divided by zero is infinite, except for zero itself. -/
noncomputable def div : Exact → Exact → Exact
  | real a, real b => if b = 0 then if a = 0 then undefined else infinite (decide (a < 0)) else real (a / b)
  | infinite s, real b => infinite (s != decide (b < 0))
  | real _, infinite _ => real 0
  | _, _ => undefined

/-- The order; whatever is undefined is not comparable. -/
def Less : Exact → Exact → Prop
  | real a, real b => a < b
  | infinite s, infinite t => s = true ∧ t = false
  | infinite s, real _ => s = true
  | real _, infinite t => t = false
  | _, _ => False

/-- A negative number has no root. -/
noncomputable def sqrt : Exact → Exact
  | real a => if a < 0 then undefined else real (Real.sqrt a)
  | infinite s => if s then undefined else infinite s
  | undefined => undefined

/-- The whole number nearest to a real that is not negative, a tie to the even one. -/
noncomputable def nearest (x : ℝ) : ℕ :=
  let q := ⌊x⌋₊
  if 2 * (x - q) < 1 ∨ 2 * (x - q) = 1 ∧ q % 2 = 0 then q else q + 1

/-- The numeral of a number, given the decimal of a real. -/
noncomputable def numeral (decimal : ℝ → Numeral) : Exact → Numeral
  | real a => decimal a
  | infinite s => .infinite s
  | undefined => .undefined

/-- The decimal without zeros at its end that denotes a real, if there is one. -/
noncomputable def shortest (r : ℝ) : Numeral :=
  if h : ∃ d : Decimal, d.value = r ∧ (d.digits % 10 ≠ 0 ∨ d = ⟨false, 0, 0⟩) then .finite h.choose else .undefined

noncomputable instance : Scalar Exact where
  add := add
  sub a b := add a (negate b)
  mul := mul
  div := div
  beq a b := decide (a = b ∧ a ≠ undefined)
  lt := Less
  le a b := Less a b ∨ a = b ∧ a ≠ undefined
  decLt _ _ := inferInstance
  decLe _ _ := inferInstance
  sqrt := sqrt
  negate := negate
  isFinite a := match a with
    | real _ => true
    | _ => false
  infinity := infinite false
  ofNat n := real n
  ofDecimal d := real d.value
  ceil a := match a with
    | real r => ⌈r⌉₊
    | _ => 0
  rounded places := numeral fun r => .finite ⟨decide (r < 0), nearest (|r| * 10 ^ places), -places⟩
  shortest _ := numeral shortest

noncomputable instance : DecidableEq Exact := fun _ _ => inferInstance

/-- The real that a number is, zero for what is none. -/
def toReal : Exact → ℝ
  | real r => r
  | _ => 0

def IsReal (x : Exact) : Prop := ∃ r, x = real r

@[simp] theorem toReal_real (r : ℝ) : (real r).toReal = r := rfl

@[simp] theorem isReal_real (r : ℝ) : (real r).IsReal := ⟨r, rfl⟩

theorem IsReal.eq {x : Exact} (h : x.IsReal) : x = real x.toReal := by
  obtain ⟨r, rfl⟩ := h
  rfl

theorem isFinite_iff {x : Exact} : Scalar.isFinite x = true ↔ x.IsReal := by
  cases x with
  | real r => exact ⟨fun _ => ⟨r, rfl⟩, fun _ => rfl⟩
  | infinite s => exact iff_of_false Bool.false_ne_true (by rintro ⟨r, same⟩; cases same)
  | undefined => exact iff_of_false Bool.false_ne_true (by rintro ⟨r, same⟩; cases same)

section
variable (a b : ℝ)

@[simp] theorem real_add : real a + real b = real (a + b) := rfl
@[simp] theorem real_sub : real a - real b = real (a - b) := by
  rw [sub_eq_add_neg]; rfl
@[simp] theorem real_mul : real a * real b = real (a * b) := rfl
@[simp] theorem real_lt : real a < real b ↔ a < b := Iff.rfl
@[simp] theorem real_le : real a ≤ real b ↔ a ≤ b := by
  constructor
  · rintro (less | ⟨same, _⟩)
    · exact le_of_lt less
    · cases same; exact le_refl _
  · intro le
    rcases lt_or_eq_of_le le with less | same
    · exact .inl less
    · exact .inr ⟨same ▸ rfl, fun h => by cases h⟩
@[simp] theorem negate_real : Scalar.negate (real a) = real (-a) := rfl
@[simp] theorem isFinite_real : Scalar.isFinite (real a) = true := rfl
@[simp] theorem isUndefined_real : Scalar.isUndefined (real a) = false := by
  simp [Scalar.isUndefined, BEq.beq]
@[simp] theorem infinity_eq : (Scalar.infinity : Exact) = infinite false := rfl
@[simp] theorem isFinite_infinite (s : Bool) : Scalar.isFinite (infinite s) = false := rfl
@[simp] theorem ofNat_eq (n : ℕ) : (Scalar.ofNat n : Exact) = real n := rfl
@[simp] theorem zero_eq : (0 : Exact) = real 0 := by
  show Scalar.ofNat 0 = real 0
  simp
@[simp] theorem one_eq : (1 : Exact) = real 1 := by
  show Scalar.ofNat 1 = real 1
  simp
@[simp] theorem three_eq : (3 : Exact) = real 3 := by
  show Scalar.ofNat 3 = real 3
  simp
@[simp] theorem ceil_real : Scalar.ceil (real a) = ⌈a⌉₊ := rfl

theorem real_div {a b : ℝ} (nonzero : b ≠ 0) : real a / real b = real (a / b) :=
  show (if b = 0 then _ else _) = _ from if_neg nonzero

theorem sqrt_real {a : ℝ} (nonneg : 0 ≤ a) : Scalar.sqrt (real a) = real (Real.sqrt a) :=
  show (if a < 0 then _ else _) = _ from if_neg (not_lt.mpr nonneg)

theorem ofPlaces_eq (digits places : ℕ) :
    (Scalar.ofPlaces digits places : Exact) = real (digits / 10 ^ places) := by
  show real (Decimal.value _) = _
  rw [Decimal.value, if_neg (by simp), one_mul, zpow_neg, zpow_natCast, div_eq_mul_inv]

theorem ofPlaces_billionth : (Scalar.ofPlaces 1 9 : Exact) = real 1e-9 := by
  rw [ofPlaces_eq]
  norm_num

@[simp] theorem min_real : Scalar.min (real a) (real b) = real (min a b) := by
  simp only [Scalar.min, isUndefined_real, Bool.false_eq_true, ↓reduceIte, real_lt]
  rcases lt_or_ge b a with less | le
  · rw [if_pos less, min_eq_right (le_of_lt less)]
  · rw [if_neg (not_lt.mpr le), min_eq_left le]

@[simp] theorem max_real : Scalar.max (real a) (real b) = real (max a b) := by
  simp only [Scalar.max, isUndefined_real, Bool.false_eq_true, ↓reduceIte, real_lt]
  rcases lt_or_ge a b with less | le
  · rw [if_pos less, max_eq_right (le_of_lt less)]
  · rw [if_neg (not_lt.mpr le), max_eq_left le]

@[simp] theorem clamp_real : Scalar.clamp (real a) = real (max 0 (min a 1)) := by
  simp only [Scalar.clamp, zero_eq, one_eq, real_lt]
  split
  case isTrue negative => rw [max_eq_left (min_le_of_left_le (le_of_lt negative))]
  case isFalse nonneg =>
    split
    case isTrue large => rw [min_eq_right (le_of_lt large), max_eq_right zero_le_one]
    case isFalse small => rw [min_eq_left (not_lt.mp small), max_eq_right (not_lt.mp nonneg)]

@[simp] theorem abs_real : Scalar.abs (real a) = real |a| := by
  simp only [Scalar.abs, zero_eq, real_lt, negate_real]
  split
  case isTrue negative => rw [abs_of_neg negative]
  case isFalse nonneg => rw [abs_of_nonneg (not_lt.mp nonneg)]

end

theorem sum_real (xs : List ℝ) : Scalar.sum (xs.map real) = real xs.sum := by
  have from_start (start : ℝ) : (xs.map real).foldl (· + ·) (real start) = real (start + xs.sum) := by
    induction xs generalizing start with
    | nil => simp
    | cons x xs ih => simp only [List.map_cons, List.foldl_cons, real_add, ih, List.sum_cons, add_assoc]
  simpa [Scalar.sum] using from_start 0

theorem eq_of_beq {x y : Exact} (h : (x == y) = true) : x = y :=
  (of_decide_eq_true (p := x = y ∧ x ≠ undefined) h).1

protected theorem lt_irrefl (x : Exact) : ¬ x < x := by
  intro less
  cases x with
  | real r => exact absurd rfl (ne_of_lt ((real_lt r r).mp less))
  | infinite s => exact Bool.false_ne_true (less.2.symm.trans less.1)
  | undefined => exact less

theorem sub_eq (x y : Exact) : x - y = x + Scalar.negate y := rfl

protected theorem add_comm (x y : Exact) : x + y = y + x := by
  show add x y = add y x
  rcases x with a | (_ | _) | _ <;> rcases y with b | (_ | _) | _ <;> simp [add, add_comm]

protected theorem add_assoc (x y z : Exact) : x + y + z = x + (y + z) := by
  show add (add x y) z = add x (add y z)
  rcases x with a | (_ | _) | _ <;> rcases y with b | (_ | _) | _ <;> rcases z with c | (_ | _) | _ <;>
    simp [add, add_assoc]

private theorem negate_add (x y : Exact) : Scalar.negate (x + y) = Scalar.negate x + Scalar.negate y := by
  show negate (add x y) = add (negate x) (negate y)
  rcases x with a | (_ | _) | _ <;> rcases y with b | (_ | _) | _ <;> simp [add, negate, add_comm]

@[simp] protected theorem add_zero (x : Exact) : x + real 0 = x := by
  show add x (real 0) = x
  rcases x with a | _ | _ <;> simp [add]

protected theorem sub_add_cancel (x : Exact) (r : ℝ) : x - real r + real r = x := by
  rw [sub_eq, negate_real, Exact.add_assoc, real_add, neg_add_cancel, Exact.add_zero]

protected theorem add_right_cancel {x y : Exact} {r : ℝ} (same : x + real r = y + real r) : x = y := by
  have shifted := congrArg (· + real (-r)) same
  simpa only [Exact.add_assoc, real_add, add_neg_cancel, Exact.add_zero] using shifted

theorem eq_of_add_real {x : Exact} {a b : ℝ} (sum : x + real a = real b) : x = real (b - a) := by
  refine Exact.add_right_cancel (r := a) ?_
  rw [sum, real_add, sub_add_cancel]

theorem shift_add_shift (x y : Exact) (a b : ℝ) : (x + real a) + (y + real b) = (x + y) + real (a + b) := by
  rw [Exact.add_assoc, Exact.add_comm (real a), Exact.add_assoc y, real_add, Exact.add_assoc, add_comm a]

theorem shift_sub_shift (x y : Exact) (a b : ℝ) : (x + real a) - (y + real b) = (x - y) + real (a - b) := by
  rw [sub_eq, sub_eq, negate_add, negate_real, shift_add_shift, sub_eq_add_neg]

end Exact

end Seam
