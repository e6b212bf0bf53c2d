import Seam.Proofs.Lawful

/-!
The order of the numbers, and what adding zero does to them. The laws of `Scalar.Ordered`
hold of exact numbers and of those of 64 bits alike: the order is transitive and total
among finite numbers, adding zero leaves a number equal to what it was, and a number that
is defined stays so when a finite one is added. Words of 64 bits are compared by class,
exponent and whole factor in this order (`Binary64.compare_eq`).
-/
namespace Seam

/-- Numbers in order, whether or not they are rounded. -/
class Scalar.Ordered (α : Type) [Scalar α] : Prop extends Scalar.Lawful α where
  lt_trans {x y z : α} : x < y → y < z → x < z
  le_of_not_lt {x y : α} (left : isFinite x = true) (right : isFinite y = true) (above : ¬ x < y) : y ≤ x
  isFinite_zero : isFinite (0 : α) = true
  isFinite_add_zero {x : α} (finite : isFinite x = true) : isFinite (x + 0) = true
  /-- Zero may change the sign of a zero, and an undefined number is equal to nothing. -/
  add_zero_beq {x : α} (defined : isUndefined x = false) : (x + 0 == x) = true
  isUndefined_infinity : isUndefined (infinity : α) = false
  isUndefined_of_isFinite {x : α} (finite : isFinite x = true) : isUndefined x = false
  isUndefined_add {x y : α} (defined : isUndefined x = false) (finite : isFinite y = true) :
    isUndefined (x + y) = false

namespace Exact

private theorem isUndefined_eq_false_iff {x : Exact} : Scalar.isUndefined x = false ↔ x ≠ undefined := by
  simp [Scalar.isUndefined, BEq.beq]

theorem isUndefined_add {x y : Exact} (defined : x ≠ undefined) (finite : y.IsReal) : x + y ≠ undefined := by
  obtain ⟨r, rfl⟩ := finite
  intro none
  cases x with
  | real a => cases none
  | infinite s => cases none
  | undefined => exact defined rfl

end Exact

instance : Scalar.Ordered Exact where
  lt_trans {x y z} first second := by
    change Exact.Less _ _ at first second ⊢
    rcases x with a | s | _ <;> rcases y with b | t | _ <;> rcases z with c | u | _ <;>
      simp only [Exact.Less] at first second ⊢
    · exact first.trans second
    all_goals simp_all
  le_of_not_lt {x y} left right above := by
    obtain ⟨a, rfl⟩ := Exact.isFinite_iff.mp left
    obtain ⟨b, rfl⟩ := Exact.isFinite_iff.mp right
    rw [Exact.real_lt, not_lt] at above
    exact (Exact.real_le b a).mpr above
  isFinite_zero := by rw [Exact.zero_eq, Exact.isFinite_real]
  isFinite_add_zero {x} finite := by rw [Exact.zero_eq, Exact.add_zero, finite]
  add_zero_beq {x} defined := by
    rw [Exact.zero_eq, Exact.add_zero]
    simpa [Scalar.isUndefined] using defined
  isUndefined_infinity := Exact.isUndefined_eq_false_iff.mpr nofun
  isUndefined_of_isFinite {x} finite := by
    obtain ⟨r, rfl⟩ := Exact.isFinite_iff.mp finite
    exact Exact.isUndefined_real r
  isUndefined_add {x y} defined finite := by
    rw [Exact.isUndefined_eq_false_iff] at defined ⊢
    exact Exact.isUndefined_add defined (Exact.isFinite_iff.mp finite)

namespace Binary64
open Float.Model (UnpackedFloat Format)
open Float.Model.UnpackedFloat

/-- Where a number stands: its class, and within a class of finite numbers the exponent
    and the whole factor. -/
def rank : UnpackedFloat → ℤ ×ₗ ℤ ×ₗ ℤ
  | .infinity .negative => toLex (-2, toLex (0, 0))
  | .finite .negative m e _ => toLex (-1, toLex (-e, -m))
  | .zero _ | .notANumber => toLex (0, toLex (0, 0))
  | .finite .positive m e _ => toLex (1, toLex (e, m))
  | .infinity .positive => toLex (2, toLex (0, 0))

private theorem compare_cast (m n : ℕ) : compare (m : ℤ) n = compare m n := by
  rw [← cmp_eq_compare, Nat.strictMono_cast.cmp_map_eq, cmp_eq_compare]

private theorem compare_neg (e f : ℤ) : compare (-e) (-f) = (compare e f).swap := by
  have anti : StrictAnti fun e : ℤ => -e := fun _ _ less => neg_lt_neg less
  rw [← cmp_eq_compare, anti.cmp_map_eq, ← cmp_swap, cmp_eq_compare]

/-- Numbers that are defined are compared by their ranks. -/
theorem compare_eq {x y : UnpackedFloat} (left : x ≠ .notANumber) (right : y ≠ .notANumber) :
    x.compare y = some (compare (rank x) (rank y)) := by
  rcases x with (_ | _) | _ | s | ⟨_ | _, m, e, _⟩ <;> rcases y with (_ | _) | _ | t | ⟨_ | _, n, f, _⟩ <;>
    first
    | exact absurd rfl left
    | exact absurd rfl right
    | rfl
    | skip
  -- what is left are two finite numbers of one sign
  all_goals simp only [UnpackedFloat.compare, rank, Prod.Lex.compare_def, compareLex, compareOn, ofLex_toLex]
  · rw [compare_neg e, compare_neg m, compare_cast, Ordering.swap_then]
    rfl
  · rw [compare_cast]
    rfl

private theorem compare_eq_none_iff {x y : UnpackedFloat} : x.compare y = none ↔ x = .notANumber ∨ y = .notANumber := by
  by_cases left : x = .notANumber
  · subst left
    exact iff_of_true (by cases y <;> rfl) (.inl rfl)
  · by_cases right : y = .notANumber
    · subst right
      exact iff_of_true (by cases x <;> rfl) (.inr rfl)
    · rw [compare_eq left right]
      exact iff_of_false nofun (by rintro (same | same) <;> contradiction)

private theorem compare_eq_some_iff {x y : UnpackedFloat} {order : Ordering} : x.compare y = some order ↔
    x ≠ .notANumber ∧ y ≠ .notANumber ∧ compare (rank x) (rank y) = order := by
  constructor
  · intro compared
    have defined : ¬ (x = .notANumber ∨ y = .notANumber) := by
      rw [← compare_eq_none_iff, compared]
      nofun
    rw [not_or] at defined
    rw [compare_eq defined.1 defined.2, Option.some.injEq] at compared
    exact ⟨defined.1, defined.2, compared⟩
  · rintro ⟨left, right, rfl⟩
    exact compare_eq left right

private theorem lt_iff {x y : Float} : x < y ↔ x.toModel.unpack ≠ .notANumber ∧ y.toModel.unpack ≠ .notANumber ∧
    rank x.toModel.unpack < rank y.toModel.unpack := by
  have less : x < y ↔ (x.toModel.unpack.compare y.toModel.unpack == some .lt) = true := by
    exact ⟨fun less => of_decide_eq_true less, fun less => decide_eq_true less⟩
  rw [less, beq_iff_eq, compare_eq_some_iff, compare_lt_iff_lt]

private theorem beq_iff {x y : Float} : (x == y) = true ↔ x.toModel.unpack ≠ .notANumber ∧ y.toModel.unpack ≠ .notANumber ∧
    rank x.toModel.unpack = rank y.toModel.unpack := by
  show (x.toModel.unpack.compare y.toModel.unpack == some .eq) = true ↔ _
  rw [beq_iff_eq, compare_eq_some_iff, compare_eq_iff_eq]

private theorem le_iff {x y : Float} : x ≤ y ↔ x.toModel.unpack ≠ .notANumber ∧ y.toModel.unpack ≠ .notANumber ∧
    rank x.toModel.unpack ≤ rank y.toModel.unpack := by
  have le : x ≤ y ↔ ((x.toModel.unpack.compare y.toModel.unpack).any (·.isLE)) = true := by
    exact ⟨fun le => of_decide_eq_true le, fun le => decide_eq_true le⟩
  rw [le, Option.any_eq_true]
  constructor
  · rintro ⟨order, compared, le⟩
    obtain ⟨left, right, rfl⟩ := compare_eq_some_iff.mp compared
    exact ⟨left, right, compare_le_iff_le.mp (Ordering.isLE_iff_ne_gt.mp le)⟩
  · rintro ⟨left, right, le⟩
    exact ⟨_, compare_eq left right, Ordering.isLE_iff_ne_gt.mpr (compare_le_iff_le.mpr le)⟩

private theorem isUndefined_eq_false_iff {x : Float} : Scalar.isUndefined x = false ↔ x.toModel.unpack ≠ .notANumber := by
  have same : (x == x) = true ↔ x.toModel.unpack ≠ .notANumber := by
    rw [beq_iff]
    exact ⟨fun h => h.1, fun h => ⟨h, h, rfl⟩⟩
  show (!(x == x)) = false ↔ _
  rw [Bool.not_eq_false', same]

private theorem ne_notANumber_of_isFinite {x : UnpackedFloat} (finite : x.isFinite = true) : x ≠ .notANumber := by
  rintro rfl
  cases finite

/-- Packing may make a number infinite, but never undefined. -/
private theorem unpack_pack_ne {x : UnpackedFloat} (defined : x ≠ .notANumber) :
    (Float.Model.pack x).unpack ≠ .notANumber := by
  -- only a word whose exponent is full and whose mantissa is not empty is undefined
  have of_parts {b : BitVec Format.binary64.numBits} (parts : unpackExponent b = -1#_ → unpackMantissa b = 0#_) :
      UnpackedFloat.unpack Format.binary64 b ≠ .notANumber := by
    unfold UnpackedFloat.unpack
    simp only
    split
    · next full => rw [if_pos (parts full)]; nofun
    · split
      · split <;> nofun
      · nofun
  refine of_parts ?_
  show unpackExponent (UnpackedFloat.pack Format.binary64 x) = _ → unpackMantissa (UnpackedFloat.pack Format.binary64 x) = _
  cases x with
  | notANumber => exact absurd rfl defined
  | infinity sign => exact fun _ => unpackMantissa_packComponents
  | zero sign => exact fun _ => unpackMantissa_packComponents
  | finite sign m e positive =>
    unfold UnpackedFloat.pack
    simp only
    split
    · exact fun _ => unpackMantissa_packComponents
    · next bounded =>
      split
      · rw [unpackExponent_packComponents]
        intro full
        have same := congrArg BitVec.toNat full
        rw [BitVec.toNat_ofNat, Nat.mod_eq_of_lt (by omega)] at same
        exact absurd same (by
          show _ ≠ 2047
          have : (2 : ℕ) ^ Format.binary64.exponentBits = 2048 := by decide
          omega)
      · rw [unpackExponent_packComponents]
        intro full
        exact absurd full (by decide)

private theorem add_ne_notANumber {x y : UnpackedFloat} (defined : x ≠ .notANumber) (finite : y.isFinite = true) :
    UnpackedFloat.add Format.binary64 x y ≠ .notANumber := by
  have normalized (m : ℤ) (e : ℤ) : UnpackedFloat.normalize Format.binary64 m e .positive ≠ .notANumber := by
    unfold UnpackedFloat.normalize UnpackedFloat.round roundWithAccuracy
    simp only
    split
    · split <;> nofun
    · nofun
    · split <;> nofun
  cases y with
  | notANumber => cases finite
  | infinity => cases finite
  | zero t =>
    cases x with
    | notANumber => exact absurd rfl defined
    | zero s => cases s <;> cases t <;> nofun
    | _ => nofun
  | finite t n f _ =>
    cases x with
    | notANumber => exact absurd rfl defined
    | finite s m e _ => exact normalized _ _
    | _ => nofun

/-- Adding zero changes at most the sign of a zero. -/
private theorem add_zero_cases (x : Float) : x + 0 = x ∨ x.toModel.unpack = .zero .negative ∧ x + 0 = 0 := by
  have sum : x + 0 = Float.ofModel (Float.Model.pack (UnpackedFloat.add Format.binary64 x.toModel.unpack (.zero .positive))) := rfl
  by_cases minus : x.toModel.unpack = .zero .negative
  · refine .inr ⟨minus, ?_⟩
    rw [sum, minus]
    rfl
  · have same : UnpackedFloat.add Format.binary64 x.toModel.unpack (.zero .positive) = x.toModel.unpack := by
      cases unpacked : x.toModel.unpack with
      | zero s =>
        cases s with
        | positive => rfl
        | negative => exact absurd unpacked minus
      | _ => rfl
    left
    rw [sum, same, pack_unpack_model]

end Binary64

instance : Scalar.Ordered Float where
  lt_trans first second := by
    obtain ⟨left, _, below⟩ := Binary64.lt_iff.mp first
    obtain ⟨_, right, above⟩ := Binary64.lt_iff.mp second
    exact Binary64.lt_iff.mpr ⟨left, right, below.trans above⟩
  le_of_not_lt left right above := by
    have left := Binary64.ne_notANumber_of_isFinite left
    have right := Binary64.ne_notANumber_of_isFinite right
    refine Binary64.le_iff.mpr ⟨right, left, ?_⟩
    rw [Binary64.lt_iff] at above
    by_contra less
    exact above ⟨left, right, not_le.mp less⟩
  isFinite_zero := by decide +kernel
  isFinite_add_zero {x} finite := by
    rcases Binary64.add_zero_cases x with same | ⟨_, same⟩
    · exact (congrArg Float.isFinite same).trans finite
    · exact (congrArg Float.isFinite same).trans (by decide +kernel)
  add_zero_beq {x} defined := by
    rw [Binary64.isUndefined_eq_false_iff] at defined
    rcases Binary64.add_zero_cases x with same | ⟨minus, same⟩
    · exact Binary64.beq_iff.mpr (by rw [show x + 0 = x from same]; exact ⟨defined, defined, rfl⟩)
    · exact Binary64.beq_iff.mpr (by
        rw [show x + 0 = 0 from same]
        exact ⟨nofun, defined, by rw [minus]; rfl⟩)
  isUndefined_infinity := by decide +kernel
  isUndefined_of_isFinite finite :=
    Binary64.isUndefined_eq_false_iff.mpr (Binary64.ne_notANumber_of_isFinite finite)
  isUndefined_add defined finite := by
    rw [Binary64.isUndefined_eq_false_iff] at defined ⊢
    exact Binary64.unpack_pack_ne (Binary64.add_ne_notANumber defined finite)

end Seam
