import Seam.Loop.Run
import Seam.Number.Binary64
import Seam.Proofs.Exact

/-!
What the theory asks of the numbers where it does not need them to be exact: no number is
less than itself, the mark of an unknown value is no finite number, and a sum of lengths
stays what it is when zero is added (`Scalar.Lawful`). Exact numbers are lawful, and so
are those of 64 bits, whose sums of roots never are the negative zero.
-/
namespace Seam

/-- Numbers with the laws that hold whether or not they are rounded. -/
class Scalar.Lawful (α : Type) [Scalar α] : Prop where
  lt_irrefl (x : α) : ¬ x < x
  isFinite_infinity : isFinite (infinity : α) = false
  /-- Standing still is no way. -/
  not_leastLength_lt : ¬ Segment.leastLength < (0 : α)
  /-- Lengths are roots. -/
  sum_add_zero (xs : List α) (roots : ∀ x ∈ xs, x = 0 ∨ ∃ y, x = sqrt y) : sum xs + 0 = sum xs

instance : Scalar.Lawful Exact where
  lt_irrefl := Exact.lt_irrefl
  isFinite_infinity := rfl
  not_leastLength_lt := by
    rw [Segment.leastLength, Exact.ofPlaces_billionth, Exact.zero_eq, Exact.real_lt]
    norm_num
  sum_add_zero xs _ := by rw [Exact.zero_eq, Exact.add_zero]

namespace Binary64
open Float.Model (UnpackedFloat Format)
open Float.Model.UnpackedFloat

private theorem toBitVec_ofBitVec (b : BitVec 1) : (Sign.ofBitVec b).toBitVec = b := by
  obtain ⟨⟨n, bound⟩⟩ := b
  have bit : n = 0 ∨ n = 1 := by omega
  rcases bit with rfl | rfl <;> rfl

theorem unpackSign_packComponents {spec : Format} {sign : Sign} {exponent mantissa} :
    unpackSign (packComponents spec sign exponent mantissa) = sign.toBitVec := by
  ext i hi
  obtain rfl : i = 0 := by omega
  simp [unpackSign, packComponents, BitVec.getLsbD_append, BitVec.getLsbD_eq_getElem, BitVec.getElem_append]

private theorem packComponents_unpack {spec : Format} (b : BitVec spec.numBits) :
    packComponents spec (Sign.ofBitVec (unpackSign b)) (unpackExponent b) (unpackMantissa b) = b := by
  rw [packComponents, toBitVec_ofBitVec]
  have mantissa_pos := spec.hm
  have exponent_pos := spec.he
  refine BitVec.eq_of_getLsbD_eq fun i bound => ?_
  have bound : i < 1 + spec.exponentBits + spec.mantissaBitsWithoutImplicit := bound
  simp only [unpackSign, unpackExponent, unpackMantissa, BitVec.getLsbD_append, BitVec.getLsbD_cast, BitVec.getLsbD_extractLsb]
  -- the place is one of the mantissa, of the exponent or the sign
  split
  · have inside : i ≤ spec.mantissaBitsWithoutImplicit - 1 := by omega
    simp [inside]
  · split
    · have place : spec.mantissaBitsWithoutImplicit + (i - spec.mantissaBitsWithoutImplicit) = i := by omega
      simp [place]
      omega
    · have place : spec.mantissaBitsWithoutImplicit + spec.exponentBits +
          (i - spec.mantissaBitsWithoutImplicit - spec.exponentBits) = i := by omega
      simp [place]
      omega

theorem pack_small {sign : Sign} {m : ℕ} {e : ℤ} {positive : 0 < m} (small : m < 2 ^ 52) (low : e = -1074) :
    pack Format.binary64 (.finite sign m e positive) = packComponents Format.binary64 sign 0#_ (BitVec.ofNat 52 m) := by
  subst low
  have digits : m.log2 < 52 := (Nat.log2_lt (by omega)).mpr small
  have other : ¬ m.log2 + 1 = Format.binary64.mantissaBits := by
    show ¬ m.log2 + 1 = 53
    omega
  have biased : ¬ 2 ^ Format.binary64.exponentBits ≤
      ((-1074 : ℤ) + Format.binary64.exponentBias + Format.binary64.mantissaBitsWithoutImplicit).toNat + 1 := by decide
  simp only [pack, if_neg biased, if_neg other]

theorem pack_large {sign : Sign} {m k : ℕ} {e : ℤ} {positive : 0 < m} (large : 2 ^ 52 ≤ m) (small : m < 2 ^ 53)
    (exponent : e = k - 1075) (bounded : k < 2047) :
    pack Format.binary64 (.finite sign m e positive) =
      packComponents Format.binary64 sign (BitVec.ofNat 11 k) (BitVec.ofNat 52 m) := by
  subst exponent
  have digits : m.log2 = 52 := by
    rw [Nat.log2_eq_iff (by omega)]
    exact ⟨large, small⟩
  have full : m.log2 + 1 = Format.binary64.mantissaBits := by
    rw [digits]
    rfl
  have same : ((k : ℤ) - 1075 + Format.binary64.exponentBias + Format.binary64.mantissaBitsWithoutImplicit).toNat = k := by
    show ((k : ℤ) - 1075 + (1023 : ℕ) + (52 : ℕ)).toNat = k
    omega
  have biased : ¬ 2 ^ Format.binary64.exponentBits ≤ k + 1 := by
    show ¬ 2 ^ 11 ≤ k + 1
    omega
  simp only [pack, same, if_neg biased, if_pos full]

/-- The leading bit is not stored. -/
private theorem pack_append {sign : Sign} {exponent : BitVec 11} {mantissa : BitVec 52} {positive : 0 < (1#1 ++ mantissa).toNat}
    (lower : exponent ≠ -1#11) :
    pack Format.binary64 (.finite sign (1#1 ++ mantissa).toNat (exponent.toNat - 1075) positive) =
      packComponents Format.binary64 sign exponent mantissa := by
  have small := mantissa.isLt
  have value : (1#1 ++ mantissa).toNat = 2 ^ 52 + mantissa.toNat := by
    rw [BitVec.toNat_append, ← Nat.shiftLeft_add_eq_or_of_lt small]
    rfl
  have bounded : exponent.toNat < 2047 := by
    have bound := exponent.isLt
    have other : exponent.toNat ≠ 2047 := fun same => lower (BitVec.eq_of_toNat_eq same)
    omega
  have low : BitVec.ofNat 52 (1#1 ++ mantissa).toNat = mantissa := by
    refine BitVec.eq_of_toNat_eq ?_
    rw [value, BitVec.toNat_ofNat, Nat.add_mod_left, Nat.mod_eq_of_lt small]
  rw [pack_large (by rw [value]; exact Nat.le_add_right ..) (by rw [value]; omega) rfl bounded, low, BitVec.ofNat_toNat,
    BitVec.setWidth_eq]

private theorem pack_unpack (b : BitVec 64) (valid : Format.binary64.Valid b) :
    pack Format.binary64 (UnpackedFloat.unpack Format.binary64 b) = b := by
  have whole := @packComponents_unpack Format.binary64 b
  unfold UnpackedFloat.unpack
  simp only
  generalize @unpackSign Format.binary64 b = sign at whole ⊢
  split
  case isTrue top =>
    split
    case isTrue none =>
      rw [top, none] at whole
      exact whole
    case isFalse some => exact (valid.eq_packedNaN top some).symm
  case isFalse lower =>
    have mantissa := (@unpackMantissa Format.binary64 b).isLt
    change _ < 2 ^ 52 at mantissa
    split
    case isTrue bottom =>
      split
      case isTrue none =>
        rw [bottom, none] at whole
        exact whole
      case isFalse some =>
        rw [bottom] at whole ⊢
        rw [pack_small mantissa (by decide), BitVec.ofNat_toNat, BitVec.setWidth_eq]
        exact whole
    case isFalse => exact (pack_append lower).trans whole

theorem pack_unpack_model (x : Float.Model) : Float.Model.pack x.unpack = x := by
  obtain ⟨bits, valid⟩ := x
  rw [Float.Model.mk.injEq]
  exact congrArg UInt64.ofBitVec (pack_unpack _ valid)

/-- The number is undefined or written without a minus. -/
def IsPlus : UnpackedFloat → Prop
  | .notANumber => True
  | .infinity sign | .zero sign | .finite sign _ _ _ => sign = .positive

/-- The number is undefined, written without a minus, or zero. -/
def IsRoot (x : UnpackedFloat) : Prop := IsPlus x ∨ x = .zero .negative

private theorem isPlus_unpack {b : BitVec 64} (plus : @unpackSign Format.binary64 b = 0#1) :
    IsPlus (UnpackedFloat.unpack Format.binary64 b) := by
  unfold UnpackedFloat.unpack
  simp only [plus]
  split
  · split
    · rfl
    · trivial
  · split
    · split <;> rfl
    · rfl

private theorem isPlus_pack {x : UnpackedFloat} (plus : IsPlus x) : IsPlus (Float.Model.pack x).unpack := by
  refine isPlus_unpack ?_
  show unpackSign (UnpackedFloat.pack Format.binary64 x) = _
  cases x with
  | notANumber => exact unpackSign_packComponents
  | infinity sign => cases plus; exact unpackSign_packComponents
  | zero sign => cases plus; exact unpackSign_packComponents
  | finite sign m e positive =>
    cases plus
    unfold UnpackedFloat.pack
    simp only
    split
    · exact unpackSign_packComponents
    · split <;> exact unpackSign_packComponents

private theorem isPlus_roundWithAccuracy (m : ℕ) (e : ℤ) (accuracy : Accuracy) :
    IsPlus (roundWithAccuracy Format.binary64 .positive m e accuracy) := by
  unfold roundWithAccuracy
  simp only
  split <;> rfl

private theorem isPlus_normalize {mantissa : ℤ} (nonneg : 0 ≤ mantissa) (e : ℤ) :
    IsPlus (UnpackedFloat.normalize Format.binary64 mantissa e .positive) := by
  unfold UnpackedFloat.normalize
  split
  · next negative =>
    rw [compare_lt_iff_lt] at negative
    omega
  · rfl
  · exact isPlus_roundWithAccuracy ..

/-- Numbers without a minus have a sum without one. -/
private theorem isPlus_add {x y : UnpackedFloat} (plus : IsPlus x) (root : IsRoot y) :
    IsPlus (UnpackedFloat.add Format.binary64 x y) := by
  rcases root with plus' | rfl
  · cases x with
    | notANumber => cases y <;> trivial
    | infinity sign =>
      cases plus
      cases y <;> first | trivial | (cases plus'; rfl)
    | zero sign =>
      cases plus
      cases y <;> first | trivial | (cases plus'; rfl)
    | finite sign m e positive =>
      cases plus
      cases y with
      | finite sign' m' e' positive' =>
        cases plus'
        exact isPlus_normalize (Int.add_nonneg (Int.natCast_nonneg _) (Int.natCast_nonneg _)) _
      | notANumber => trivial
      | infinity => cases plus'; rfl
      | zero => rfl
  · cases x with
    | zero sign => cases plus; rfl
    | notANumber => trivial
    | infinity sign => exact plus
    | finite sign m e positive => exact plus

/-- Zero behind a number without a minus changes nothing. -/
private theorem add_zero_of_isPlus {x : UnpackedFloat} (plus : IsPlus x) :
    UnpackedFloat.add Format.binary64 x (.zero .positive) = x := by
  cases x with
  | zero sign => cases plus; rfl
  | _ => rfl

private theorem isRoot_sqrt (x : UnpackedFloat) : IsRoot (UnpackedFloat.sqrt Format.binary64 x) := by
  cases x with
  | notANumber => exact .inl trivial
  | infinity sign => cases sign <;> exact .inl (by trivial)
  | zero sign =>
    cases sign
    · exact .inr rfl
    · exact .inl rfl
  | finite sign m e positive =>
    cases sign
    · exact .inl trivial
    · exact .inl (isPlus_roundWithAccuracy ..)

private theorem isRoot_pack {x : UnpackedFloat} (root : IsRoot x) : IsRoot (Float.Model.pack x).unpack := by
  rcases root with plus | rfl
  · exact .inl (isPlus_pack plus)
  · exact .inr rfl

private theorem unpack_zero : (0 : Float).toModel.unpack = .zero .positive := rfl

private theorem isPlus_sum (xs : List Float) (roots : ∀ x ∈ xs, x = 0 ∨ ∃ y, x = Scalar.sqrt y) :
    IsPlus (Scalar.sum xs).toModel.unpack := by
  have from_start (a : Float) (plus : IsPlus a.toModel.unpack) : IsPlus (xs.foldl (· + ·) a).toModel.unpack := by
    induction xs generalizing a with
    | nil => exact plus
    | cons x xs ih =>
      obtain ⟨here, others⟩ := List.forall_mem_cons.mp roots
      have root : IsRoot x.toModel.unpack := by
        rcases here with rfl | ⟨y, rfl⟩
        · exact .inl rfl
        · exact isRoot_pack (isRoot_sqrt _)
      exact ih others _ (isPlus_pack (isPlus_add plus root))
  exact from_start _ rfl

private theorem compare_self (x : UnpackedFloat) : x.compare x ≠ some .lt := by
  cases x with
  | notANumber =>
    intro less
    cases less
  | infinity sign => cases sign <;> simp [UnpackedFloat.compare]
  | zero sign =>
    intro less
    cases less
  | finite sign m e positive => cases sign <;> simp [UnpackedFloat.compare]

end Binary64

instance : Scalar.Lawful Float where
  lt_irrefl x less := by
    have less : decide (x.toModel < x.toModel) = true := less
    have ordered : (x.toModel.unpack.compare x.toModel.unpack == some .lt) = true := of_decide_eq_true less
    exact Binary64.compare_self _ (eq_of_beq ordered)
  isFinite_infinity := by decide +kernel
  not_leastLength_lt := by decide +kernel
  sum_add_zero xs roots := by
    have plus := Binary64.isPlus_sum xs roots
    show Float.ofModel (Float.Model.pack (Float.Model.UnpackedFloat.add _ _ _)) = _
    rw [Binary64.unpack_zero, Binary64.add_zero_of_isPlus plus, Binary64.pack_unpack_model]

end Seam
