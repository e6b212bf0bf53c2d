import Seam.Proofs.Lawful

/-!
The finite numbers of 64 bits as reals. A word holds `± m · 2 ^ e` with a whole factor of
at most 53 bits and an exponent from -1074 to 971, and where the exponent is not the least,
the factor has all its bits (`Binary64.holds_unpack`). A number of that form is the one that
its word is unpacked to (`Binary64.unpack_pack`), so a computed number that is in this form
is not changed when it is stored.
-/
namespace Seam.Binary64

open Float.Model (UnpackedFloat Format)
open Float.Model.UnpackedFloat

/-- The factor and the exponent are those of a number that is rounded to 53 bits: the factor
    has them all, or the exponent is the least. -/
structure Fits (m : ℕ) (e : ℤ) : Prop where
  small : m < 2 ^ 53
  low : -1074 ≤ e
  full : 2 ^ 52 ≤ m ∨ e = -1074

/-- The number is finite and in the form of a word. -/
inductive Holds : UnpackedFloat → Prop
  | zero (s : Sign) : Holds (.zero s)
  | finite (s : Sign) {m : ℕ} {e : ℤ} (positive : 0 < m) (fits : Fits m e) (bounded : e ≤ 971) :
      Holds (.finite s m e positive)

/-- The real `m · 2 ^ e`. -/
noncomputable def scaled (m : ℕ) (e : ℤ) : ℝ := m * ((2 : ℕ) : ℝ) ^ e

theorem scaled_eq (m : ℕ) (e : ℤ) : scaled m e = m * (2 : ℝ) ^ e := by rw [scaled, Nat.cast_ofNat]

/-- The number without its sign, as a real; zero for what is no finite number. -/
noncomputable def magnitude : UnpackedFloat → ℝ
  | .finite _ m e _ => scaled m e
  | _ => 0

/-- Is the number written with a minus? -/
def negative : UnpackedFloat → Bool
  | .finite s _ _ _ | .zero s | .infinity s => isMinus s
  | .notANumber => false

theorem magnitude_nonneg (x : UnpackedFloat) : 0 ≤ magnitude x := by
  cases x with
  | finite s m e positive =>
    show 0 ≤ scaled m e
    rw [scaled_eq]
    positivity
  | _ => exact le_refl 0

private theorem ofBitVec_toBitVec (s : Sign) : Sign.ofBitVec s.toBitVec = s := by cases s <;> rfl

/-- What a word is unpacked to, by its parts. -/
private theorem unpack_packComponents_of_normal (s : Sign) {k : ℕ} (low : 0 < k) (high : k < 2047) {m : ℕ} (large : 2 ^ 52 ≤ m)
    (small : m < 2 ^ 53) :
    UnpackedFloat.unpack Format.binary64 (packComponents Format.binary64 s (BitVec.ofNat 11 k) (BitVec.ofNat 52 m)) =
      .finite s m (k - 1075) (by omega) := by
  have exponent : (BitVec.ofNat 11 k).toNat = k := by rw [BitVec.toNat_ofNat, Nat.mod_eq_of_lt (by omega)]
  have not_full : BitVec.ofNat 11 k ≠ -1#11 := by
    intro same
    have := congrArg BitVec.toNat same
    rw [exponent, show (-1#11).toNat = 2047 from rfl] at this
    omega
  have not_empty : BitVec.ofNat 11 k ≠ 0#11 := by
    intro same
    have := congrArg BitVec.toNat same
    rw [exponent, show (0#11).toNat = 0 from rfl] at this
    omega
  have mantissa : (BitVec.ofNat 52 m).toNat = m - 2 ^ 52 := by
    rw [BitVec.toNat_ofNat, Nat.mod_eq_sub_mod large, Nat.mod_eq_of_lt (by omega)]
  have whole : (1#1 ++ BitVec.ofNat 52 m).toNat = m := by
    rw [BitVec.toNat_append, ← Nat.shiftLeft_add_eq_or_of_lt (BitVec.ofNat 52 m).isLt, mantissa]
    show 1 <<< 52 + (m - 2 ^ 52) = m
    omega
  unfold UnpackedFloat.unpack
  simp only [unpackSign_packComponents, unpackExponent_packComponents, unpackMantissa_packComponents, ofBitVec_toBitVec]
  rw [if_neg not_full, if_neg not_empty]
  simp only [UnpackedFloat.finite.injEq, true_and, whole, exponent]
  rfl

private theorem unpack_packComponents_of_subnormal (s : Sign) {m : ℕ} (positive : 0 < m) (small : m < 2 ^ 52) :
    UnpackedFloat.unpack Format.binary64 (packComponents Format.binary64 s 0#11 (BitVec.ofNat 52 m)) =
      .finite s m (-1074) positive := by
  have mantissa : (BitVec.ofNat 52 m).toNat = m := by rw [BitVec.toNat_ofNat, Nat.mod_eq_of_lt small]
  have some : BitVec.ofNat 52 m ≠ 0#52 := by
    intro none
    have := congrArg BitVec.toNat none
    rw [mantissa, show (0#52).toNat = 0 from rfl] at this
    omega
  unfold UnpackedFloat.unpack
  simp only [unpackSign_packComponents, unpackExponent_packComponents, unpackMantissa_packComponents, ofBitVec_toBitVec]
  rw [if_neg (by decide), if_pos trivial, dif_neg some]
  simp only [UnpackedFloat.finite.injEq, true_and, mantissa]
  rfl

/-- A number that a word can hold is what its word is unpacked to. -/
theorem unpack_pack {x : UnpackedFloat} (holds : Holds x) : (Float.Model.pack x).unpack = x := by
  show UnpackedFloat.unpack Format.binary64 (UnpackedFloat.pack Format.binary64 x) = x
  cases holds with
  | zero s => cases s <;> rfl
  | @finite s m e positive fits bounded =>
    obtain ⟨small, low, full⟩ := fits
    by_cases large : 2 ^ 52 ≤ m
    · obtain ⟨k, same⟩ : ∃ k : ℕ, e = k - 1075 := ⟨(e + 1075).toNat, by omega⟩
      rw [pack_large large small same (by omega), unpack_packComponents_of_normal s (by omega) (by omega) large small,
        UnpackedFloat.finite.injEq]
      exact ⟨rfl, rfl, same.symm⟩
    · obtain rfl : e = -1074 := full.resolve_left large
      rw [pack_small (not_le.mp large) rfl, unpack_packComponents_of_subnormal s positive (not_le.mp large)]

private theorem holds_of_isFinite {b : BitVec 64} (finite : (UnpackedFloat.unpack Format.binary64 b).isFinite = true) :
    Holds (UnpackedFloat.unpack Format.binary64 b) := by
  have mantissa := (@unpackMantissa Format.binary64 b).isLt
  change _ < 2 ^ 52 at mantissa
  have bound := (@unpackExponent Format.binary64 b).isLt
  change _ < 2 ^ 11 at bound
  unfold UnpackedFloat.unpack at finite ⊢
  simp only at finite ⊢
  split
  case isTrue full =>
    rw [if_pos full] at finite
    split at finite <;> cases finite
  case isFalse other =>
    split
    case isTrue none =>
      split
      case isTrue => exact .zero _
      case isFalse some =>
        have exponent : ((@unpackExponent Format.binary64 b).toNat : ℤ) = 0 := by rw [none]; rfl
        refine .finite _ _ ⟨by omega, ?_, .inr ?_⟩ ?_ <;> rw [exponent] <;> decide
    case isFalse some =>
      have value : (1#1 ++ @unpackMantissa Format.binary64 b).toNat = 2 ^ 52 + (@unpackMantissa Format.binary64 b).toNat := by
        rw [BitVec.toNat_append, ← Nat.shiftLeft_add_eq_or_of_lt mantissa]
        rfl
      have low : (@unpackExponent Format.binary64 b).toNat ≠ 0 := fun same => some (BitVec.eq_of_toNat_eq same)
      have high : (@unpackExponent Format.binary64 b).toNat ≠ 2047 := fun same => other (BitVec.eq_of_toNat_eq same)
      have exponent : ((@unpackExponent Format.binary64 b).toNat : ℤ) -
          (Format.binary64.exponentBias + Format.binary64.mantissaBitsWithoutImplicit) =
            (@unpackExponent Format.binary64 b).toNat - 1075 := rfl
      refine .finite _ _ ⟨?_, ?_, .inl ?_⟩ ?_
      · rw [value]
        omega
      · rw [exponent]
        omega
      · rw [value]
        exact Nat.le_add_right ..
      · rw [exponent]
        omega

/-- The word of a finite number holds it in this form. -/
theorem holds_unpack {x : Float} (finite : Scalar.isFinite x = true) : Holds x.toModel.unpack :=
  holds_of_isFinite finite

end Seam.Binary64
