import Mathlib
import Seam.Command.Basic

/-!
How tokens name instructions. A number in digits may have zeros in front and is otherwise
written in one way (`Decimal.Counts.exists_zeros`). A token names a tracked instruction if it
is its letter in either case with such numbers behind it (`Code.ofToken?_eq_some_iff`), and
numbers that no tracked instruction has are named by no token of one.
-/
namespace Seam

namespace Decimal

/-- The text is one digit or more, and the digits denote the number. -/
structure Counts (ds : List Char) (n : ℕ) : Prop where
  ne_nil : ds ≠ []
  digits : ∀ c ∈ ds, c.isDigit = true
  value : ofDigits ds = n

theorem ofDigits_append_singleton (ds : List Char) (c : Char) :
    ofDigits (ds ++ [c]) = 10 * ofDigits ds + (c.toNat - '0'.toNat) := by
  simp [ofDigits, Nat.ofDigitChars_append, Nat.ofDigitChars_cons]

private theorem digitChar_of_isDigit {c : Char} (digit : c.isDigit = true) :
    c.toNat - '0'.toNat < 10 ∧ Nat.digitChar (c.toNat - '0'.toNat) = c := by
  rw [Char.isDigit_iff_toNat] at digit
  have zero : '0'.toNat = 48 := rfl
  have nine : '9'.toNat = 57 := rfl
  refine ⟨by omega, Char.toNat_inj.mp ?_⟩
  rw [Nat.toNat_digitChar_of_lt_ten (by omega)]
  omega

/-- Digits of a number are those of its shortest text with zeros in front. -/
theorem Counts.exists_zeros {ds : List Char} {n : ℕ} (counts : Counts ds n) :
    ∃ z, ds = List.replicate z '0' ++ Nat.toDigits 10 n := by
  induction ds using List.reverseRecOn generalizing n with
  | nil => exact absurd rfl counts.ne_nil
  | append_singleton es d ih =>
    obtain ⟨small, char⟩ := digitChar_of_isDigit (counts.digits d (by simp))
    have value := counts.value
    rw [ofDigits_append_singleton] at value
    generalize last : d.toNat - '0'.toNat = v at small char value
    have single : Nat.toDigits 10 v = [d] := by rw [Nat.toDigits_of_lt_base small, char]
    by_cases none : es = []
    · subst none
      refine ⟨0, ?_⟩
      have same : n = v := by simpa [ofDigits] using value.symm
      rw [same, single]
      rfl
    · obtain ⟨z, zeros⟩ := ih (n := ofDigits es) ⟨none, fun c mem => counts.digits c (by simp [mem]), rfl⟩
      by_cases nothing : ofDigits es = 0
      · -- the digits in front are zeros, the last one of which stands in no shortest text
        refine ⟨z + 1, ?_⟩
        have same : n = v := by omega
        rw [nothing, Nat.toDigits_zero, ← List.replicate_succ'] at zeros
        rw [same, single, zeros]
      · refine ⟨z, ?_⟩
        have joined := Nat.toDigits_append_toDigits (b := 10) (by omega) (Nat.pos_of_ne_zero nothing) small
        rw [← value, ← joined, single, ← List.append_assoc, ← zeros]

theorem Counts.of_zeros (z n : ℕ) : Counts (List.replicate z '0' ++ Nat.toDigits 10 n) n where
  ne_nil none := Nat.toDigits_ne_nil (List.append_eq_nil_iff.mp none).2
  digits c mem := by
    rcases List.mem_append.mp mem with zero | digit
    · rw [List.eq_of_mem_replicate zero]
      rfl
    · exact Nat.isDigit_of_mem_toDigits (by omega) (by omega) digit
  value := by
    rw [ofDigits, Nat.ofDigitChars_append, Nat.ofDigitChars_replicate_zero]
    simp

end Decimal

open Decimal (Counts)

namespace Code

private theorem readNumber?_eq_some_iff {ds : List Char} {n : ℕ} :
    readNumber? ds = some n ↔ Counts ds n ∧ n < 2 ^ 32 := by
  unfold readNumber?
  constructor
  · intro read
    split at read
    · cases read
    · next fits =>
      simp only [Bool.or_eq_true, not_or, decide_eq_true_eq, Bool.not_eq_true, Bool.not_eq_false', List.all_eq_true,
        List.isEmpty_eq_false_iff] at fits
      cases read
      exact ⟨⟨fits.1.1, fits.1.2, rfl⟩, not_le.mp fits.2⟩
  · rintro ⟨⟨some, digits, rfl⟩, small⟩
    have fits : ¬ Nat.pow 2 32 ≤ Decimal.ofDigits ds := not_le.mpr small
    have digits : ds.all Char.isDigit = true := List.all_eq_true.mpr digits
    simp [some, digits, fits]

/-- The token is the letter in either case and digits of a number, and where there is a second number, a point and
    digits of that behind them. -/
def Spells (token : List Char) (letter : Char) (major : ℕ) (minor : Option ℕ) : Prop :=
  ∃ l whole, l.toUpper = letter ∧ Counts whole major ∧
    match minor with
    | none => token = l :: whole
    | some k => ∃ places, Counts places k ∧ token = l :: (whole ++ '.' :: places)

/-- The letter of an instruction, its number and the number behind its point. -/
def numbers : Code → Char × ℕ × Option ℕ
  | .rapidMove => ('G', 0, none)
  | .linearMove => ('G', 1, none)
  | .clockwiseArc => ('G', 2, none)
  | .counterclockwiseArc => ('G', 3, none)
  | .home => ('G', 28, none)
  | .absolutePositioning => ('G', 90, none)
  | .relativePositioning => ('G', 91, none)
  | .setPosition => ('G', 92, none)
  | .resetPosition => ('G', 92, some 1)
  | .absoluteExtrusion => ('M', 82, none)
  | .relativeExtrusion => ('M', 83, none)

/-- The token names the instruction, with any zeros in front of its numbers. -/
def Names (token : List Char) (code : Code) : Prop := Spells token code.numbers.1 code.numbers.2.1 code.numbers.2.2

private theorem ofNumbers?_eq_some_iff {letter : Char} {major : ℕ} {minor : Option ℕ} {code : Code} :
    ofNumbers? letter major minor = some code ↔ code.numbers = (letter, major, minor) := by
  constructor
  · intro named
    unfold ofNumbers? at named
    split at named <;> first | (cases named; rfl) | cases named
  · intro same
    cases code <;> cases same <;> rfl

/-- The numbers of a token are those before its first point and behind it. -/
private theorem spells_cons_iff {l letter : Char} {number : List Char} {major : ℕ} {minor : Option ℕ} :
    Spells (l :: number) letter major minor ↔ l.toUpper = letter ∧ Counts (number.takeWhile (· != '.')) major ∧
      match minor with
      | none => number.dropWhile (· != '.') = []
      | some k => ∃ places, Counts places k ∧ number.dropWhile (· != '.') = '.' :: places := by
  have pointless {ds : List Char} {n : ℕ} (counts : Counts ds n) : ∀ c ∈ ds, (c != '.') = true := by
    intro c mem
    refine bne_iff_ne.mpr fun point => ?_
    have digit := counts.digits c mem
    rw [point] at digit
    cases digit
  constructor
  · rintro ⟨l', whole, upper, counts, spelled⟩
    have front := pointless counts
    cases minor with
    | none =>
      cases spelled
      rw [List.takeWhile_eq_self_iff.mpr front, List.dropWhile_eq_nil_iff.mpr front]
      exact ⟨upper, counts, rfl⟩
    | some k =>
      obtain ⟨places, counts', same⟩ := spelled
      cases same
      rw [List.takeWhile_append_of_pos front, List.dropWhile_append_of_pos front]
      refine ⟨upper, by simpa using counts, places, counts', by simp⟩
  · rintro ⟨upper, counts, behind⟩
    refine ⟨l, _, upper, counts, ?_⟩
    have whole := List.takeWhile_append_dropWhile (p := (· != '.')) (l := number)
    cases minor with
    | none =>
      simp only at behind ⊢
      rw [behind, List.append_nil] at whole
      rw [whole]
    | some k =>
      obtain ⟨places, counts', dropped⟩ := behind
      rw [dropped] at whole
      exact ⟨places, counts', by rw [whole]⟩

/-- A token is looked up by the numbers that it spells. -/
theorem ofToken?_of_spells {token : List Char} {letter : Char} {major : ℕ} {minor : Option ℕ}
    (spells : Spells token letter major minor) (small : major < 2 ^ 32) (small' : ∀ k ∈ minor, k < 2 ^ 32) :
    ofToken? token = ofNumbers? letter major minor := by
  cases token with
  | nil =>
    obtain ⟨_, _, _, _, same⟩ := spells
    cases minor with
    | none => cases same
    | some => obtain ⟨_, _, same⟩ := same; cases same
  | cons l number =>
    obtain ⟨rfl, counts, behind⟩ := spells_cons_iff.mp spells
    rw [ofToken?, readNumber?_eq_some_iff.mpr ⟨counts, small⟩]
    cases minor with
    | none => simp [behind]
    | some k =>
      obtain ⟨places, counts', dropped⟩ := behind
      simp [dropped, readNumber?_eq_some_iff.mpr ⟨counts', small' k rfl⟩]

theorem ofToken?_eq_some_iff {token : List Char} {code : Code} : ofToken? token = some code ↔ Names token code := by
  constructor
  · intro read
    cases token with
    | nil => cases read
    | cons l number =>
      obtain ⟨major, whole, rest⟩ := Option.bind_eq_some_iff.mp read
      have counts := (readNumber?_eq_some_iff.mp whole).1
      simp only at rest
      split at rest
      · next dropped =>
        rw [Names, ofNumbers?_eq_some_iff.mp rest, spells_cons_iff]
        exact ⟨rfl, counts, dropped⟩
      · next c behind dropped =>
        obtain ⟨minor, places, named⟩ := Option.bind_eq_some_iff.mp rest
        obtain ⟨k, digits, rfl⟩ := Option.map_eq_some_iff.mp places
        have point : c = '.' := by
          have first := List.head?_dropWhile_not (· != '.') number
          rw [dropped] at first
          simpa using first
        rw [Names, ofNumbers?_eq_some_iff.mp named, spells_cons_iff]
        exact ⟨rfl, counts, behind, (readNumber?_eq_some_iff.mp digits).1, by rw [dropped, point]⟩
  · intro names
    refine (ofToken?_of_spells names ?_ ?_).trans (ofNumbers?_eq_some_iff.mpr rfl) <;> cases code <;> simp [numbers]

end Code

end Seam
