import Seam.Program
import Seam.Proofs.Filament

/-!
What the words that are read hold. A word holds digits and nothing that names an
infinity or an undefined value (`Numeral.exists_finite`), so in exact arithmetic every
number of a line that was read is a real (`Command.isReal_of_readWords`).
-/
namespace Seam

theorem Text.toNat_of_isDecimalDigit {c : Char} (digit : isDecimalDigit c = true) : c.toNat < 58 ∨ 0x660 ≤ c.toNat := by
  obtain ⟨first, mem, within⟩ := List.any_eq_true.mp digit
  have apart : ∀ z ∈ zeros, z = 48 ∨ 0x660 ≤ z := by decide
  simp only [Bool.and_eq_true, decide_eq_true_eq] at within
  have := apart first mem
  omega

private theorem RawWord.toNat_of_isUnsigned {c : Char} {cs : List Char} (unsigned : isUnsigned (c :: cs) = true) :
    c.toNat < 58 ∨ 0x660 ≤ c.toNat := by
  by_cases digit : Text.isDecimalDigit c = true
  · exact Text.toNat_of_isDecimalDigit digit
  · rw [isUnsigned, List.takeWhile_cons_of_neg digit, List.dropWhile_cons_of_neg digit] at unsigned
    split at unsigned
    case h_1 none => cases none
    case h_2 point => rw [(List.cons.inj point).1]; exact .inl (by decide)
    case h_3 => cases unsigned

private theorem Text.toLower_of_toNat {c : Char} (other : c.toNat < 58 ∨ 0x660 ≤ c.toNat) : c.toLower = c := by
  refine dif_neg fun upper => ?_
  have low : 65 ≤ c.toNat := UInt32.le_iff_toNat_le.mp upper.1
  have high : c.toNat ≤ 90 := UInt32.le_iff_toNat_le.mp upper.2
  omega

private theorem RawWord.map_toLower_ne {cs letters : List Char} {l : Char} (unsigned : isUnsigned cs = true)
    (letter : 58 ≤ l.toNat ∧ l.toNat < 0x660) : cs.map Char.toLower ≠ l :: letters := by
  intro spelled
  obtain ⟨c, rest, rfl, lower, -⟩ := List.map_eq_cons_iff.mp spelled
  have other := toNat_of_isUnsigned unsigned
  rw [Text.toLower_of_toNat other] at lower
  subst lower
  omega

theorem Numeral.exists_finite {cs : List Char} {n : Numeral}
    (unsigned : RawWord.isUnsigned (Decimal.takeSign cs).2 = true) (read : read? cs = some n) : ∃ d, n = .finite d := by
  simp only [read?] at read
  split at read
  case h_1 d _ => exact ⟨d, (Option.some.inj read).symm⟩
  case h_2 =>
    simp only [Bool.or_eq_true, decide_eq_true_eq] at read
    have unnamed {l : Char} (letters : List Char) (letter : 58 ≤ l.toNat ∧ l.toNat < 0x660) :
        String.ofList ((Decimal.takeSign cs).2.map Char.toLower) ≠ String.ofList (l :: letters) :=
      fun same => RawWord.map_toLower_ne unsigned letter (String.ofList_injective same)
    rw [if_neg, if_neg] at read
    · cases read
    · exact unnamed _ (by decide)
    · exact not_or.mpr ⟨unnamed _ (by decide), unnamed _ (by decide)⟩

private theorem Command.isReal_of_readWord {code : Code} {line : Nat} {token : List Char} {letter : Char} {v : Exact}
    (read : readWord code line token = .ok (letter, v)) : v.IsReal := by
  rw [readWord] at read
  split at read
  case h_1 => cases read
  case h_2 word spelled =>
    split at read
    case h_2 => cases read
    case h_1 value number =>
      cases read
      cases token with
      | nil => cases spelled
      | cons l digits =>
        rw [RawWord.ofToken?] at spelled
        split_ifs at spelled with alpha bare unsigned
        · cases spelled
          exact ⟨0, (Option.some.inj number).symm.trans Exact.zero_eq⟩
        · cases spelled
          obtain ⟨n, found, rfl⟩ := Option.map_eq_some_iff.mp number
          obtain ⟨d, rfl⟩ := Numeral.exists_finite unsigned found
          exact ⟨d.value, rfl⟩

theorem Command.isReal_of_readWords {code : Code} {line : Nat} {tokens : List (List Char)} {words : Words Exact}
    (read : readWords code line tokens = .ok words) {letter : Char} {v : Exact} (found : words.get? letter = some v) :
    v.IsReal := by
  have empty (l : Char) (v : Exact) (found : (Words.empty : Words Exact).get? l = some v) : v.IsReal := by cases found
  rw [readWords] at read
  generalize Words.empty = held at read empty
  induction tokens generalizing held with
  | nil => cases read; exact empty _ _ found
  | cons token tokens ih =>
    rw [List.foldlM_cons, Except.bind_eq_ok_iff] at read
    obtain ⟨more, first, rest⟩ := read
    obtain ⟨⟨l, v⟩, word, same⟩ := Except.bind_eq_ok_iff.mp first
    cases same
    refine ih _ rest fun other u given => ?_
    rw [Words.get?_set] at given
    split_ifs at given
    · cases given; exact isReal_of_readWord word
    · exact empty _ _ given

/-- What a list gives that is gone through without a fault, one of its members gives. -/
theorem Except.exists_of_mem_mapM {ε β γ : Type} {f : β → Except ε γ} {xs : List β} {ys : List γ}
    (whole : xs.mapM f = .ok ys) {y : γ} (mem : y ∈ ys) : ∃ x ∈ xs, f x = .ok y := by
  induction xs generalizing ys with
  | nil => cases whole; cases mem
  | cons x xs ih =>
    rw [List.mapM_cons, Except.bind_eq_ok_iff] at whole
    obtain ⟨first, given, rest⟩ := whole
    obtain ⟨others, later, same⟩ := Except.bind_eq_ok_iff.mp rest
    cases same
    rcases List.mem_cons.mp mem with rfl | other
    · exact ⟨x, List.mem_cons_self, given⟩
    · obtain ⟨x', member, given'⟩ := ih later other
      exact ⟨x', List.mem_cons_of_mem _ member, given'⟩

end Seam
