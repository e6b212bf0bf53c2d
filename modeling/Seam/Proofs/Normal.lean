import Seam.Proofs.Legible
import Seam.Proofs.Written

/-!
What is written for a line is a normal form. A line with finite numbers is written so that
it is read as the same line but for its numbers, and each of them is now the one nearest to
the decimal that was written for it (`Command.Restates`). To write it once more changes
nothing (`Command.FiniteWords.chars_rounded`), although most decimals are no numbers of 64 bits.
-/
namespace Seam

open Binary64 (Reads toReal written)

/-- The number of the letter is written as the decimal, which is off by half a unit of its last place at most. -/
structure Words.Writes (letter : Char) (x : Float) (d : Decimal) : Prop where
  text : Command.wordText letter x = letter :: d.text
  exponent : d.exponent = -Words.places letter
  near : |d.value - toReal x| ≤ 1 / 2 / 10 ^ Words.places letter

/-- The number is what is read of the decimal that is written for another. -/
def Words.Restates (letter : Char) (new old : Float) : Prop := ∃ d, Writes letter old d ∧ Reads d new

private theorem Command.wordText_eq (letter : Char) (x : Float) :
    wordText letter x = letter :: (Words.numeral letter x).text := rfl

private theorem Words.writes_written (letter : Char) {x : Float} (finite : Scalar.isFinite x = true) :
    Writes letter x (written (places letter) x) where
  text := by rw [Command.wordText_eq, Binary64.numeral_of_isFinite finite]; rfl
  exponent := rfl
  near := by rw [abs_sub_comm]; exact Binary64.abs_toReal_sub_written ..

private theorem Words.restates_numeral (letter : Char) {x : Float} (finite : Scalar.isFinite x = true) :
    Restates letter (Scalar.ofNumeral (numeral letter x)) x := by
  refine ⟨written (places letter) x, writes_written letter finite, ?_⟩
  rw [Binary64.numeral_of_isFinite finite]
  exact Binary64.reads_ofDecimal (Binary64.abs_value_written_lt finite _)

/-- A number that was written and read is written as before. -/
private theorem Words.numeral_ofNumeral (letter : Char) {x : Float} (finite : Scalar.isFinite x = true) :
    numeral letter (Scalar.ofNumeral (numeral letter x) : Float) = numeral letter x := by
  have reads := Binary64.reads_ofDecimal (Binary64.abs_value_written_lt finite (places letter))
  rw [Binary64.numeral_of_isFinite finite]
  show numeral letter (Binary64.ofDecimal _) = _
  rw [Binary64.numeral_of_isFinite reads.finite, reads.written_eq finite]

namespace Command

/-- One line is the other, but for numbers that were written and read. -/
inductive Restates : Command Float → Command Float → Prop
  | instruction (code : Code) {new old : Words Float} (comment : Option String)
      (words : List.Forall₂ (fun new old => new.1 = old.1 ∧ Words.Restates old.1 new.2 old.2) new.entries old.entries) :
      Restates (.instruction ⟨code, new, comment⟩) (.instruction ⟨code, old, comment⟩)
  | comment (text : String) : Restates (.comment text) (.comment text)
  | verbatim (text : String) : Restates (.verbatim text) (.verbatim text)

variable {c : Command Float}

theorem FiniteWords.plain (finite : c.FiniteWords) : c.Plain := by
  intro w given entry mem
  rw [Binary64.numeral_of_isFinite (finite w given entry mem)]
  show -(Words.places entry.1 : ℤ) ≤ 0
  omega

private theorem FiniteWords.restates_rounded (finite : c.FiniteWords) : c.rounded.Restates c := by
  cases c with
  | comment text => exact .comment text
  | verbatim text => exact .verbatim text
  | instruction i =>
    refine .instruction i.code i.comment ?_
    rw [Words.rounded, List.forall₂_map_left_iff, List.forall₂_same]
    exact fun entry mem => ⟨rfl, Words.restates_numeral entry.1 (finite _ rfl entry mem)⟩

theorem FiniteWords.chars_rounded (finite : c.FiniteWords) : c.rounded.chars = c.chars := by
  cases c with
  | comment => rfl
  | verbatim => rfl
  | instruction i =>
    have same : (i.words.rounded.entries.map fun entry => wordText entry.1 entry.2) =
        i.words.entries.map fun entry => wordText entry.1 entry.2 := by
      rw [Words.rounded, List.map_map]
      refine List.map_congr_left fun entry mem => ?_
      rw [Function.comp_apply, wordText_eq, Words.numeral_ofNumeral entry.1 (finite _ rfl entry mem), ← wordText_eq]
    rw [rounded, chars_instruction, chars_instruction, bodyText, bodyText, same]

variable {line : ℕ} {cs : List Char}

/-- What is written for a line with finite numbers is read, at whatever place, as the line with its numbers restated,
    and this is written in the same way. What is no instruction is written as it was read. -/
theorem normal_form (read : readLine line cs = .ok c) (finite : c.FiniteWords) (line' : ℕ) :
    ∃ c', readLine line' c.chars = .ok c' ∧ c'.Restates c ∧ c'.chars = c.chars ∧
      (c.code? = none → c' = c ∧ c.chars = cs) := by
  refine ⟨c.rounded, (formed_of_readLine read).readLine_chars finite.plain line', finite.restates_rounded,
    finite.chars_rounded, fun untracked => ⟨?_, chars_of_readLine read untracked⟩⟩
  cases c with
  | instruction => cases untracked
  | comment => rfl
  | verbatim => rfl

/-- A move as somebody wrote it: 0.0625 is halfway between two numbers of three places, and the last number is a zero
    once it is rounded. -/
def scribbled : Command Float :=
  .instruction ⟨.linearMove, ⟨[('X', 12.34567), ('Z', 0.0625), ('E', 0.5), ('Y', -0.0001)]⟩, some "hop"⟩

theorem normal_form_scribbled :
    readLine 3 "g01 x1 X12.34567  z.0625 E0.5 y-0.0001;hop".toList = .ok scribbled ∧ scribbled.FiniteWords ∧
      scribbled.chars = "G1 X12.346 Z0.062 E0.50000 Y0.000 ;hop".toList ∧
        ∃ c', readLine 1 "G1 X12.346 Z0.062 E0.50000 Y0.000 ;hop".toList = .ok c' ∧ c'.Restates scribbled ∧
          c'.chars = scribbled.chars := by
  have read : readLine 3 "g01 x1 X12.34567  z.0625 E0.5 y-0.0001;hop".toList = .ok scribbled := by decide +kernel
  have finite : scribbled.FiniteWords := by
    intro w given entry mem
    cases given
    simp only [List.mem_cons, List.not_mem_nil, or_false] at mem
    rcases mem with rfl | rfl | rfl | rfl <;> decide +kernel
  have written : scribbled.chars = "G1 X12.346 Z0.062 E0.50000 Y0.000 ;hop".toList := by decide +kernel
  obtain ⟨c', again, restates, same, _⟩ := normal_form read finite 1
  exact ⟨read, finite, written, c', written ▸ again, restates, same⟩

end Command

end Seam
