import Seam.Proofs.Scanned
import Seam.Settings.Json

/-!
Texts and numerals of JSON. Every text between quotation marks is read as it was
(`Json.string_escaped`): a character with a number in place of a letter is one unit of UTF-16.
What is written for a decimal is a numeral of the format (`Json.exists_numeral`), and such a
numeral is scanned up to where it ends (`Json.Numeral.scan_chars`).
-/
namespace Seam.Json

open Text (Stops)

/-- The piece that a character is written as. -/
def piece (c : Char) : Piece :=
  if Text.letter? c = none ∧ c.toNat < 0x20 then .unit c.toNat else .char c

private theorem pieces_cons_of_visible {c : Char} (quote : c ≠ '"') (backslash : c ≠ '\\') (visible : ¬ c.toNat < 0x20)
    (cs : List Char) : pieces (c :: cs) = (pieces cs).map fun (ps, rest) => (.char c :: ps, rest) := by
  rw [pieces.eq_def]
  split
  · next same => cases same
  · next same => exact absurd (List.cons.inj same).1 quote
  · next same => exact absurd (List.cons.inj same).1 backslash
  · next same => exact absurd (List.cons.inj same).1 backslash
  · next d ds _ _ _ same =>
    obtain ⟨rfl, rfl⟩ := List.cons.inj same
    rw [if_neg (by simp [visible, backslash])]
    cases pieces cs <;> rfl

private theorem pieces_escape (c : Char) (cs : List Char) :
    pieces (Text.escape (fun _ => false) c ++ cs) = (pieces cs).map fun (ps, rest) => (piece c :: ps, rest) := by
  rw [Text.escape, piece]
  cases written : Text.letter? c with
  | some letter =>
    have stands := Text.ofLetter?_of_letter? written
    have listed := Text.letter?_mem written
    simp only [List.mem_cons, List.not_mem_nil, or_false] at listed
    have escaped : escaped? letter = some c := by
      rw [escaped?, if_neg, stands]
      rcases listed with rfl | rfl | rfl | rfl | rfl | rfl | rfl <;> decide
    have next : pieces ('\\' :: letter :: cs) = do
        let char ← escaped? letter
        let (more, rest) ← pieces cs
        return (.char char :: more, rest) := by
      rcases listed with rfl | rfl | rfl | rfl | rfl | rfl | rfl <;> simp [pieces]
    rw [List.cons_append, List.singleton_append, next, escaped, if_neg (by simp)]
    cases pieces cs <;> rfl
  | none =>
    obtain ⟨quote, backslash⟩ := Text.ne_of_letter?_eq_none written
    by_cases low : c.toNat < 0x20
    · have number := Text.ofHex?_hexDigit c.toNat (by omega)
      simp only [low, decide_true, Bool.or_false, ↓reduceIte, and_self, List.cons_append, List.nil_append, pieces, number]
      cases pieces cs <;> rfl
    · simp only [low, decide_false, Bool.or_false, Bool.false_eq_true, ↓reduceIte, and_false, List.singleton_append]
      exact pieces_cons_of_visible quote backslash low cs

private theorem characters?_piece (c : Char) (ps : List Piece) :
    characters? (piece c :: ps) = (characters? ps).map (c :: ·) := by
  rw [piece]
  split
  · next hidden =>
    have low := hidden.2
    have same : Char.ofNat c.toNat = c := Char.ofNat_toNat c
    cases ps with
    | nil => simp [characters?, show ¬ 0xD800 ≤ c.toNat by omega, same]
    | cons p ps =>
      cases p with
      | char d => simp [characters?, show ¬ 0xD800 ≤ c.toNat by omega, same]
      | unit n => simp [characters?, show ¬ 0xD800 ≤ c.toNat by omega, show ¬ 0xDC00 ≤ c.toNat by omega, same]
  · rw [characters?]

/-- A text between quotation marks is read as it was. -/
theorem string_escaped (s : String) (rest : List Char) :
    string (Text.escaped (fun _ => false) s ++ '"' :: rest) = some (some s, rest) := by
  have found (cs : List Char) :
      pieces (cs.flatMap (Text.escape fun _ => false) ++ '"' :: rest) = some (cs.map piece, rest) := by
    induction cs with
    | nil => simp [pieces]
    | cons c cs ih => rw [List.flatMap_cons, List.append_assoc, pieces_escape, ih]; rfl
  have denoted (cs : List Char) : characters? (cs.map piece) = some cs := by
    induction cs with
    | nil => rfl
    | cons c cs ih => rw [List.map_cons, characters?_piece, ih]; rfl
  simp only [string, Text.escaped, found, denoted, Option.map_some, String.ofList_toList]

namespace Numeral

/-- The numeral as it is written. -/
def chars (n : Numeral) : List Char :=
  Decimal.signText n.negative ++ n.whole ++ (if n.places = [] then [] else '.' :: n.places) ++
    if n.exponent = [] then [] else 'e' :: (if n.exponentNegative then '-' else '+') :: n.exponent

/-- The numeral is one of the format. -/
structure Regular (n : Numeral) : Prop where
  whole : ∀ c ∈ n.whole, c.isDigit = true
  places : ∀ c ∈ n.places, c.isDigit = true
  exponent : ∀ c ∈ n.exponent, c.isDigit = true
  whole_ne_nil : n.whole ≠ []
  lead : n.whole.head? = some '0' → n.whole.length = 1
  unsigned : n.exponent = [] → n.exponentNegative = false

/-- What can stand inside a numeral behind its first digit. -/
def isInside (c : Char) : Bool := c.isDigit || c == '.' || c == 'e' || c == 'E'

private theorem scanExponent_of_stops {rest : List Char} (stops : Stops isInside rest) :
    scanExponent rest = some ((false, []), rest) := by
  rw [scanExponent, Scan.bind_eq (Scan.peek?_apply rest)]
  refine congrFun (g := (pure (false, []) : Scan (Bool × List Char))) ?_ rest
  split
  · next first => exact absurd (stops _ first) (by decide)
  · next first => exact absurd (stops _ first) (by decide)
  · rfl

private theorem scanExponent_append {rest digits : List Char} (negative : Bool) (all : ∀ c ∈ digits, c.isDigit = true)
    (nonempty : digits ≠ []) (stops : Stops Char.isDigit rest) :
    scanExponent ('e' :: (if negative then '-' else '+') :: (digits ++ rest)) = some ((negative, digits), rest) := by
  have taken : (do return (negative, ← Scan.takeWhile1 Char.isDigit) : Scan (Bool × List Char)) (digits ++ rest) =
      some ((negative, digits), rest) := Scan.bind_eq (Scan.takeWhile1_append stops all nonempty)
  cases negative with
  | true => exact taken
  | false => exact taken

/-- The exponent of a numeral is scanned up to where the numeral ends, and no digit and no point stands before it. -/
private theorem scanExponent_power {negative : Bool} {exponent rest back : List Char} (stops : Stops isInside rest)
    (digits : ∀ c ∈ exponent, c.isDigit = true) (unsigned : exponent = [] → negative = false)
    (power : (if exponent = [] then [] else 'e' :: (if negative then '-' else '+') :: exponent) ++ rest = back) :
    scanExponent back = some ((negative, exponent), rest) ∧ Stops Char.isDigit back ∧ Stops (· == '.') back := by
  subst power
  have digitless : Stops Char.isDigit rest := stops.mono fun c digit => by simp [isInside, digit]
  split
  · next none =>
    rw [none, unsigned none]
    exact ⟨scanExponent_of_stops stops, digitless, stops.mono fun c point => by simp [isInside, beq_iff_eq.mp point]⟩
  · next some => exact ⟨scanExponent_append negative digits some digitless, .cons rfl _, .cons rfl _⟩

/-- A numeral of the format is scanned up to where it ends. -/
theorem scan_chars {n : Numeral} (regular : n.Regular) {rest : List Char} (stops : Stops isInside rest) :
    scan (n.chars ++ rest) = some (n, rest) := by
  obtain ⟨negative, whole, places, exponentNegative, exponent⟩ := n
  obtain ⟨whole_digits, places_digits, exponent_digits, nonempty, lead, unsigned⟩ := regular
  simp only at whole_digits places_digits exponent_digits nonempty lead unsigned
  simp only [chars, List.append_assoc]
  generalize power : (if exponent = [] then [] else 'e' :: (if exponentNegative then '-' else '+') :: exponent) ++ rest = back
  obtain ⟨ended, digitless, pointless⟩ := scanExponent_power stops exponent_digits unsigned power
  have led : (whole.head? == some '0' && whole.length != 1) = false := by
    by_contra zero
    simp only [Bool.not_eq_false, Bool.and_eq_true, beq_iff_eq, bne_iff_ne] at zero
    exact zero.2 (lead zero.1)
  have front : Stops Char.isDigit ((if places = [] then [] else '.' :: places) ++ back) := by
    split
    · exact digitless
    · exact .cons rfl _
  rw [scan, Scan.bind_eq (Scan.accept_signText negative (.of_isDigit rfl whole_digits nonempty _)),
    Scan.bind_eq (Scan.takeWhile1_append front whole_digits nonempty)]
  simp only [led, Bool.false_eq_true, ↓reduceIte]
  split
  · next none =>
    rw [none, List.nil_append, Scan.bind_eq (Scan.accept_of_stops pointless []), if_neg Bool.false_ne_true,
      Scan.bind_eq (Scan.pure_apply [] back)]
    exact Scan.bind_eq ended
  · next some =>
    rw [List.cons_append, Scan.bind_eq (Scan.accept_cons '.' _), if_pos rfl,
      Scan.bind_eq (Scan.takeWhile1_append digitless places_digits some)]
    exact Scan.bind_eq ended

/-- A numeral starts with its sign or with a digit. -/
theorem Regular.exists_cons {n : Numeral} (regular : n.Regular) :
    ∃ c cs, n.chars = c :: cs ∧ (c = '-' ∨ c.isDigit = true) := by
  rw [chars, List.append_assoc, List.append_assoc]
  exact Decimal.exists_sign regular.whole regular.whole_ne_nil n.negative _

end Numeral

/-- Every decimal is written as a numeral of the format. -/
theorem exists_numeral (d : Decimal) : ∃ n : Numeral, n.Regular ∧ decimalText d = n.chars := by
  rw [decimalText]
  split
  · obtain ⟨cs, whole, places, spells, some, text, -⟩ := d.exists_spells_withPoint
    refine ⟨⟨d.negative, whole, places, false, []⟩,
      ⟨fun c mem => spells.digits c (List.mem_append_left _ mem), fun c mem => spells.digits c (List.mem_append_right _ mem),
        List.forall_mem_nil _, spells.whole_ne_nil, spells.lead, fun _ => rfl⟩, ?_⟩
    rw [text, spells.text, Numeral.chars, if_pos rfl, List.append_nil, List.append_assoc]
  · have digits {n : ℕ} : ∀ c ∈ Nat.toDigits 10 n, c.isDigit = true := fun c mem =>
      Nat.isDigit_of_mem_toDigits (by decide) (by decide) mem
    obtain ⟨first, others, shown⟩ := List.exists_cons_of_ne_nil (Nat.toDigits_ne_nil (b := 10) (n := d.digits))
    have all := digits (n := d.digits)
    rw [shown] at all
    rw [scientific, shown]
    generalize d.exponent + ((first :: others).length : ℤ) - 1 = power
    refine ⟨⟨d.negative, [first], others, power < 0, Nat.toDigits 10 power.natAbs⟩,
      ⟨fun c mem => all c (by simp [List.mem_singleton.mp mem]), fun c mem => all c (List.mem_cons_of_mem _ mem), digits,
        List.cons_ne_nil _ _, fun _ => rfl, fun none => absurd none Nat.toDigits_ne_nil⟩, ?_⟩
    rw [Numeral.chars, if_neg Nat.toDigits_ne_nil]
    cases others <;> simp [signed]

end Seam.Json
