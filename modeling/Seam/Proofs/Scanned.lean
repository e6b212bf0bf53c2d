import Seam.Proofs.Exact
import Seam.Proofs.Naming
import Seam.Proofs.Spelling
import Seam.Settings.Json
import Seam.Text

/-!
What scanners take from the front of a text. A scanner in a sequence goes on where the one
before it stopped (`Scan.bind_eq`), a run of characters ends where one of another kind follows
(`Text.Stops.takeWhile_append`), and items are taken one after the other, each up to the separator
behind it (`Scan.items_intercalate`). A decimal in full is digits with a point among them
(`Decimal.exists_spells_withPoint`), and what is hidden in a text has a number (`Text.ofHex?_hexDigit`).
-/
namespace Seam

/-- What the text starts with, if anything, has not the property. -/
def Text.Stops (p : Char → Bool) (cs : List Char) : Prop := ∀ c ∈ cs.head?, p c = false

namespace Text.Stops

variable {p : Char → Bool} {c : Char} {cs ds : List Char}

theorem nil : Stops p [] := fun _ none => nomatch none

theorem cons (other : p c = false) (cs : List Char) : Stops p (c :: cs) := by
  rintro _ ⟨⟩
  exact other

theorem mono {q : Char → Bool} (stops : Stops q cs) (inside : ∀ c, p c = true → q c = true) : Stops p cs := by
  intro c first
  by_contra more
  have other := stops c first
  rw [inside c (by simpa using more)] at other
  cases other

/-- A text of digits starts with no other character. -/
theorem of_isDigit {d : Char} (other : d.isDigit = false) (digits : ∀ c ∈ ds, c.isDigit = true) (nonempty : ds ≠ [])
    (cs : List Char) : Stops (· == d) (ds ++ cs) := by
  obtain ⟨c, more, rfl⟩ := List.exists_cons_of_ne_nil nonempty
  refine cons (p := (· == d)) (beq_eq_false_iff_ne.mpr ?_) _
  rintro rfl
  rw [digits c List.mem_cons_self] at other
  cases other

theorem takeWhile_append (stops : Stops p cs) (all : ∀ c ∈ ds, p c = true) : (ds ++ cs).takeWhile p = ds := by
  rw [List.takeWhile_append_of_pos all]
  cases cs with
  | nil => rw [List.takeWhile_nil, List.append_nil]
  | cons c cs => rw [List.takeWhile_cons_of_neg (by simp [stops c rfl]), List.append_nil]

private theorem dropWhile_append (stops : Stops p cs) (all : ∀ c ∈ ds, p c = true) : (ds ++ cs).dropWhile p = cs := by
  rw [List.dropWhile_append_of_pos all]
  cases cs with
  | nil => rfl
  | cons c cs => rw [List.dropWhile_cons_of_neg (by simp [stops c rfl])]

end Text.Stops

open Text (Stops)

namespace Scan

variable {β γ : Type} {s : Scan β} {f : β → Scan γ} {b : β} {p : Char → Bool} {text cs ds rest : List Char}

private theorem bind_apply (s : Scan β) (f : β → Scan γ) (cs : List Char) : (s >>= f) cs = (s cs).bind fun x => f x.1 x.2 := rfl

theorem bind_eq (taken : s cs = some (b, rest)) : (s >>= f) cs = f b rest := by
  rw [bind_apply, taken, Option.bind_some]

theorem bind_eq_none (failed : s cs = none) : (s >>= f) cs = none := by
  rw [bind_apply, failed, Option.bind_none]

theorem bind_congr {cs' : List Char} (same : s cs = s cs') : (s >>= f) cs = (s >>= f) cs' := by
  rw [bind_apply, bind_apply, same]

@[simp] theorem pure_apply (b : β) (cs : List Char) : (pure b : Scan β) cs = some (b, cs) := rfl

theorem get_apply (cs : List Char) : (get : Scan (List Char)) cs = some (cs, cs) := rfl

theorem peek?_apply (cs : List Char) : peek? cs = some (cs.head?, cs) := rfl

theorem accept_cons (c : Char) (rest : List Char) : accept [c] (c :: rest) = some (true, rest) := by
  simp [accept, List.isPrefixOf?]

theorem expect_cons (c : Char) (rest : List Char) : expect [c] (c :: rest) = some ((), rest) := by
  simp [expect, List.isPrefixOf?]

/-- A text is not accepted where another character stands than its first. -/
theorem accept_of_stops {c : Char} (stops : Stops (· == c) cs) (text : List Char) :
    accept (c :: text) cs = some (false, cs) := by
  cases cs with
  | nil => rfl
  | cons d cs =>
    have differ : (c == d) = false := by
      rw [Bool.eq_false_iff, ne_eq, beq_iff_eq]
      rintro rfl
      simpa using stops c rfl
    rw [accept, List.isPrefixOf?, differ]
    rfl

theorem expect_of_stops {c : Char} (stops : Stops (· == c) cs) (text : List Char) : expect (c :: text) cs = none := by
  have refused := accept_of_stops stops text
  rw [accept] at refused
  rw [expect]
  split at refused
  · cases refused
  · next none => rw [none, Option.map_none]

theorem skipWhile_append (stops : Stops p rest) (all : ∀ c ∈ ds, p c = true) :
    skipWhile p (ds ++ rest) = some ((), rest) := by
  rw [skipWhile, stops.dropWhile_append all]

theorem takeWhile1_append (stops : Stops p rest) (all : ∀ c ∈ ds, p c = true) (nonempty : ds ≠ []) :
    takeWhile1 p (ds ++ rest) = some (ds, rest) := by
  have taken : takeWhile p (ds ++ rest) = some (ds, rest) := by
    rw [takeWhile, stops.takeWhile_append all, stops.dropWhile_append all]
  rw [takeWhile1, bind_eq taken, if_neg (by simpa using nonempty)]
  rfl

theorem orElse_eq_left {t : Scan β} {result : β × List Char} (taken : s cs = some result) :
    (s <|> t) cs = some result := by
  show (s cs <|> t cs) = _
  rw [taken]
  rfl

theorem orElse_eq_right {t : Scan β} (failed : s cs = none) : (s <|> t) cs = t cs := by
  show (s cs <|> t cs) = _
  rw [failed]
  rfl

/-- The sign of a numeral is taken from before its digits. -/
theorem accept_signText (negative : Bool) (stops : Stops (· == '-') cs) :
    accept ['-'] (Decimal.signText negative ++ cs) = some (negative, cs) := by
  cases negative with
  | true => rfl
  | false => exact accept_of_stops stops []

theorem items_congr {element : Scan β} {separator closing : Scan Bool} {cs' : List Char} (same : element cs = element cs')
    (budget : ℕ) : items element separator closing budget cs = items element separator closing budget cs' := by
  cases budget with
  | zero => rfl
  | succ budget => exact bind_congr same

/-- A single item is taken up to what closes it. -/
theorem items_singleton {element : Scan β} {separator closing : Scan Bool} {mid finish : List Char}
    (taken : element cs = some (b, mid)) (ended : separator mid = some (false, finish))
    (closed : closing finish = some (true, rest)) (budget : ℕ) :
    items element separator closing (budget + 1) cs = some ([b], rest) := by
  rw [items, bind_eq taken, bind_eq ended, if_neg Bool.false_ne_true, bind_eq closed, if_pos rfl]
  rfl

/-- Items with separators between them are taken one after the other, and then what closes them. -/
theorem items_intercalate {element : Scan β} {separator closing : Scan Bool} {comma mid finish : List Char}
    {parts : List (List Char)} {xs : List β} {budget : ℕ}
    (reads : List.Forall₂ (fun part x => (∀ tail, element (part ++ (comma ++ tail)) = some (x, comma ++ tail)) ∧
      element (part ++ finish) = some (x, finish)) parts xs)
    (nonempty : parts ≠ []) (fits : parts.length ≤ budget)
    (parted : ∀ tail, separator (comma ++ tail) = some (true, tail)) (ended : separator finish = some (false, mid))
    (closed : closing mid = some (true, rest)) :
    items element separator closing budget (comma.intercalate parts ++ finish) = some (xs, rest) := by
  induction reads generalizing budget with
  | nil => exact absurd rfl nonempty
  | @cons part x parts xs here others ih =>
    obtain ⟨budget, rfl⟩ : ∃ k, budget = k + 1 := ⟨budget - 1, by rw [List.length_cons] at fits; omega⟩
    cases others with
    | nil => exact items_singleton (List.intercalate_singleton ▸ here.2) ended closed budget
    | @cons next y parts xs there others =>
      have later := ih (List.cons_ne_nil next parts) (Nat.le_of_succ_le_succ fits)
      rw [items, List.intercalate_cons_cons, List.append_assoc, List.append_assoc, bind_eq (here.1 _), bind_eq (parted _),
        if_pos rfl, bind_eq later]
      rfl

end Scan

theorem Decimal.exists_sign {ds : List Char} (digits : ∀ c ∈ ds, c.isDigit = true) (nonempty : ds ≠ []) (negative : Bool)
    (rest : List Char) : ∃ c cs, signText negative ++ (ds ++ rest) = c :: cs ∧ (c = '-' ∨ c.isDigit = true) := by
  obtain ⟨d, ds, rfl⟩ := List.exists_cons_of_ne_nil nonempty
  cases negative with
  | true => exact ⟨'-', _, rfl, .inl rfl⟩
  | false => exact ⟨d, _, rfl, .inr (digits d List.mem_cons_self)⟩

/-- A numeral starts with its sign or with a digit, and so with no other character. -/
theorem Decimal.ne_of_sign {c d : Char} (first : c = '-' ∨ c.isDigit = true) (neither : d ≠ '-' ∧ d.isDigit = false) :
    c ≠ d := by
  rintro rfl
  simp [neither] at first

/-- A decimal in full with a point is its digits around the point, and these denote the same. -/
theorem Decimal.exists_spells_withPoint (d : Decimal) :
    ∃ cs whole places, Spells cs whole places ∧ places ≠ [] ∧ Json.withPoint d = signText d.negative ++ cs ∧
      Decimal.value ⟨d.negative, ofDigits (whole ++ places), -places.length⟩ = d.value := by
  obtain ⟨negative, digits, exponent⟩ := d
  cases exponent with
  | ofNat k =>
    have digit {c : Char} (mem : c ∈ Nat.toDigits 10 (digits * 10 ^ k) ++ ['0']) : c.isDigit = true := by
      rcases List.mem_append.mp mem with written | zero
      · exact Nat.isDigit_of_mem_toDigits (by decide) (by decide) written
      · rw [List.mem_singleton.mp zero]
        rfl
    have number : ofDigits (Nat.toDigits 10 (digits * 10 ^ k) ++ ['0']) = 10 * (digits * 10 ^ k) := by
      rw [ofDigits_append_singleton, ofDigits, Nat.ofDigitChars_ten_toDigits]
      rfl
    refine ⟨Nat.toDigits 10 (digits * 10 ^ k) ++ ['.', '0'], Nat.toDigits 10 (digits * 10 ^ k), ['0'],
      ⟨rfl, fun c => digit, Nat.toDigits_ne_nil, length_toDigits_of_head?⟩, List.cons_ne_nil _ _, ?_, ?_⟩
    · exact List.append_assoc ..
    · simp only [value, number, List.length_singleton, Int.ofNat_eq_natCast, zpow_natCast]
      push_cast
      rw [zpow_neg_one]
      field_simp
  | negSucc k =>
    obtain ⟨whole, places, spells, number, length⟩ := @exists_spells digits (.negSucc k) (Int.negSucc_lt_zero k).le
    refine ⟨_, whole, places, spells, ?_, rfl, ?_⟩
    · rintro rfl
      rw [List.length_nil, Int.neg_negSucc] at length
      omega
    · rw [number, length, neg_neg]

namespace Text

/-- The characters of a text as they stand between quotation marks. -/
def escaped (hidden : Char → Bool) (s : String) : List Char := s.toList.flatMap (escape hidden)

theorem quoted_append (hidden : Char → Bool) (s : String) (rest : List Char) :
    quoted hidden s ++ rest = '"' :: (escaped hidden s ++ '"' :: rest) := by
  simp [quoted, escaped]

theorem ofHex?_hexDigit : ∀ n < 256, ofHex? ['0', '0', hexDigit (n / 16), hexDigit n] = some n := by decide +kernel

theorem letter?_mem {c letter : Char} (written : letter? c = some letter) :
    letter ∈ ['"', '\\', 'b', 'f', 'n', 'r', 't'] := by
  obtain ⟨entry, found, rfl⟩ := Option.map_eq_some_iff.mp written
  have listed : ∀ entry ∈ letters, entry.1 ∈ ['"', '\\', 'b', 'f', 'n', 'r', 't'] := by decide
  exact listed entry (List.mem_of_find?_eq_some found)

/-- A character without a letter is neither a quotation mark nor a backslash. -/
theorem ne_of_letter?_eq_none {c : Char} (unwritten : letter? c = none) : c ≠ '"' ∧ c ≠ '\\' := by
  constructor <;> (rintro rfl; cases unwritten)

end Text

end Seam
