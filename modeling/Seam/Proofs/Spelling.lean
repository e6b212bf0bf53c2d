import Mathlib
import Seam.Command.Text

/-!
How numbers and words are spelled. A number is written as a sign and digits with
at most one point among them, and is read as the decimal that was written
(`Numeral.read?_text`). What has no blank and no semicolon in it is one token
(`Text.tokens_spaced`), and every letter has one number among the words of a line
(`Words.Lettered.set`).
-/
namespace Seam

/-- The characters neither part a line nor end it. -/
def Text.Solid (cs : List Char) : Prop := ∀ c ∈ cs, isBlank c = false ∧ c ≠ ';'

namespace Text

private theorem solid_of_toNat {c : Char} (low : 33 ≤ c.toNat) (high : c.toNat ≤ 122) (other : c.toNat ≠ 59) :
    isBlank c = false ∧ c ≠ ';' := by
  refine ⟨?_, fun same => other (by rw [same]; rfl)⟩
  simp only [isBlank, Bool.or_eq_false_iff, Bool.and_eq_false_iff, decide_eq_false_iff_not, beq_eq_false_iff_ne]
  omega

private theorem solid_of_isDigit {c : Char} (digit : c.isDigit = true) : isBlank c = false ∧ c ≠ ';' := by
  simp only [Char.isDigit, Bool.and_eq_true, decide_eq_true_eq] at digit
  have low : 48 ≤ c.toNat := UInt32.le_iff_toNat_le.mp digit.1
  have high : c.toNat ≤ 57 := UInt32.le_iff_toNat_le.mp digit.2
  exact solid_of_toNat (by omega) (by omega) (by omega)

theorem solid_of_isUpper {c : Char} (upper : c.isUpper = true) : isBlank c = false ∧ c ≠ ';' := by
  simp only [Char.isUpper, decide_eq_true_eq] at upper
  have low : 65 ≤ c.toNat := UInt32.le_iff_toNat_le.mp upper.1
  have high : c.toNat ≤ 90 := UInt32.le_iff_toNat_le.mp upper.2
  exact solid_of_toNat (by omega) (by omega) (by omega)

namespace Solid

variable {cs ds : List Char} {c : Char}

theorem append (front : Solid cs) (back : Solid ds) : Solid (cs ++ ds) := List.forall_mem_append.mpr ⟨front, back⟩

theorem notMem_of_isBlank (solid : Solid cs) (blank : isBlank c = true) : c ∉ cs := by
  intro mem
  rw [(solid c mem).1] at blank
  cases blank

theorem notMem_semicolon (solid : Solid cs) : ';' ∉ cs := fun mem => (solid ';' mem).2 rfl

end Solid

end Text

namespace Decimal

/-- The text is that of the digits before a point and of those behind it; no zero stands before other digits. -/
structure Spells (cs whole places : List Char) : Prop where
  text : cs = whole ++ if places = [] then [] else '.' :: places
  digits : ∀ c ∈ whole ++ places, c.isDigit = true
  whole_ne_nil : whole ≠ []
  lead : whole.head? = some '0' → whole.length = 1

/-- Only the digits of zero start with a zero. -/
theorem length_toDigits_of_head? {n : ℕ} (zero : (Nat.toDigits 10 n).head? = some '0') : (Nat.toDigits 10 n).length = 1 := by
  induction n using Nat.strongRecOn with
  | _ n ih =>
    by_cases small : n < 10
    · rw [Nat.toDigits_of_lt_base small]
      rfl
    · have large : 10 ≤ n := not_lt.mp small
      have head : (Nat.toDigits 10 (n / 10)).head? = some '0' := by
        rwa [Nat.toDigits_of_base_le (by decide) large, List.head?_append_of_ne_nil _ Nat.toDigits_ne_nil] at zero
      have short := ih (n / 10) (by omega) head
      obtain ⟨c, single⟩ := List.length_eq_one_iff.mp short
      rw [single, List.head?_cons, Option.some.injEq] at head
      have value := Nat.ofDigitChars_ten_toDigits (n := n / 10)
      rw [single, head] at value
      have none : Nat.ofDigitChars 10 ['0'] 0 = 0 := rfl
      omega

private theorem ofDigits_leftpad (width : ℕ) (ds : List Char) : ofDigits (ds.leftpad width '0') = ofDigits ds := by
  have zeros (n : ℕ) : Nat.ofDigitChars 10 (List.replicate n '0') 0 = 0 := by
    induction n with
    | zero => rfl
    | succ n ih => rw [List.replicate_succ, Nat.ofDigitChars_cons]; exact ih
  rw [ofDigits, List.leftpad, Nat.ofDigitChars_append, zeros, ofDigits]

theorem isDigit_of_mem_toDigits {n : ℕ} {c : Char} (mem : c ∈ Nat.toDigits 10 n) : c.isDigit = true :=
  Nat.isDigit_of_mem_toDigits (by norm_num) (by norm_num) mem

private theorem isDigit_of_mem_leftpad {width n : ℕ} {c : Char} (mem : c ∈ (Nat.toDigits 10 n).leftpad width '0') :
    c.isDigit = true := by
  rcases List.mem_append.mp mem with zero | written
  · rw [List.eq_of_mem_replicate zero]
    rfl
  · exact isDigit_of_mem_toDigits written

/-- Zeros are only added until one digit stands before the point. -/
private theorem length_take_leftpad_of_head? {n k : ℕ} {ds : List Char} (padded : ds = (Nat.toDigits 10 n).leftpad (k + 1) '0')
    (zero : (ds.take (ds.length - k)).head? = some '0') : (ds.take (ds.length - k)).length = 1 := by
  have length : ds.length = max (k + 1) (Nat.toDigits 10 n).length := by rw [padded, List.length_leftpad]
  rw [List.length_take]
  by_cases short : (Nat.toDigits 10 n).length ≤ k + 1
  · omega
  · have kept : ds = Nat.toDigits 10 n := by
      rw [padded, List.leftpad, Nat.sub_eq_zero_of_le (not_le.mp short).le]
      rfl
    rw [List.head?_take, if_neg (by omega), kept] at zero
    have := length_toDigits_of_head? zero
    omega

/-- A decimal without zeros to add is written with as many digits behind the point as it has places. -/
theorem exists_spells {digits : ℕ} {exponent : ℤ} (plain : exponent ≤ 0) :
    ∃ whole places, Spells (magnitude digits exponent) whole places ∧ ofDigits (whole ++ places) = digits ∧
      (places.length : ℤ) = -exponent := by
  cases exponent with
  | ofNat k =>
    obtain rfl : k = 0 := by simpa using plain
    refine ⟨Nat.toDigits 10 digits, [], ⟨?_, ?_, Nat.toDigits_ne_nil, length_toDigits_of_head?⟩, ?_, rfl⟩
    · simp [magnitude]
    · simpa using fun c => isDigit_of_mem_toDigits
    · rw [List.append_nil]
      exact Nat.ofDigitChars_ten_toDigits
  | negSucc k =>
    obtain ⟨ds, padded⟩ : ∃ ds, ds = (Nat.toDigits 10 digits).leftpad (k + 1 + 1) '0' := ⟨_, rfl⟩
    have long : k + 1 < ds.length := by
      rw [padded, List.length_leftpad]
      exact lt_of_lt_of_le (Nat.lt_succ_self _) (le_max_left ..)
    have behind : (ds.drop (ds.length - (k + 1))).length = k + 1 := by
      rw [List.length_drop]
      omega
    have written : magnitude digits (.negSucc k) =
        ds.take (ds.length - (k + 1)) ++ '.' :: ds.drop (ds.length - (k + 1)) := by
      rw [padded]
      rfl
    refine ⟨ds.take (ds.length - (k + 1)), ds.drop (ds.length - (k + 1)), ⟨?_, ?_, ?_, ?_⟩, ?_, ?_⟩
    · rw [if_neg fun none => by simp [none] at behind]
      exact written
    · rw [List.take_append_drop, padded]
      exact fun c => isDigit_of_mem_leftpad
    · intro none
      have := congrArg List.length none
      rw [List.length_take, List.length_nil] at this
      omega
    · exact length_take_leftpad_of_head? padded
    · rw [List.take_append_drop, padded, ofDigits_leftpad]
      exact Nat.ofDigitChars_ten_toDigits
    · rw [behind]
      rfl

namespace Spells

variable {cs whole places : List Char}

theorem solid (spells : Spells cs whole places) : Text.Solid cs := by
  have digits (c : Char) (mem : c ∈ whole ++ places) := Text.solid_of_isDigit (spells.digits c mem)
  rw [spells.text]
  refine Text.Solid.append (fun c mem => digits c (List.mem_append_left _ mem)) ?_
  split
  · exact List.forall_mem_nil _
  · exact List.forall_mem_cons.mpr ⟨by decide, fun c mem => digits c (List.mem_append_right _ mem)⟩

/-- The first character is a digit and no sign. -/
theorem takeSign_eq (spells : Spells cs whole places) (negative : Bool) :
    takeSign (signText negative ++ cs) = (negative, cs) := by
  obtain ⟨c, rest, cons⟩ := List.exists_cons_of_ne_nil spells.whole_ne_nil
  have digit : c.isDigit = true := spells.digits c (by rw [cons]; exact List.mem_cons_self)
  rw [spells.text, cons]
  cases negative with
  | true => rfl
  | false =>
    rw [signText, if_neg Bool.false_ne_true, List.nil_append, List.cons_append, takeSign]
    · intro _ minus
      rw [(List.cons.inj minus).1] at digit
      cases digit
    · intro _ plus
      rw [(List.cons.inj plus).1] at digit
      cases digit

theorem parts (spells : Spells cs whole places) (p : Char → Bool) (digit : ∀ c, c.isDigit = true → p c = true)
    (point : p '.' = false) :
    cs.takeWhile p = whole ∧ cs.dropWhile p = if places = [] then [] else '.' :: places := by
  have all : ∀ c ∈ whole, p c = true := fun c mem => digit c (spells.digits c (List.mem_append_left _ mem))
  rw [spells.text, List.takeWhile_append_of_pos all, List.dropWhile_append_of_pos all]
  split <;> simp [point]

theorem readMagnitude?_eq (spells : Spells cs whole places) (negative : Bool) :
    readMagnitude? negative cs = some ⟨negative, ofDigits (whole ++ places), -places.length⟩ := by
  have behind : ∀ c ∈ places, c.isDigit = true := fun c mem => spells.digits c (List.mem_append_right _ mem)
  obtain ⟨front, back⟩ := spells.parts Char.isDigit (fun _ => id) rfl
  have taken : takeDigits cs = (whole, places, []) := by
    rw [takeDigits, back, front]
    split
    · next point =>
      split at point
      · cases point
      · cases point
        rw [List.takeWhile_eq_self_iff.mpr behind, List.dropWhile_eq_nil_iff.mpr behind]
    · next pointless =>
      split at pointless
      · next none => simp [none]
      · exact absurd rfl (pointless places)
  simp [readMagnitude?, taken, spells.whole_ne_nil, readExponent?]

theorem isUnsigned_eq (spells : Spells cs whole places) : RawWord.isUnsigned cs = true := by
  have behind : ∀ c ∈ places, Text.isDecimalDigit c = true := fun c mem =>
    Text.isDecimalDigit_of_isDigit (spells.digits c (List.mem_append_right _ mem))
  obtain ⟨front, back⟩ := spells.parts Text.isDecimalDigit (fun _ => Text.isDecimalDigit_of_isDigit) (by decide)
  rw [RawWord.isUnsigned, back, front]
  by_cases none : places = []
  · simp [none, spells.whole_ne_nil]
  · simpa [none, spells.whole_ne_nil] using behind

end Spells

end Decimal

namespace Numeral

/-- The numeral is written with a sign, digits and a point, and no zeros for its exponent. -/
def IsPlain : Numeral → Prop
  | .finite d => d.exponent ≤ 0
  | _ => False

theorem read?_text {n : Numeral} (plain : n.IsPlain) :
    read? n.text = some n ∧ RawWord.isUnsigned (Decimal.takeSign n.text).2 = true := by
  cases n with
  | finite d =>
    obtain ⟨whole, places, spells, digits, length⟩ := @Decimal.exists_spells d.digits _ plain
    have sign : Decimal.takeSign d.text = (d.negative, Decimal.magnitude d.digits d.exponent) := spells.takeSign_eq d.negative
    rw [text, read?, sign]
    refine ⟨?_, spells.isUnsigned_eq⟩
    simp only [spells.readMagnitude?_eq d.negative, digits, length, neg_neg]
  | _ => exact plain.elim

theorem solid_text (n : Numeral) : Text.Solid n.text := by
  have sign (negative : Bool) : Text.Solid (Decimal.signText negative) := by
    cases negative
    · exact List.forall_mem_nil _
    · exact List.forall_mem_cons.mpr ⟨by decide, List.forall_mem_nil _⟩
  cases n with
  | finite d =>
    refine (sign d.negative).append ?_
    rcases le_total d.exponent 0 with plain | nonneg
    · obtain ⟨_, _, spells, _⟩ := @Decimal.exists_spells d.digits _ plain
      exact spells.solid
    · obtain ⟨k, same⟩ := Int.eq_ofNat_of_zero_le nonneg
      rw [same]
      exact fun c mem => Text.solid_of_isDigit (Nat.isDigit_of_mem_toDigits (by norm_num) (by norm_num) mem)
  | infinite negative => exact (sign negative).append (by simp [Text.Solid, Text.isBlank])
  | undefined => simp [text, Text.Solid, Text.isBlank]

end Numeral

namespace Text

variable {cs ds : List Char} {c : Char}

private theorem scan_append_of_solid (solid : Solid cs) (ds : List Char) :
    scan (cs ++ ds) = (cs ++ (scan ds).1, (scan ds).2) := by
  induction cs with
  | nil => rfl
  | cons c cs ih =>
    obtain ⟨here, others⟩ := List.forall_mem_cons.mp solid
    rw [List.cons_append, scan_cons, here.1, ih others]
    rfl

/-- Blanks at the end of a text part nothing from it. -/
theorem tokens_append_blanks (cs : List Char) (blanks : ∀ c ∈ ds, isBlank c = true) : tokens (cs ++ ds) = tokens cs := by
  have empty : scan ds = ([], []) := by
    induction ds with
    | nil => rfl
    | cons d ds ih =>
      obtain ⟨here, others⟩ := List.forall_mem_cons.mp blanks
      rw [scan_cons, here, if_pos rfl, tokens, ih others]
      rfl
  have same : scan (cs ++ ds) = scan cs := by
    show List.foldr _ _ (cs ++ ds) = _
    rw [List.foldr_append]
    exact congrArg (fun start => List.foldr _ start cs) empty
  rw [tokens, tokens, same]

private theorem tokens_of_solid (solid : Solid cs) (some : cs ≠ []) : tokens cs = [cs] := by
  have scanned := scan_append_of_solid solid []
  rw [List.append_nil] at scanned
  rw [tokens, scanned]
  simp [scan, keep, some]

private theorem tokens_append_blank (solid : Solid cs) (some : cs ≠ []) (blank : isBlank c = true) (ds : List Char) :
    tokens (cs ++ c :: ds) = cs :: tokens ds := by
  rw [tokens, scan_append_of_solid solid, scan_cons, blank]
  simp [keep, some]

/-- Tokens with a blank before each of them are read one by one. -/
theorem tokens_spaced {token : List Char} {tokens : List (List Char)} (solid : ∀ t ∈ token :: tokens, Solid t)
    (some : ∀ t ∈ token :: tokens, t ≠ []) : Text.tokens (token ++ tokens.flatMap (' ' :: ·)) = token :: tokens := by
  induction tokens generalizing token with
  | nil =>
    rw [List.flatMap_nil, List.append_nil]
    exact tokens_of_solid (solid _ List.mem_cons_self) (some _ List.mem_cons_self)
  | cons next tokens ih =>
    obtain ⟨here, others⟩ := List.forall_mem_cons.mp solid
    obtain ⟨some, others_some⟩ := List.forall_mem_cons.mp some
    rw [List.flatMap_cons, List.cons_append, tokens_append_blank here some rfl, ih others others_some]

theorem cutAt_of_notMem (absent : c ∉ cs) : cutAt c cs = (cs, none) := by
  have all : ∀ d ∈ cs, (d != c) = true := fun d mem => bne_iff_ne.mpr (ne_of_mem_of_not_mem mem absent)
  rw [cutAt, List.dropWhile_eq_nil_iff.mpr all, List.takeWhile_eq_self_iff.mpr all]

theorem cutAt_append (absent : c ∉ cs) (ds : List Char) : cutAt c (cs ++ c :: ds) = (cs, some ds) := by
  have all : ∀ d ∈ cs, (d != c) = true := fun d mem => bne_iff_ne.mpr (ne_of_mem_of_not_mem mem absent)
  rw [cutAt, List.dropWhile_append_of_pos all, List.takeWhile_append_of_pos all]
  simp

/-- A character behind a text either is cut off with the end of it or stands behind what is left. -/
private theorem cutAt_append_singleton {d : Char} (differ : d ≠ c) (cs : List Char) :
    (cutAt c (cs ++ [d])).1 = (cutAt c cs).1 ∨ (cutAt c (cs ++ [d])).1 = (cutAt c cs).1 ++ [d] := by
  by_cases cut : c ∈ cs
  · obtain ⟨front, back, rfl, absent⟩ := List.eq_append_cons_of_mem cut
    rw [List.append_assoc, List.cons_append, cutAt_append absent, cutAt_append absent]
    exact .inl rfl
  · rw [cutAt_of_notMem cut, cutAt_of_notMem (by simp [cut, differ.symm])]
    exact .inr rfl

theorem dropLast?_append (front : List Char) (kept : front.getLast? ≠ some c) (cs : List Char) :
    dropLast? c (front ++ cs) = front ++ dropLast? c cs := by
  cases cs using List.reverseRecOn with
  | nil => simp [dropLast?, kept]
  | append_singleton cs d =>
    simp only [dropLast?, ← List.append_assoc, List.getLast?_concat, List.dropLast_concat]
    split
    · rfl
    · rw [List.append_assoc]

/-- The text names no tracked instruction and is no comment. -/
structure Foreign (cs : List Char) : Prop where
  head : cs.head? ≠ some ';'
  token : ∀ t ∈ (tokens (cutAt ';' cs).1).head?, Code.ofToken? t = none

/-- A carriage return at the end of a text is no part of a token. -/
theorem tokens_cutAt_dropLast? (cs : List Char) :
    tokens (cutAt ';' (dropLast? '\r' cs)).1 = tokens (cutAt ';' cs).1 := by
  unfold dropLast?
  split
  case isFalse => rfl
  case isTrue last =>
    obtain ⟨front, rfl⟩ : ∃ front, cs = front ++ ['\r'] := ⟨_, (List.dropLast_append_getLast? _ last).symm⟩
    rw [List.dropLast_concat]
    rcases cutAt_append_singleton (c := ';') (d := '\r') (by decide) front with cut | left
    · rw [cut]
    · rw [left, tokens_append_blanks _ (by simp [isBlank])]

theorem Foreign.dropLast? (foreign : Foreign cs) : Foreign (dropLast? '\r' cs) := by
  refine ⟨fun head => foreign.head ?_, fun t mem => foreign.token t (tokens_cutAt_dropLast? cs ▸ mem)⟩
  obtain ⟨rest, same⟩ : Text.dropLast? '\r' cs <+: cs := by
    unfold Text.dropLast?
    split
    · exact List.dropLast_prefix cs
    · exact List.prefix_refl cs
  rw [← same, List.head?_append, head]
  rfl

end Text

namespace Words

variable {α : Type}

theorem toUpper_of_isUpper {c : Char} (upper : c.isUpper = true) : c.toUpper = c :=
  Char.toUpper_eq_of_not_isLower (Char.not_isLower_of_isUpper upper)

theorem put_of_notMem {letter : Char} {entries : List (Char × α)} (fresh : letter ∉ entries.map Prod.fst) (value : α) :
    put letter value entries = entries ++ [(letter, value)] := by
  induction entries with
  | nil => rfl
  | cons entry rest ih =>
    rw [List.map_cons, List.mem_cons, not_or] at fresh
    rw [put, if_neg (Ne.symm fresh.1), ih fresh.2, List.cons_append]

theorem map_fst_put (letter : Char) (value : α) (entries : List (Char × α)) :
    (put letter value entries).map Prod.fst =
      if letter ∈ entries.map Prod.fst then entries.map Prod.fst else entries.map Prod.fst ++ [letter] := by
  by_cases here : letter ∈ entries.map Prod.fst
  · rw [if_pos here]
    induction entries with
    | nil => cases here
    | cons entry rest ih =>
      rw [put]
      split
      · rfl
      · next other =>
        rw [List.map_cons, List.mem_cons] at here
        rw [List.map_cons, ih (here.resolve_left (Ne.symm other)), List.map_cons]
  · rw [if_neg here, put_of_notMem here, List.map_append]
    rfl

/-- Letters are in upper case, and each is there once. -/
structure Lettered (w : Words α) : Prop where
  upper : ∀ entry ∈ w.entries, entry.1.isUpper = true
  nodup : (w.entries.map Prod.fst).Nodup

namespace Lettered

variable {w : Words α}

theorem empty : (Words.empty : Words α).Lettered := ⟨List.forall_mem_nil _, List.nodup_nil⟩

theorem set (lettered : w.Lettered) {letter : Char} (alpha : letter.isAlpha = true) (value : α) :
    (w.set letter value).Lettered := by
  have upper : ∀ l ∈ (w.set letter value).entries.map Prod.fst, l.isUpper = true := by
    have old : ∀ l ∈ w.entries.map Prod.fst, l.isUpper = true := by simpa using lettered.upper
    rw [Words.set, map_fst_put]
    split
    · exact old
    · intro l mem
      rcases List.mem_append.mp mem with before | here
      · exact old l before
      · rw [List.mem_singleton.mp here, Char.isUpper_toUpper_eq_isAlpha]
        exact alpha
  refine ⟨fun entry mem => upper _ (List.mem_map_of_mem mem), ?_⟩
  rw [Words.set, map_fst_put]
  split
  · exact lettered.nodup
  · next fresh => exact lettered.nodup.append (List.nodup_singleton _) (List.disjoint_singleton.mpr fresh)

end Lettered

variable [Scalar α]

/-- The numeral that the number of a letter is written as. -/
def numeral (letter : Char) (value : α) : Numeral := (Scalar.rounded (places letter) value).unsignedZero

/-- The words with every number rounded to its places. -/
def rounded (w : Words α) : Words α :=
  ⟨w.entries.map fun entry => (entry.1, Scalar.ofNumeral (numeral entry.1 entry.2))⟩

/-- Every number is written as a decimal. -/
def Plain (w : Words α) : Prop := ∀ entry ∈ w.entries, (numeral entry.1 entry.2).IsPlain

theorem get?_rounded (w : Words α) (letter : Char) :
    w.rounded.get? letter = (w.get? letter).map fun v => Scalar.ofNumeral (numeral letter.toUpper v) := by
  rw [get?, get?, rounded]
  generalize letter.toUpper = l
  induction w.entries with
  | nil => rfl
  | cons entry rest ih =>
    obtain ⟨l', v⟩ := entry
    by_cases same : l = l'
    · subst same
      simp
    · simp [List.lookup_cons, beq_false_of_ne same, ih]

theorem contains_rounded (w : Words α) (letter : Char) : w.rounded.contains letter = w.contains letter := by
  rw [contains, get?_rounded, Option.isSome_map, contains]

end Words

end Seam
