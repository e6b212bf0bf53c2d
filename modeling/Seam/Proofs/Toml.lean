import Seam.Proofs.Scanned
import Seam.Proofs.Shortest
import Seam.Settings.Toml

/-!
Values of TOML, each in front of the end of its line. Every text comes back as it was
(`Toml.basic_escaped`), also as a key (`Toml.key_keyText`), and so does every finite number
(`Toml.stands_number`): its digits are no date and no time, and the number nearest to them is
the one that was written.
-/
namespace Seam.Toml

open Text (Stops)

private theorem basic_cons_of_printable {c : Char} (quote : c ≠ '"') (backslash : c ≠ '\\') (printable : isPrintable c = true)
    (cs : List Char) : basic (c :: cs) = cons c (basic cs) := by
  rw [basic.eq_def]
  split
  · next same => cases same
  · next same => exact absurd (List.cons.inj same).1 quote
  · next same => exact absurd (List.cons.inj same).1 backslash
  · next same => exact absurd (List.cons.inj same).1 backslash
  · next same => exact absurd (List.cons.inj same).1 backslash
  · next d ds _ _ _ _ same =>
    obtain ⟨rfl, rfl⟩ := List.cons.inj same
    rw [if_pos (by simp [printable, backslash])]

private theorem basic_escape (c : Char) (cs : List Char) :
    basic (Text.escape (· == '\x7f') c ++ cs) = cons c (basic cs) := by
  rw [Text.escape]
  cases written : Text.letter? c with
  | some letter =>
    have stands := Text.ofLetter?_of_letter? written
    have listed := Text.letter?_mem written
    simp only [List.mem_cons, List.not_mem_nil, or_false] at listed
    have next : basic ('\\' :: letter :: cs) = (Text.ofLetter? letter).bind fun c => cons c (basic cs) := by
      rcases listed with rfl | rfl | rfl | rfl | rfl | rfl | rfl <;> simp [basic]
    rw [List.cons_append, List.singleton_append, next, stands]
    rfl
  | none =>
    obtain ⟨quote, backslash⟩ := Text.ne_of_letter?_eq_none written
    by_cases low : c.toNat < 0x20 ∨ c = '\x7f'
    · have small : c.toNat < 0x80 := by
        rcases low with low | rfl
        · omega
        · decide
      have number := Text.ofHex?_hexDigit c.toNat (by omega)
      have scalar : scalar? c.toNat = some c := by simp [scalar?, show c.toNat < 0xD800 by omega]
      simp [basic, low, number, scalar]
    · have visible : isPrintable c = true := by
        have other : c.toNat ≠ 0x7F := fun same => low (.inr (Char.toNat_inj.mp same))
        simp [isPrintable, other]
        omega
      dsimp only
      rw [if_neg (by simpa using low), List.singleton_append, basic_cons_of_printable quote backslash visible]

/-- The characters of a text as they stand between quotation marks. -/
def escaped (s : String) : List Char := Text.escaped (· == '\x7f') s

theorem quoted_append (s : String) (rest : List Char) : quoted s ++ rest = '"' :: (escaped s ++ '"' :: rest) :=
  Text.quoted_append _ s rest

/-- A text between quotation marks is read as it was. -/
theorem basic_escaped (s : String) (rest : List Char) : basic (escaped s ++ '"' :: rest) = some (s.toList, rest) := by
  rw [escaped, Text.escaped]
  induction s.toList with
  | nil => simp [basic]
  | cons c cs ih => rw [List.flatMap_cons, List.append_assoc, basic_escape, ih]; rfl

/-- What is written for a text on the end of a line is not three quotation marks. -/
private theorem accept_quotes (s : String) (rest : List Char) :
    Scan.accept ['"', '"', '"'] ('"' :: (escaped s ++ '"' :: '\n' :: rest)) =
      some (false, '"' :: (escaped s ++ '"' :: '\n' :: rest)) := by
  rw [escaped, Text.escaped]
  cases s.toList with
  | nil => rfl
  | cons c cs =>
    obtain ⟨d, ds, text, other⟩ : ∃ d ds, Text.escape (· == '\x7f') c = d :: ds ∧ d ≠ '"' := by
      rw [Text.escape]
      split
      · exact ⟨_, _, rfl, by decide⟩
      · next unwritten =>
        split
        · exact ⟨_, _, rfl, by decide⟩
        · exact ⟨_, _, rfl, (Text.ne_of_letter?_eq_none unwritten).1⟩
    rw [List.flatMap_cons, text]
    simp [Scan.accept, List.isPrefixOf?, Ne.symm other]

variable {α : Type} [Scalar α]

/-- The document is what its text at the end of a line stands for. -/
structure Stands (d : Document α) : Prop where
  visible : ∀ rest, Stops isBlank (chars d ++ rest)
  taken : ∀ depth rest, value (depth + 1) (chars d ++ '\n' :: rest) = some (d, '\n' :: rest)

theorem stands_text (s : String) : Stands (.text s : Document α) := by
  refine ⟨fun rest => .cons rfl _, fun depth rest => ?_⟩
  have plain : characters ('"' :: (escaped s ++ '"' :: '\n' :: rest)) = some (s.toList, '\n' :: rest) := by
    rw [characters, Scan.bind_eq (accept_quotes s rest), if_neg Bool.false_ne_true]
    exact basic_escaped s ('\n' :: rest)
  have read : text ('"' :: (escaped s ++ '"' :: '\n' :: rest)) = some (s, '\n' :: rest) := by
    rw [text, Scan.bind_eq plain, Scan.pure_apply, String.ofList_toList]
  have shown : chars (.text s : Document α) ++ '\n' :: rest = '"' :: (escaped s ++ '"' :: '\n' :: rest) := by
    rw [chars, quoted_append]
  have valued : (do return .text (← text) : Scan (Document α)) ('"' :: (escaped s ++ '"' :: '\n' :: rest)) =
      some (.text s, '\n' :: rest) := Scan.bind_eq read
  rw [shown]
  exact valued

theorem stands_truth (b : Bool) : Stands (.truth b : Document α) := by
  cases b <;> exact ⟨fun rest => .cons rfl _, fun depth rest => rfl⟩

theorem blanks_of_stops {cs : List Char} (stops : Stops isBlank cs) : blanks cs = some ((), cs) :=
  Scan.skipWhile_append stops (List.forall_mem_nil _)

/-- A name is written without quotation marks, of characters that need none, or as a text. -/
private theorem keyText_cases (name : String) :
    (keyText name = name.toList ∧ (∃ c cs, name.toList = c :: cs) ∧ ∀ c ∈ name.toList, isBare c = true) ∨
      keyText name = quoted name := by
  rw [keyText]
  split
  · next bare =>
    simp only [Bool.and_eq_true, Bool.not_eq_true', List.all_eq_true] at bare
    exact .inl ⟨rfl, List.exists_cons_of_ne_nil (by simpa using bare.1), bare.2⟩
  · exact .inr rfl

/-- A name is read up to what can be no part of it. -/
private theorem simpleKey_keyText (name : String) {rest : List Char} (stops : Stops isBare rest) :
    simpleKey (keyText name ++ rest) = some (name, rest) := by
  rcases keyText_cases name with ⟨text, ⟨d, ds, front⟩, bare⟩ | text
  · have taken := Scan.takeWhile1_append stops bare (front ▸ List.cons_ne_nil d ds)
    have first : isBare d = true := bare d (front ▸ List.mem_cons_self)
    have named : (do return String.ofList (← Scan.takeWhile1 isBare) : Scan String) (name.toList ++ rest) =
        some (name, rest) := by
      rw [Scan.bind_eq taken, Scan.pure_apply, String.ofList_toList]
    rw [text, simpleKey, Scan.bind_eq (Scan.peek?_apply _), ← named, front, List.cons_append, List.head?_cons]
    refine congrFun ?_ _
    split
    case h_3 => rfl
    all_goals
      next same =>
        cases same
        cases first
  · have read := basic_escaped name rest
    have named : (do return String.ofList (← basic) : Scan String) (escaped name ++ '"' :: rest) = some (name, rest) := by
      rw [Scan.bind_eq read, Scan.pure_apply, String.ofList_toList]
    rw [text, quoted_append]
    exact named

theorem exists_keyText (name : String) : ∃ c cs, keyText name = c :: cs ∧ (isBare c = true ∨ c = '"') := by
  rcases keyText_cases name with ⟨text, ⟨c, cs, front⟩, bare⟩ | text
  · exact ⟨c, cs, text.trans front, .inl (bare c (front ▸ List.mem_cons_self))⟩
  · exact ⟨'"', _, text, .inr rfl⟩

theorem isBlank_of_isBare {c : Char} (first : isBare c = true ∨ c = '"') : isBlank c = false := by
  have apart (d : Char) (neither : isBare d = false ∧ d ≠ '"') : c ≠ d := by
    rintro rfl
    simp [neither] at first
  simp [isBlank, apart ' ' (by decide), apart '\t' (by decide)]

/-- A key of one part is its name, up to the sign behind it and the blanks before that. -/
theorem key_keyText (name : String) {ws : List Char} {c : Char} (blank : ∀ d ∈ ws, isBlank d = true)
    (other : isBlank c = false ∧ c ≠ '.') {rest : List Char} (stops : Stops isBare (ws ++ c :: rest)) :
    key (keyText name ++ (ws ++ c :: rest)) = some ([name], c :: rest) := by
  have before : blanks (keyText name ++ (ws ++ c :: rest)) = some ((), keyText name ++ (ws ++ c :: rest)) := by
    obtain ⟨d, ds, text, first⟩ := exists_keyText name
    rw [text]
    exact blanks_of_stops (.cons (isBlank_of_isBare first) _)
  have behind : blanks (ws ++ c :: rest) = some ((), c :: rest) := Scan.skipWhile_append (.cons other.1 rest) blank
  have part : (do blanks; let name ← simpleKey; blanks; return name : Scan String) (keyText name ++ (ws ++ c :: rest)) =
      some (name, c :: rest) := by
    rw [Scan.bind_eq before, Scan.bind_eq (simpleKey_keyText name stops), Scan.bind_eq behind, Scan.pure_apply]
  have ended : Scan.accept ['.'] (c :: rest) = some (false, c :: rest) :=
    Scan.accept_of_stops (.cons (p := (· == '.')) (beq_eq_false_iff_ne.mpr other.2) rest) []
  obtain ⟨budget, length⟩ : ∃ budget, (keyText name ++ (ws ++ c :: rest)).length = budget + 1 := ⟨_, by simp; rfl⟩
  rw [key, Scan.bind_eq (Scan.get_apply _), length,
    Scan.bind_eq (Scan.items_singleton part ended (Scan.pure_apply true _) budget)]
  rfl

/-- Digits without underscores are taken as they are. -/
private theorem digits_append {ds rest : List Char} (all : ∀ c ∈ ds, c.isDigit = true) (nonempty : ds ≠ [])
    (stops : Stops Char.isDigit rest) (other : Stops (· == '_') rest) :
    digits Char.isDigit (ds ++ rest) = some (ds, rest) := by
  obtain ⟨budget, length⟩ : ∃ budget, (ds ++ rest).length = budget + 1 := by
    obtain ⟨c, cs, rfl⟩ := List.exists_cons_of_ne_nil nonempty
    exact ⟨_, rfl⟩
  have taken := Scan.takeWhile1_append stops all nonempty
  rw [digits, Scan.bind_eq (Scan.get_apply _), length,
    Scan.bind_eq (Scan.items_singleton taken (Scan.accept_of_stops other []) (Scan.pure_apply true rest) budget)]
  simp

private theorem wholeDigits_append {ds rest : List Char} (all : ∀ c ∈ ds, c.isDigit = true) (nonempty : ds ≠ [])
    (lead : ds.head? = some '0' → ds.length = 1) (stops : Stops Char.isDigit rest)
    (other : Stops (· == '_') rest) : wholeDigits (ds ++ rest) = some (ds, rest) := by
  by_cases zero : ds.head? = some '0'
  · obtain ⟨c, rfl⟩ := List.length_eq_one_iff.mp (lead zero)
    cases zero
    exact Scan.bind_eq (Scan.accept_cons '0' rest)
  · have first : Stops (· == '0') (ds ++ rest) := by
      intro c front
      rw [List.head?_append_of_ne_nil _ nonempty] at front
      rw [beq_eq_false_iff_ne]
      rintro rfl
      exact zero front
    rw [wholeDigits, Scan.bind_eq (Scan.accept_of_stops first []), if_neg Bool.false_ne_true]
    exact digits_append all nonempty stops other

private theorem sign_signText (negative : Bool) {cs : List Char} (minus : Stops (· == '-') cs) (plus : Stops (· == '+') cs) :
    sign (Decimal.signText negative ++ cs) = some (negative, cs) := by
  rw [sign, Scan.bind_eq (Scan.accept_signText negative minus)]
  cases negative with
  | true => rfl
  | false => exact Scan.bind_eq (Scan.accept_of_stops plus [])

/-- Digits with a point among them are a decimal. -/
private theorem decimal_append {cs whole places : List Char} (negative : Bool) (spells : Decimal.Spells cs whole places)
    (some : places ≠ []) (rest : List Char) :
    decimal (Decimal.signText negative ++ (cs ++ '\n' :: rest)) =
      .some (⟨negative, Decimal.ofDigits (whole ++ places), -places.length⟩, '\n' :: rest) := by
  have unpowered : exponent? ('\n' :: rest) = .some (0, '\n' :: rest) := rfl
  have wholes (c : Char) (mem : c ∈ whole) := spells.digits c (List.mem_append_left _ mem)
  have all (c : Char) (mem : c ∈ places) := spells.digits c (List.mem_append_right _ mem)
  have text : cs ++ '\n' :: rest = whole ++ '.' :: (places ++ '\n' :: rest) := by simp [spells.text, some]
  have unsigned {c : Char} (other : c.isDigit = false) : Stops (· == c) (whole ++ '.' :: (places ++ '\n' :: rest)) :=
    .of_isDigit other wholes spells.whole_ne_nil _
  rw [text, decimal, Scan.bind_eq (sign_signText negative (unsigned rfl) (unsigned rfl)),
    Scan.bind_eq (wholeDigits_append wholes spells.whole_ne_nil spells.lead (.cons rfl _) (.cons rfl _)),
    Scan.bind_eq (Scan.accept_cons '.' _), if_pos rfl,
    Scan.bind_eq (digits_append all some (.cons rfl _) (.cons rfl _)), Scan.bind_eq unpowered, Scan.pure_apply, zero_sub]

/-- A field takes its digits, or it fails. -/
private theorem field_cases (width least most : ℕ) (cs : List Char) :
    field width least most cs = none ∨
      (∃ n, field width least most cs = some (n, cs.drop width)) ∧ ∀ c ∈ cs.take width, c.isDigit = true := by
  rw [field]
  split
  · next given =>
    simp only [Bool.and_eq_true, List.all_eq_true] at given
    exact .inr ⟨⟨_, rfl⟩, given.1.1.2⟩
  · exact .inl rfl

/-- Where a point follows digits, no field of a date or of a time ends. -/
private theorem field_bind_eq_none {β : Type} {whole : List Char} (negative : Bool) (wholes : ∀ c ∈ whole, c.isDigit = true)
    {width : ℕ} (positive : 0 < width) {c : Char} (other : c.isDigit = false ∧ c ≠ '.') (least most : ℕ)
    (f : ℕ → Scan β) (rest : List Char) :
    (do let n ← field width least most; Scan.expect [c]; f n) (Decimal.signText negative ++ (whole ++ '.' :: rest)) =
      none := by
  rcases field_cases width least most (Decimal.signText negative ++ (whole ++ '.' :: rest)) with
    failed | ⟨⟨n, taken⟩, digits⟩
  · exact Scan.bind_eq_none failed
  · have unsigned : negative = false := by
      cases negative with
      | false => rfl
      | true =>
        have minus := digits '-' (by cases width <;> simp_all [Decimal.signText])
        cases minus
    subst unsigned
    have short : width ≤ whole.length := by
      by_contra long
      obtain ⟨k, more⟩ : ∃ k, width - whole.length = k + 1 := ⟨width - whole.length - 1, by omega⟩
      have point := digits '.' (by simp [Decimal.signText, List.take_append, more])
      cases point
    have stops : Stops (· == c) ((Decimal.signText false ++ (whole ++ '.' :: rest)).drop width) := by
      show Stops (· == c) ((whole ++ '.' :: rest).drop width)
      rw [List.drop_append_of_le_length short]
      by_cases none : whole.drop width = []
      · rw [none]
        exact .cons (p := (· == c)) (beq_eq_false_iff_ne.mpr other.2.symm) rest
      · exact .of_isDigit other.1 (fun d mem => wholes d (List.mem_of_mem_drop mem)) none _
    rw [Scan.bind_eq taken]
    exact Scan.bind_eq_none (Scan.expect_of_stops stops [])

/-- Digits up to a point are no date and no time. -/
private theorem moment_eq_none {whole : List Char} (negative : Bool) (wholes : ∀ c ∈ whole, c.isDigit = true)
    (rest : List Char) :
    moment (Decimal.signText negative ++ (whole ++ '.' :: rest)) = none := by
  have undated : date (Decimal.signText negative ++ (whole ++ '.' :: rest)) = none :=
    field_bind_eq_none negative wholes (by decide) (by decide) _ _ _ rest
  have untimed : time (Decimal.signText negative ++ (whole ++ '.' :: rest)) = none :=
    field_bind_eq_none negative wholes (by decide) (by decide) _ _ _ rest
  rw [moment, Scan.orElse_eq_right (Scan.bind_eq_none undated)]
  exact untimed

/-- What starts with a sign or with a digit is read as a number, a date or a time. -/
theorem value_of_sign {c : Char} {cs : List Char} (first : c = '-' ∨ c.isDigit = true) (depth : ℕ) :
    value (α := α) (depth + 1) (c :: cs) = numberOrMoment (c :: cs) := by
  rw [value, Scan.bind_eq (Scan.peek?_apply _), List.head?_cons]
  refine congrFun ?_ (c :: cs)
  split
  case h_9 => rfl
  all_goals
    next same =>
      cases same
      exact absurd first (by decide)

/-- A number is read from its digits around a point if it is nearest to what they denote. -/
private theorem numberOrMoment_append {x : α} {cs whole places : List Char} (negative : Bool)
    (spells : Decimal.Spells cs whole places)
    (some : places ≠ [])
    (nearest : decimalValue? ⟨negative, Decimal.ofDigits (whole ++ places), -places.length⟩ = .some x)
    (rest : List Char) :
    numberOrMoment (Decimal.signText negative ++ (cs ++ '\n' :: rest)) = .some (.number x, '\n' :: rest) := by
  have floated : float (Decimal.signText negative ++ (cs ++ '\n' :: rest)) = .some (x, '\n' :: rest) := by
    refine Scan.orElse_eq_left ?_
    rw [Scan.bind_eq (decimal_append negative spells some rest), nearest]
    rfl
  have unmoved : moment (Decimal.signText negative ++ (cs ++ '\n' :: rest)) = none := by
    rw [spells.text, if_neg some, List.append_assoc]
    exact moment_eq_none negative (fun c mem => spells.digits c (List.mem_append_left _ mem)) _
  rw [numberOrMoment, Scan.orElse_eq_right (Scan.bind_eq_none unmoved)]
  exact Scan.orElse_eq_left (Scan.bind_eq floated)

/-- Every finite number is the number that its text stands for. -/
theorem stands_number {x : Float} (finite : Scalar.isFinite x = true) : Stands (.number x) := by
  obtain ⟨d, shown, -⟩ := Binary64.exists_shortest finite .away
  obtain ⟨cs, whole, places, spells, some, text, same⟩ := d.exists_spells_withPoint
  have written (rest : List Char) : chars (.number x) ++ rest = Decimal.signText d.negative ++ (cs ++ rest) := by
    rw [← List.append_assoc, ← text, chars, shown]
    rfl
  have sign (rest : List Char) : ∃ c behind, Decimal.signText d.negative ++ (cs ++ rest) = c :: behind ∧
      (c = '-' ∨ c.isDigit = true) := by
    rw [spells.text, List.append_assoc]
    exact Decimal.exists_sign (fun c mem => spells.digits c (List.mem_append_left _ mem)) spells.whole_ne_nil d.negative _
  have nearest : decimalValue? ⟨d.negative, Decimal.ofDigits (whole ++ places), -places.length⟩ = Option.some x := by
    have back : Scalar.ofDecimal ⟨d.negative, Decimal.ofDigits (whole ++ places), -places.length⟩ = x :=
      Binary64.ofDecimal_eq_of_shortest finite shown rfl same
    rw [decimalValue?, back, finite, Bool.or_true, if_pos rfl]
  refine ⟨fun rest => ?_, fun depth rest => ?_⟩
  · obtain ⟨c, behind, front, first⟩ := sign rest
    rw [written, front]
    exact .cons (by simp [isBlank, Decimal.ne_of_sign first]) _
  · obtain ⟨c, behind, front, first⟩ := sign ('\n' :: rest)
    rw [written, front, value_of_sign first, ← front]
    exact numberOrMoment_append d.negative spells some nearest rest

end Seam.Toml
