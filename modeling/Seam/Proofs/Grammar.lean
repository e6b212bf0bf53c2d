import Seam.Proofs.Answer
import Seam.Proofs.Legible
import Seam.Proofs.Naming

/-!
The grammar of a line. A text is cut at its first semicolon and parted at its blanks in one
way (`Text.cutAt_eq_iff`, `Text.tokens_eq_iff`); a word is a letter of ASCII, alone or with a
decimal in digits of ASCII behind it (`Word`), and the words of a line give every letter the
number that it was given last (`Words.Gathers`). What a line is read as, and which lines are
refused, is said without the reader (`Command.Parses`, `Command.Malformed`), and the reader
accepts and refuses just that (`Command.readLine_iff_parses`).
-/
namespace Seam

namespace Text

variable {c : Char} {cs head : List Char} {ts : List (List Char)}

/-- The text stands before the first `c` of the whole, and the remark, if there is one, behind it. -/
def Cuts (c : Char) (cs head : List Char) (remark : Option (List Char)) : Prop :=
  c ∉ head ∧ cs = head ++ remark.elim [] (c :: ·)

theorem cutAt_eq_iff {remark : Option (List Char)} : cutAt c cs = (head, remark) ↔ Cuts c cs head remark := by
  have cut_of {head : List Char} {remark : Option (List Char)} (cuts : Cuts c cs head remark) : cutAt c cs = (head, remark) := by
    obtain ⟨absent, rfl⟩ := cuts
    cases remark with
    | none => simpa using cutAt_of_notMem absent
    | some text => exact cutAt_append absent text
  refine ⟨fun cut => ?_, cut_of⟩
  have cuts : ∃ front behind, Cuts c cs front behind := by
    by_cases mem : c ∈ cs
    · obtain ⟨front, back, rfl, absent⟩ := List.eq_append_cons_of_mem mem
      exact ⟨front, some back, absent, rfl⟩
    · exact ⟨cs, none, mem, by simp⟩
  obtain ⟨front, behind, cuts⟩ := cuts
  cases cut.symm.trans (cut_of cuts)
  exact cuts

/-- The text is made of the tokens with blanks around them, and at least one between two of them. -/
inductive Parts : List Char → List (List Char) → Prop
  | nil : Parts [] []
  | blank {c : Char} {cs : List Char} {ts : List (List Char)} (blank : isBlank c = true) (rest : Parts cs ts) :
      Parts (c :: cs) ts
  | token {t cs : List Char} {ts : List (List Char)} (some : t ≠ []) (whole : ∀ c ∈ t, isBlank c = false)
      (parted : ∀ c ∈ cs.head?, isBlank c = true) (rest : Parts cs ts) : Parts (t ++ cs) (t :: ts)

private theorem scan_append {t : List Char} (whole : ∀ c ∈ t, isBlank c = false) (cs : List Char) :
    scan (t ++ cs) = (t ++ (scan cs).1, (scan cs).2) := by
  induction t with
  | nil => rfl
  | cons c t ih =>
    obtain ⟨here, others⟩ := List.forall_mem_cons.mp whole
    rw [List.cons_append, scan_cons, here, ih others]
    rfl

private theorem Parts.tokens_eq (parts : Parts cs ts) : tokens cs = ts := by
  induction parts with
  | nil => rfl
  | blank blank _ ih => rw [tokens_blank _ blank, ih]
  | @token t cs ts some whole parted _ ih =>
    -- what follows the token opens no other one
    have closed : (scan cs).1 = [] := by
      cases cs with
      | nil => rfl
      | cons c cs => rw [scan_cons, parted c rfl]; rfl
    rw [tokens, scan_append whole, closed, List.append_nil]
    rw [tokens, closed] at ih
    simp only [keep, List.isEmpty_nil, ↓reduceIte] at ih
    simp [keep, some, ih]

/-- The token that a text starts with, if it starts with one, stands before the others. -/
private theorem Parts.of_scan (first : (scan cs).1 = cs.takeWhile fun c => !isBlank c)
    (behind : Parts (cs.dropWhile fun c => !isBlank c) (scan cs).2) : Parts cs (tokens cs) := by
  have joined := List.takeWhile_append_dropWhile (p := fun c => !isBlank c) (l := cs)
  rw [← first] at joined
  by_cases none : (scan cs).1 = []
  · rw [none, List.nil_append] at joined
    rw [joined] at behind
    simpa [tokens, keep, none] using behind
  · have whole : ∀ c ∈ (scan cs).1, isBlank c = false := by
      rw [first]
      intro c mem
      simpa using List.mem_takeWhile_imp mem
    have parted : ∀ c ∈ (cs.dropWhile fun c => !isBlank c).head?, isBlank c = true := by
      intro c mem
      have stopped := List.head?_dropWhile_not (fun c => !isBlank c) cs
      rw [Option.mem_def.mp mem] at stopped
      simpa using stopped
    have token := Parts.token none whole parted behind
    rw [joined] at token
    simpa [tokens, keep, none] using token

private theorem parts_scan (cs : List Char) :
    (scan cs).1 = (cs.takeWhile fun c => !isBlank c) ∧ Parts (cs.dropWhile fun c => !isBlank c) (scan cs).2 := by
  induction cs with
  | nil => exact ⟨rfl, .nil⟩
  | cons c cs ih =>
    obtain ⟨first, behind⟩ := ih
    by_cases blank : isBlank c = true
    · refine ⟨by simp [scan_cons, blank], ?_⟩
      simpa [scan_cons, blank] using Parts.blank blank (.of_scan first behind)
    · have solid : isBlank c = false := by simpa using blank
      simp [scan_cons, solid, first, behind]

theorem tokens_eq_iff : tokens cs = ts ↔ Parts cs ts := by
  constructor
  · rintro rfl
    obtain ⟨first, behind⟩ := parts_scan cs
    exact .of_scan first behind
  · exact Parts.tokens_eq

end Text

namespace Decimal

/-- Digits before a point and behind it: digits alone, digits with a point behind them and perhaps others behind
    that, or a point with digits behind it. -/
inductive Unsigned : List Char → List Char → List Char → Prop
  | whole {ds : List Char} (some : ds ≠ []) (digits : ∀ c ∈ ds, c.isDigit = true) : Unsigned ds ds []
  | pointed {ds places : List Char} (some : ds ≠ []) (digits : ∀ c ∈ ds, c.isDigit = true)
      (behind : ∀ c ∈ places, c.isDigit = true) : Unsigned (ds ++ '.' :: places) ds places
  | places {places : List Char} (some : places ≠ []) (behind : ∀ c ∈ places, c.isDigit = true) :
      Unsigned ('.' :: places) [] places

/-- The text is a decimal of digits of ASCII with a sign or none, and denotes its digits over the power of ten that
    has as many zeros as there are digits behind the point. -/
def Denotes (cs : List Char) (d : Decimal) : Prop :=
  ∃ sign body whole places, sign ∈ [[], ['+'], ['-']] ∧ cs = sign ++ body ∧ Unsigned body whole places ∧
    d = ⟨sign = ['-'], ofDigits (whole ++ places), -places.length⟩

variable {cs body whole places : List Char} {negative : Bool} {d : Decimal}

private theorem unsigned_iff : Unsigned cs whole places ↔ (∀ c ∈ whole, c.isDigit = true) ∧ (∀ c ∈ places, c.isDigit = true) ∧
    ¬ (whole = [] ∧ places = []) ∧ (cs = whole ∧ places = [] ∨ cs = whole ++ '.' :: places) := by
  constructor
  · intro unsigned
    cases unsigned with
    | whole some digits => exact ⟨digits, by simp, by simp [some], .inl ⟨rfl, rfl⟩⟩
    | pointed some digits behind => exact ⟨digits, behind, by simp [some], .inr rfl⟩
    | places some behind => exact ⟨by simp, behind, by simp [some], .inr rfl⟩
  · rintro ⟨digits, behind, some, ⟨rfl, rfl⟩ | rfl⟩
    · exact .whole (by simpa using some) digits
    · by_cases none : whole = []
      · subst none
        exact .places (by simpa using some) behind
      · exact .pointed none digits behind

/-- The digits of an unsigned decimal by the first character that is no digit, for any notion of a digit. -/
theorem Unsigned.parts (unsigned : Unsigned cs whole places) (p : Char → Bool) (digit : ∀ c, c.isDigit = true → p c = true)
    (point : p '.' = false) : cs.takeWhile p = whole ∧
      (cs.dropWhile p = [] ∧ places = [] ∨ cs.dropWhile p = '.' :: places) := by
  obtain ⟨digits, _, _, ⟨rfl, rfl⟩ | rfl⟩ := unsigned_iff.mp unsigned
  · have all : ∀ c ∈ cs, p c = true := fun c mem => digit c (digits c mem)
    exact ⟨List.takeWhile_eq_self_iff.mpr all, .inl ⟨List.dropWhile_eq_nil_iff.mpr all, rfl⟩⟩
  · have all : ∀ c ∈ whole, p c = true := fun c mem => digit c (digits c mem)
    rw [List.takeWhile_append_of_pos all, List.dropWhile_append_of_pos all]
    simp [point]

theorem Unsigned.readMagnitude?_eq (unsigned : Unsigned cs whole places) (negative : Bool) :
    readMagnitude? negative cs = some ⟨negative, ofDigits (whole ++ places), -places.length⟩ := by
  obtain ⟨front, back⟩ := unsigned.parts Char.isDigit (fun _ => id) rfl
  obtain ⟨_, behind, some, _⟩ := unsigned_iff.mp unsigned
  have taken : takeDigits cs = (whole, places, []) := by
    rcases back with ⟨none, rfl⟩ | point
    · rw [takeDigits, none, front]
    · rw [takeDigits, point, front]
      simp only
      rw [List.takeWhile_eq_self_iff.mpr behind, List.dropWhile_eq_nil_iff.mpr behind]
  have nonempty : (whole.isEmpty && places.isEmpty) = false := by simpa using some
  simp [readMagnitude?, taken, nonempty, readExponent?]

theorem Unsigned.isUnsigned_eq (unsigned : Unsigned cs whole places) : RawWord.isUnsigned cs = true := by
  obtain ⟨front, back⟩ := unsigned.parts Text.isDecimalDigit (fun _ => Text.isDecimalDigit_of_isDigit) (by decide)
  obtain ⟨_, behind, some, _⟩ := unsigned_iff.mp unsigned
  rcases back with ⟨none, rfl⟩ | point
  · rw [RawWord.isUnsigned, none, front]
    simpa using some
  · rw [RawWord.isUnsigned, point, front]
    have all : places.all Text.isDecimalDigit = true :=
      List.all_eq_true.mpr fun c mem => Text.isDecimalDigit_of_isDigit (behind c mem)
    have either := not_and_or.mp some
    simpa [all] using either

/-- What the digits of any script make up is digits and points. -/
private theorem mem_of_isUnsigned (unsigned : RawWord.isUnsigned cs = true) {c : Char} (mem : c ∈ cs) :
    Text.isDecimalDigit c = true ∨ c = '.' := by
  have joined := List.takeWhile_append_dropWhile (p := Text.isDecimalDigit) (l := cs)
  rw [← joined] at mem
  rcases List.mem_append.mp mem with front | back
  · exact .inl (List.mem_takeWhile_imp front)
  · unfold RawWord.isUnsigned at unsigned
    simp only at unsigned
    split at unsigned
    · next none => rw [none] at back; cases back
    · next places point =>
      rw [point] at back
      rcases List.mem_cons.mp back with rfl | behind
      · exact .inr rfl
      · simp only [Bool.and_eq_true, List.all_eq_true] at unsigned
        exact .inl (unsigned.1 c behind)
    · cases unsigned

theorem toNat_of_isDecimalDigit {c : Char} (digit : Text.isDecimalDigit c = true) : c.toNat ≤ 57 ∨ 1632 ≤ c.toNat := by
  obtain ⟨z, listed, within⟩ := List.any_eq_true.mp digit
  have rows : ∀ z ∈ Text.zeros, z = 48 ∨ 1632 ≤ z := by decide
  simp only [Bool.and_eq_true, decide_eq_true_eq] at within
  have := rows z listed
  omega

/-- Letters are no digits of any script, and no points. -/
private theorem not_isAlpha_of_isUnsigned (unsigned : RawWord.isUnsigned cs = true) {c : Char} (mem : c ∈ cs) :
    c.isAlpha = false := by
  rcases mem_of_isUnsigned unsigned mem with digit | rfl
  · have range := toNat_of_isDecimalDigit digit
    simp only [Char.isAlpha, Char.isUpper, Char.isLower, Bool.or_eq_false_iff, decide_eq_false_iff_not, Bool.and_eq_false_iff,
      UInt32.le_iff_toNat_le, ge_iff_le]
    change ¬ (65 ≤ c.toNat ∧ c.toNat ≤ 90) ∧ (¬ 97 ≤ c.toNat ∨ ¬ c.toNat ≤ 122)
    omega
  · rfl

private theorem takeDigits_spec (cs : List Char) : ∃ whole places rest, takeDigits cs = (whole, places, rest) ∧
    (∀ c ∈ whole, c.isDigit = true) ∧ (∀ c ∈ places, c.isDigit = true) ∧
      (cs = whole ++ rest ∧ places = [] ∨ cs = whole ++ '.' :: (places ++ rest)) := by
  have joined := List.takeWhile_append_dropWhile (p := Char.isDigit) (l := cs)
  have digits {ds : List Char} : ∀ c ∈ ds.takeWhile Char.isDigit, c.isDigit = true := fun c mem =>
    List.mem_takeWhile_imp mem
  unfold takeDigits
  simp only
  split
  · next r point =>
    rw [point] at joined
    refine ⟨_, _, _, rfl, digits, digits, .inr ?_⟩
    rw [List.takeWhile_append_dropWhile, joined]
  · exact ⟨_, _, _, rfl, digits, by simp, .inl ⟨joined.symm, rfl⟩⟩

/-- What is read of the digits of any script is digits of ASCII and a point: an exponent would begin with a letter. -/
private theorem exists_unsigned (script : RawWord.isUnsigned cs = true) (read : readMagnitude? negative cs = some d) :
    ∃ whole places, Unsigned cs whole places ∧ d = ⟨negative, ofDigits (whole ++ places), -places.length⟩ := by
  obtain ⟨whole, places, rest, taken, digits, behind, joined⟩ := takeDigits_spec cs
  rw [readMagnitude?, taken] at read
  simp only at read
  split at read
  · cases read
  · next some =>
    obtain ⟨e, exponent, rfl⟩ := Option.map_eq_some_iff.mp read
    cases rest with
    | nil =>
      cases exponent
      refine ⟨whole, places, unsigned_iff.mpr ⟨digits, behind, by simpa using some, ?_⟩, by simp⟩
      simpa using joined
    | cons c r =>
      have mem : c ∈ cs := by
        rcases joined with ⟨same, _⟩ | same <;> rw [same] <;> simp
      have letter := not_isAlpha_of_isUnsigned script mem
      rw [readExponent?] at exponent
      split at exponent
      · next e =>
        simp only [Bool.or_eq_true, decide_eq_true_eq] at e
        rcases e with rfl | rfl <;> cases letter
      · cases exponent

private theorem takeSign_spec (cs : List Char) :
    ∃ sign ∈ [[], ['+'], ['-']], cs = sign ++ (takeSign cs).2 ∧ (takeSign cs).1 = decide (sign = ['-']) := by
  unfold takeSign
  split
  · exact ⟨['-'], by simp, rfl, rfl⟩
  · exact ⟨['+'], by simp, rfl, rfl⟩
  · exact ⟨[], by simp, rfl, rfl⟩

theorem Unsigned.takeSign_eq (unsigned : Unsigned body whole places) {sign : List Char} (signs : sign ∈ [[], ['+'], ['-']]) :
    takeSign (sign ++ body) = (decide (sign = ['-']), body) := by
  have unsigned_first : ∀ c ∈ body.head?, c ≠ '-' ∧ c ≠ '+' := by
    intro c first
    obtain ⟨digits, _, some, same⟩ := unsigned_iff.mp unsigned
    have known : c.isDigit = true ∨ c = '.' := by
      cases whole with
      | nil =>
        rcases same with ⟨rfl, rfl⟩ | rfl
        · exact absurd ⟨rfl, rfl⟩ some
        · cases first; exact .inr rfl
      | cons w ws =>
        rcases same with ⟨rfl, _⟩ | rfl <;> (cases first; exact .inl (digits _ List.mem_cons_self))
    rcases known with digit | rfl
    · constructor <;> (rintro rfl; cases digit)
    · decide
  simp only [List.mem_cons, List.not_mem_nil, or_false] at signs
  rcases signs with rfl | rfl | rfl
  · rw [List.nil_append, takeSign]
    · rfl
    · rintro rest rfl
      exact (unsigned_first _ rfl).1 rfl
    · rintro rest rfl
      exact (unsigned_first _ rfl).2 rfl
  · rfl
  · rfl

end Decimal

/-- A text of digits of any script is read as a number just if it is a decimal in digits of ASCII. -/
private theorem Numeral.read?_eq_some_iff {cs : List Char} {n : Numeral} :
    RawWord.isUnsigned (Decimal.takeSign cs).2 = true ∧ read? cs = some n ↔ ∃ d, Decimal.Denotes cs d ∧ n = .finite d := by
  constructor
  · rintro ⟨script, read⟩
    obtain ⟨sign, signs, split_, negative⟩ := Decimal.takeSign_spec cs
    unfold read? at read
    simp only at read
    cases magnitude : Decimal.readMagnitude? (Decimal.takeSign cs).1 (Decimal.takeSign cs).2 with
    | some d =>
      rw [magnitude] at read
      cases read
      obtain ⟨whole, places, unsigned, rfl⟩ := Decimal.exists_unsigned script magnitude
      exact ⟨_, ⟨sign, _, whole, places, signs, split_, unsigned, by rw [negative]⟩, rfl⟩
    | none =>
      -- the infinities and the undefined value have names of letters
      have unnamed {name : String} (lettered : ∃ l ∈ name.toList, l.isAlpha = true) :
          String.ofList ((Decimal.takeSign cs).2.map Char.toLower) ≠ name := by
        rintro rfl
        obtain ⟨l, mem, alpha⟩ := lettered
        rw [String.toList_ofList] at mem
        obtain ⟨c, original, rfl⟩ := List.mem_map.mp mem
        rw [Char.isAlpha_toLower_eq_isAlpha, Decimal.not_isAlpha_of_isUnsigned script original] at alpha
        cases alpha
      have inf := @unnamed "inf" ⟨'i', by simp, rfl⟩
      have infinity := @unnamed "infinity" ⟨'i', by simp, rfl⟩
      have nan := @unnamed "nan" ⟨'n', by simp, rfl⟩
      simp [magnitude, inf, infinity, nan] at read
  · rintro ⟨d, ⟨sign, body, whole, places, signs, rfl, unsigned, rfl⟩, rfl⟩
    rw [read?, unsigned.takeSign_eq signs]
    refine ⟨unsigned.isUnsigned_eq, ?_⟩
    simp only [unsigned.readMagnitude?_eq]

/-- The token is a word: a letter of ASCII alone, or with a decimal behind it. -/
inductive Word : List Char → Char × Option Decimal → Prop
  | bare {letter : Char} (alpha : letter.isAlpha = true) : Word [letter] (letter, none)
  | number {letter : Char} {cs : List Char} {d : Decimal} (alpha : letter.isAlpha = true) (denotes : Decimal.Denotes cs d) :
      Word (letter :: cs) (letter, some d)

/-- The letter of a word and its number, which is zero if none is written. -/
def Word.value {α : Type} [Scalar α] (word : Char × Option Decimal) : Char × α := (word.1, word.2.elim 0 Scalar.ofDecimal)

theorem Decimal.Denotes.ne_nil {cs : List Char} {d : Decimal} (denotes : Denotes cs d) : cs ≠ [] := by
  obtain ⟨sign, body, whole, places, _, rfl, unsigned, _⟩ := denotes
  intro none
  obtain ⟨_, rfl⟩ := List.append_eq_nil_iff.mp none
  obtain ⟨_, _, some, same⟩ := unsigned_iff.mp unsigned
  rcases same with ⟨rfl, rfl⟩ | same
  · exact some ⟨rfl, rfl⟩
  · simp at same

namespace Words

variable {α : Type} {w : Words α} {entries : List (Char × α)}

/-- The number that a letter in upper case is given last, in either case. -/
def last? (entries : List (Char × α)) (letter : Char) : Option α :=
  (entries.reverse.find? fun entry => entry.1.toUpper == letter).map Prod.snd

/-- Each letter that is given in either case is there once and in upper case, in the order in which the letters are given
    first, and with the number that it is given last. -/
structure Gathers (w : Words α) (entries : List (Char × α)) : Prop where
  letters : w.entries.map Prod.fst = (entries.map fun entry => entry.1.toUpper).eraseDups
  numbers (letter : Char) : w.entries.lookup letter = last? entries letter

/-- The words that are given one after the other. -/
def gather (entries : List (Char × α)) : Words α := entries.foldl (fun words entry => words.set entry.1 entry.2) .empty

private theorem gather_append_singleton (entries : List (Char × α)) (entry : Char × α) :
    gather (entries ++ [entry]) = (gather entries).set entry.1 entry.2 := by
  rw [gather, List.foldl_append]
  rfl

private theorem nodup_gather (entries : List (Char × α)) : ((gather entries).entries.map Prod.fst).Nodup := by
  induction entries using List.reverseRecOn with
  | nil => exact List.nodup_nil
  | append_singleton entries entry ih =>
    rw [gather_append_singleton, set, map_fst_put]
    split
    · exact ih
    · next fresh => exact ih.append (List.nodup_singleton _) (List.disjoint_singleton.mpr fresh)

private theorem gathers_gather (entries : List (Char × α)) : (gather entries).Gathers entries := by
  induction entries using List.reverseRecOn with
  | nil => exact ⟨rfl, fun _ => rfl⟩
  | append_singleton entries entry ih =>
    rw [gather_append_singleton]
    constructor
    · rw [set, map_fst_put, ih.letters, List.map_append, List.eraseDups_append]
      by_cases known : entry.1.toUpper ∈ entries.map fun entry => entry.1.toUpper
      · rw [if_pos (List.mem_eraseDups.mpr known)]
        simp [List.removeAll, known]
      · rw [if_neg fun mem => known (List.mem_eraseDups.mp mem)]
        simp [List.removeAll, known, List.eraseDups_cons]
    · intro letter
      rw [set, lookup_put, ih.numbers, last?, last?, List.reverse_append, List.reverse_singleton, List.singleton_append,
        List.find?_cons]
      by_cases same : letter = entry.1.toUpper
      · simp [same]
      · simp [same, beq_false_of_ne (Ne.symm same)]

private theorem eq_of_lookup {xs ys : List (Char × α)} (letters : xs.map Prod.fst = ys.map Prod.fst)
    (nodup : (ys.map Prod.fst).Nodup)
    (numbers : ∀ letter, xs.lookup letter = ys.lookup letter) : xs = ys := by
  induction xs generalizing ys with
  | nil =>
    cases ys with
    | nil => rfl
    | cons => cases letters
  | cons x xs ih =>
    cases ys with
    | nil => cases letters
    | cons y ys =>
      obtain ⟨l, v⟩ := x
      obtain ⟨l', v'⟩ := y
      obtain ⟨rfl, rest⟩ := List.cons.inj letters
      rw [List.map_cons, List.nodup_cons] at nodup
      have here : v = v' := by simpa using numbers l
      have others : xs = ys := by
        refine ih rest nodup.2 fun letter => ?_
        by_cases same : letter = l
        · -- the letter stands in front, so neither list has it
          have absent (zs : List (Char × α)) (missing : l ∉ zs.map Prod.fst) : zs.lookup l = none := by
            rw [List.lookup_eq_none_iff]
            intro entry mem
            exact bne_iff_ne.mpr fun same => missing (List.mem_map.mpr ⟨entry, mem, same.symm⟩)
          rw [same, absent ys nodup.1, absent xs (rest ▸ nodup.1)]
        · have := numbers letter
          rwa [List.lookup_cons, List.lookup_cons, beq_false_of_ne same] at this
      rw [here, others]

private theorem gathers_iff : w.Gathers entries ↔ w = gather entries := by
  constructor
  · intro gathers
    have gathered := gathers_gather entries
    have same : w.entries = (gather entries).entries := by
      refine eq_of_lookup (gathers.letters.trans gathered.letters.symm) (nodup_gather entries) fun letter => ?_
      rw [gathers.numbers, gathered.numbers]
    cases w
    cases same
    rfl
  · rintro rfl
    exact gathers_gather entries

end Words

namespace Command

variable {α : Type} [Scalar α] {code : Code} {line : ℕ} {token : List Char} {tokens : List (List Char)}

private theorem readWord_eq_ok_iff {entry : Char × α} :
    readWord code line token = .ok entry ↔ ∃ word, Word token word ∧ entry = Word.value word := by
  constructor
  · intro read
    cases token with
    | nil => cases read
    | cons letter number =>
      unfold readWord RawWord.ofToken? at read
      by_cases alpha : letter.isAlpha = true
      · by_cases none : number = []
        · subst none
          simp only [alpha, Bool.not_true, Bool.false_eq_true, ↓reduceIte, List.isEmpty_nil, readNumber?] at read
          cases read
          exact ⟨_, .bare alpha, rfl⟩
        · have some : number.isEmpty = false := List.isEmpty_eq_false_iff.mpr none
          by_cases script : RawWord.isUnsigned (Decimal.takeSign number).2 = true
          · simp only [alpha, some, script, Bool.not_true, Bool.false_eq_true, ↓reduceIte, readNumber?, Scalar.read?] at read
            cases numeral : Numeral.read? number with
            | none => rw [numeral] at read; cases read
            | some n =>
              rw [numeral] at read
              cases read
              obtain ⟨d, denotes, rfl⟩ := Numeral.read?_eq_some_iff.mp ⟨script, numeral⟩
              exact ⟨_, .number alpha denotes, rfl⟩
          · simp only [alpha, some, script, Bool.not_true, Bool.false_eq_true, ↓reduceIte] at read
            cases read
      · simp only [alpha, Bool.not_false, ↓reduceIte] at read
        cases read
  · rintro ⟨word, spelled, rfl⟩
    cases spelled with
    | bare alpha => simp [readWord, RawWord.ofToken?, alpha, readNumber?, Word.value]
    | number alpha denotes =>
      obtain ⟨script, read⟩ := Numeral.read?_eq_some_iff.mpr ⟨_, denotes, rfl⟩
      refine readWord_of_number ?_ read
      simp [RawWord.ofToken?, alpha, script, denotes.ne_nil]

private theorem readWords_eq_ok_iff {words : Words α} :
    readWords code line tokens = .ok words ↔
      ∃ given, List.Forall₂ Word tokens given ∧ words.Gathers (given.map Word.value) := by
  simp only [Words.gathers_iff]
  unfold readWords Words.gather
  generalize Words.empty = held
  induction tokens generalizing held with
  | nil =>
    constructor
    · intro read
      cases read
      exact ⟨[], .nil, rfl⟩
    · rintro ⟨given, all, rfl⟩
      cases all
      rfl
  | cons token tokens ih =>
    rw [List.foldlM_cons, Except.bind_eq_ok_iff]
    constructor
    · rintro ⟨next, first, rest⟩
      obtain ⟨entry, read, same⟩ := Except.bind_eq_ok_iff.mp first
      cases same
      obtain ⟨word, spelled, rfl⟩ := readWord_eq_ok_iff.mp read
      obtain ⟨given, all, rfl⟩ := (ih _).mp rest
      exact ⟨word :: given, .cons spelled all, rfl⟩
    · rintro ⟨given, all, rfl⟩
      cases all with
      | @cons _ word _ given spelled all =>
        refine ⟨_, Except.bind_eq_ok_iff.mpr ⟨_, readWord_eq_ok_iff.mpr ⟨word, spelled, rfl⟩, rfl⟩, ?_⟩
        exact (ih _).mpr ⟨given, all, rfl⟩

/-- What a line is read as. -/
inductive Parses : List Char → Command α → Prop
  | comment (text : List Char) : Parses (';' :: text) (.comment (String.ofList text))
  | verbatim {cs head : List Char} {remark : Option (List Char)} (uncommented : cs.head? ≠ some ';')
      (cut : Text.Cuts ';' cs head remark)
      (untracked : ∀ token tokens code, Text.Parts head (token :: tokens) → ¬ Code.Names token code) :
      Parses cs (.verbatim (String.ofList cs))
  | instruction {cs head token : List Char} {remark : Option (List Char)} {tokens : List (List Char)} {code : Code}
      {given : List (Char × Option Decimal)} {words : Words α} (uncommented : cs.head? ≠ some ';')
      (cut : Text.Cuts ';' cs head remark) (parts : Text.Parts head (token :: tokens)) (names : Code.Names token code)
      (spelled : List.Forall₂ Word tokens given) (gathers : words.Gathers (given.map Word.value)) :
      Parses cs (.instruction ⟨code, words, remark.map String.ofList⟩)

/-- Behind a tracked instruction stands a token that is no word. -/
def Malformed (cs : List Char) : Prop :=
  ∃ head remark token tokens code, cs.head? ≠ some ';' ∧ Text.Cuts ';' cs head remark ∧ Text.Parts head (token :: tokens) ∧
    Code.Names token code ∧ ∃ t ∈ tokens, ∀ word, ¬ Word t word

private theorem exists_given_iff : (∃ given, List.Forall₂ Word tokens given) ↔ ∀ t ∈ tokens, ∃ word, Word t word := by
  constructor
  · rintro ⟨given, all⟩ t mem
    induction all with
    | nil => cases mem
    | cons spelled _ ih =>
      rcases List.mem_cons.mp mem with rfl | later
      · exact ⟨_, spelled⟩
      · exact ih later
  · intro all
    induction tokens with
    | nil => exact ⟨[], .nil⟩
    | cons t ts ih =>
      obtain ⟨⟨word, spelled⟩, others⟩ := List.forall_mem_cons.mp all
      obtain ⟨given, rest⟩ := ih others
      exact ⟨word :: given, .cons spelled rest⟩

private theorem foreign_iff {cs head : List Char} {remark : Option (List Char)} (cut : Text.Cuts ';' cs head remark) :
    Text.Foreign cs ↔ cs.head? ≠ some ';' ∧ ∀ token tokens code, Text.Parts head (token :: tokens) → ¬ Code.Names token code := by
  have front : (Text.cutAt ';' cs).1 = head := congrArg Prod.fst (Text.cutAt_eq_iff.mpr cut)
  constructor
  · intro foreign
    refine ⟨foreign.head, fun token tokens code parts names => ?_⟩
    have unnamed := foreign.token token (by rw [front, Text.tokens_eq_iff.mpr parts]; rfl)
    rw [Code.ofToken?_eq_some_iff.mpr names] at unnamed
    cases unnamed
  · rintro ⟨uncommented, untracked⟩
    refine ⟨uncommented, fun token first => ?_⟩
    rw [front] at first
    obtain ⟨tokens, parts⟩ := List.head?_eq_some_iff.mp first
    cases named : Code.ofToken? token with
    | none => rfl
    | some code => exact absurd (Code.ofToken?_eq_some_iff.mp named) (untracked token tokens code (Text.tokens_eq_iff.mp parts))

private theorem parses_iff {cs : List Char} {c : Command α} : readLine line cs = .ok c ↔ Parses cs c := by
  have cut : Text.Cuts ';' cs (Text.cutAt ';' cs).1 (Text.cutAt ';' cs).2 := Text.cutAt_eq_iff.mp rfl
  rw [readLine_eq_ok_iff]
  constructor
  · rintro (⟨text, rfl, rfl⟩ | ⟨foreign, rfl⟩ | ⟨token, tokens, code, words, uncommented, parts, named, read, rfl⟩)
    · exact .comment text
    · obtain ⟨uncommented, untracked⟩ := (foreign_iff cut).mp foreign
      exact .verbatim uncommented cut untracked
    · obtain ⟨given, spelled, gathers⟩ := readWords_eq_ok_iff.mp read
      exact .instruction uncommented cut (Text.tokens_eq_iff.mp parts) (Code.ofToken?_eq_some_iff.mp named) spelled gathers
  · intro parses
    cases parses with
    | comment text => exact .inl ⟨text, rfl, rfl⟩
    | verbatim uncommented cut untracked => exact .inr (.inl ⟨(foreign_iff cut).mpr ⟨uncommented, untracked⟩, rfl⟩)
    | instruction uncommented cut parts names spelled gathers =>
      refine .inr (.inr ⟨_, _, _, _, uncommented, ?_, Code.ofToken?_eq_some_iff.mpr names,
        readWords_eq_ok_iff.mpr ⟨_, spelled, gathers⟩, ?_⟩)
      · rw [Text.cutAt_eq_iff.mpr cut, Text.tokens_eq_iff.mpr parts]
      · rw [Text.cutAt_eq_iff.mpr cut]

/-- A line is malformed, or else it can be parsed. -/
private theorem exists_parses_iff {cs : List Char} : (∃ c : Command α, Parses cs c) ↔ ¬ Malformed cs := by
  constructor
  · rintro ⟨c, parses⟩ ⟨head, remark, token, tokens, code, uncommented, cut, parts, names, t, mem, unspelled⟩
    -- a line is cut and parted in one way
    have same_head {head' : List Char} {remark' : Option (List Char)} (cut' : Text.Cuts ';' cs head' remark') : head' = head := by
      have cuts := (Text.cutAt_eq_iff.mpr cut').symm.trans (Text.cutAt_eq_iff.mpr cut)
      exact (Prod.mk.inj cuts).1
    cases parses with
    | comment text => exact uncommented rfl
    | verbatim _ cut' untracked =>
      rw [same_head cut'] at untracked
      exact untracked token tokens code parts names
    | instruction _ cut' parts' _ spelled =>
      rw [same_head cut'] at parts'
      obtain ⟨_, rfl⟩ := List.cons.inj (parts'.tokens_eq.symm.trans parts.tokens_eq)
      obtain ⟨word, spells⟩ := exists_given_iff.mp ⟨_, spelled⟩ t mem
      exact unspelled word spells
  · intro formed
    by_cases remark : cs.head? = some ';'
    · obtain ⟨text, rfl⟩ := List.head?_eq_some_iff.mp remark
      exact ⟨_, .comment text⟩
    · have cut : Text.Cuts ';' cs (Text.cutAt ';' cs).1 (Text.cutAt ';' cs).2 := Text.cutAt_eq_iff.mp rfl
      by_cases tracked : ∃ token tokens code, Text.Parts (Text.cutAt ';' cs).1 (token :: tokens) ∧ Code.Names token code
      · obtain ⟨token, tokens, code, parts, names⟩ := tracked
        have all : ∀ t ∈ tokens, ∃ word, Word t word := by
          intro t mem
          by_contra unspelled
          exact formed ⟨_, _, token, tokens, code, remark, cut, parts, names, t, mem, not_exists.mp unspelled⟩
        obtain ⟨given, spelled⟩ := exists_given_iff.mpr all
        exact ⟨_, .instruction remark cut parts names spelled (Words.gathers_gather _)⟩
      · refine ⟨_, .verbatim remark cut fun token tokens code parts names => ?_⟩
        exact tracked ⟨token, tokens, code, parts, names⟩

/-- The reader accepts just what can be parsed, and refuses just the malformed lines, by their numbers. -/
theorem readLine_iff_parses (line : ℕ) (cs : List Char) :
    (∀ c : Command α, readLine line cs = .ok c ↔ Parses cs c) ∧
      ((∃ fault : Fault α, readLine line cs = .error fault) ↔ Malformed cs) ∧
        ∀ fault : Fault α, readLine line cs = .error fault → ∃ reason, fault = .invalidSyntax line reason := by
  refine ⟨fun c => parses_iff, ⟨?_, fun malformed => ?_⟩, fun fault failed => invalidSyntax_of_readLine failed⟩
  · rintro ⟨fault, failed⟩
    by_contra formed
    obtain ⟨c, parses⟩ := (exists_parses_iff (α := α)).mpr formed
    rw [parses_iff.mpr parses] at failed
    cases failed
  · cases read : (readLine line cs : Except (Fault α) (Command α)) with
    | error fault => exact ⟨fault, rfl⟩
    | ok c => exact absurd malformed (exists_parses_iff.mp ⟨c, parses_iff.mp read⟩)

end Command

end Seam
