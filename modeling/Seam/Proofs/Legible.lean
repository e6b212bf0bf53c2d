import Seam.Proofs.Admitted
import Seam.Proofs.Spelling

/-!
Lines that are read back from what is written for them. A line that could have been
read is read as itself with its numbers rounded to their places
(`Command.Formed.readLine_chars`), and where its terminator leaves a carriage return to it,
that return ends its text (`Command.Legible.dropLast?_chars`). Neither makes a line wrong
that was not (`Command.Admitted.rounded`, `Command.Admitted.chomp`).
-/
namespace Seam

/-- The text without a carriage return at its end. -/
def Text.chomp (text : String) : String := String.ofList (dropLast? '\r' text.toList)

private theorem Text.notMem_chomp {c : Char} {text : String} (absent : c ∉ text.toList) : c ∉ (Text.chomp text).toList := by
  rw [Text.chomp, String.toList_ofList, dropLast?]
  split
  · exact fun mem => absent (List.mem_of_mem_dropLast mem)
  · exact absent

private theorem Text.mem_of_cutAt {c d : Char} {cs remark : List Char} (cut : (cutAt c cs).2 = some remark) (mem : d ∈ remark) :
    d ∈ cs := by
  unfold cutAt at cut
  split at cut
  · cases cut
  · next dropped =>
    cases cut
    exact (List.dropWhile_suffix _).mem (dropped ▸ List.mem_cons_of_mem _ mem)

namespace Command

section
variable {α : Type}

/-- The line without a carriage return at the end of its text. -/
def chomp : Command α → Command α
  | .instruction i => .instruction { i with comment := i.comment.map Text.chomp }
  | .comment text => .comment (Text.chomp text)
  | .verbatim text => .verbatim (Text.chomp text)

/-- The line could have been read: its letters are in upper case, its texts end no line, and what is kept as it stands
    is neither a comment nor a tracked instruction. -/
def Legible : Command α → Prop
  | .instruction i => i.words.Lettered ∧ ∀ text ∈ i.comment, '\n' ∉ text.toList
  | .comment text => '\n' ∉ text.toList
  | .verbatim text => '\n' ∉ text.toList ∧ Text.Foreign text.toList

/-- The line could have been read, if not as a line of a text. -/
def Formed : Command α → Prop
  | .instruction i => i.words.Lettered
  | .comment _ => True
  | .verbatim text => Text.Foreign text.toList

theorem Legible.formed {c : Command α} (legible : c.Legible) : c.Formed := by
  cases c with
  | instruction i => exact legible.1
  | comment text => trivial
  | verbatim text => exact legible.2

theorem Legible.chomp {c : Command α} (legible : c.Legible) : c.chomp.Legible := by
  cases c with
  | instruction i =>
    refine ⟨legible.1, fun text given => ?_⟩
    obtain ⟨whole, original, rfl⟩ := Option.map_eq_some_iff.mp given
    exact Text.notMem_chomp (legible.2 whole original)
  | comment text => exact Text.notMem_chomp legible
  | verbatim text =>
    refine ⟨Text.notMem_chomp legible.1, ?_⟩
    rw [Text.chomp, String.toList_ofList]
    exact legible.2.dropLast?

@[simp] theorem code?_chomp (c : Command α) : c.chomp.code? = c.code? := by cases c <;> rfl

@[simp] theorem words?_chomp (c : Command α) : c.chomp.words? = c.words? := by cases c <;> rfl

end

variable {α : Type} [Scalar α]

/-- The line with its numbers rounded to their places. -/
def rounded : Command α → Command α
  | .instruction i => .instruction { i with words := i.words.rounded }
  | other => other

/-- Every number of the line is written as a decimal. -/
def Plain (c : Command α) : Prop := ∀ w ∈ c.words?, w.Plain

/-- Every number of the line is finite. -/
def FiniteWords (c : Command α) : Prop := ∀ w ∈ c.words?, ∀ entry ∈ w.entries, Scalar.isFinite entry.2 = true

@[simp] theorem code?_rounded (c : Command α) : c.rounded.code? = c.code? := by cases c <;> rfl

@[simp] theorem words?_rounded (c : Command α) : c.rounded.words? = c.words?.map Words.rounded := by cases c <;> rfl

theorem solid_name (code : Code) : Text.Solid code.name.toList ∧ code.name.toList ≠ [] := by
  cases code <;> simp [Code.name, Text.Solid, Text.isBlank]

private theorem solid_wordText {letter : Char} (upper : letter.isUpper = true) (value : α) :
    Text.Solid (wordText letter value) :=
  List.forall_mem_cons.mpr ⟨Text.solid_of_isUpper upper, Numeral.solid_text _⟩

theorem readWord_of_number {code : Code} {line : ℕ} {letter : Char} {number : List Char} {n : Numeral}
    (spelled : RawWord.ofToken? (letter :: number) = some ⟨letter, some number⟩) (read : Numeral.read? number = some n) :
    (readWord code line (letter :: number) : Except (Fault α) (Char × α)) = .ok (letter, Scalar.ofNumeral n) := by
  rw [readWord, spelled]
  simp only [readNumber?, Scalar.read?, read, Option.map_some]

private theorem readWord_wordText (code : Code) (line : ℕ) {letter : Char} {value : α} (upper : letter.isUpper = true)
    (plain : (Words.numeral letter value).IsPlain) :
    (readWord code line (wordText letter value) : Except (Fault α) (Char × α)) =
      .ok (letter, Scalar.ofNumeral (Words.numeral letter value)) := by
  obtain ⟨read, unsigned⟩ := Numeral.read?_text plain
  have alpha : letter.isAlpha = true := by rw [Char.isAlpha, upper, Bool.true_or]
  have some : (Words.numeral letter value).text.isEmpty = false := by
    rw [List.isEmpty_eq_false_iff]
    intro none
    rw [none] at unsigned
    cases unsigned
  refine readWord_of_number ?_ read
  rw [← Words.numeral, RawWord.ofToken?]
  simp only [alpha, some, unsigned, Bool.not_true, Bool.false_eq_true, ↓reduceIte]

/-- Words that are written behind others are read behind them. -/
private theorem foldlM_wordText (code : Code) (line : ℕ) {held entries : List (Char × α)}
    (upper : ∀ entry ∈ entries, entry.1.isUpper = true) (plain : (Words.mk entries).Plain)
    (nodup : ((held ++ entries).map Prod.fst).Nodup) :
    (entries.map fun entry => wordText entry.1 entry.2).foldlM (fun (words : Words α) token => do
      let (letter, value) ← readWord code line token
      return words.set letter value) (Words.mk held).rounded = .ok (Words.mk (held ++ entries)).rounded := by
  induction entries generalizing held with
  | nil => rw [List.append_nil]; rfl
  | cons entry rest ih =>
    obtain ⟨here_upper, others⟩ := List.forall_mem_cons.mp upper
    obtain ⟨here, rest_plain⟩ := List.forall_mem_cons.mp plain
    have fresh : entry.1 ∉ (Words.mk held).rounded.entries.map Prod.fst := by
      rw [Words.rounded, List.map_map]
      rw [List.map_append, List.map_cons] at nodup
      exact fun mem => (List.nodup_append.mp nodup).2.2 _ mem _ List.mem_cons_self rfl
    have set : (Words.mk held).rounded.set entry.1 (Scalar.ofNumeral (Words.numeral entry.1 entry.2)) =
        (Words.mk (held ++ [entry])).rounded := by
      rw [Words.set, Words.toUpper_of_isUpper here_upper, Words.put_of_notMem fresh]
      simp [Words.rounded]
    have later := @ih (held ++ [entry]) others rest_plain (by simpa using nodup)
    rw [List.append_assoc, List.singleton_append] at later
    rw [List.map_cons, List.foldlM_cons, readWord_wordText code line here_upper here, ← later, ← set]
    rfl

/-- Words that are written one after the other are read one after the other. -/
private theorem readWords_wordText (code : Code) (line : ℕ) {w : Words α} (lettered : w.Lettered) (plain : w.Plain) :
    readWords code line (w.entries.map fun entry => wordText entry.1 entry.2) = .ok w.rounded :=
  @foldlM_wordText _ _ code line [] w.entries lettered.upper plain lettered.nodup

variable {c : Command α} {cs : List Char} {line : ℕ}

private theorem readLine_of_head? (uncommented : cs.head? ≠ some ';') :
    (readLine line cs : Except (Fault α) (Command α)) = match Text.tokens (Text.cutAt ';' cs).1 with
      | [] => .ok (.verbatim (String.ofList cs))
      | token :: tokens => match Code.ofToken? token with
        | none => .ok (.verbatim (String.ofList cs))
        | some code => do
          let words ← readWords code line tokens
          return .instruction ⟨code, words, (Text.cutAt ';' cs).2.map String.ofList⟩ := by
  rw [readLine.eq_def]
  split
  · exact absurd rfl uncommented
  · rfl

/-- What a line is read as. -/
theorem readLine_eq_ok_iff :
    readLine line cs = .ok c ↔ (∃ text, cs = ';' :: text ∧ c = .comment (String.ofList text)) ∨
      (Text.Foreign cs ∧ c = .verbatim (String.ofList cs)) ∨
        ∃ token tokens code words, cs.head? ≠ some ';' ∧ Text.tokens (Text.cutAt ';' cs).1 = token :: tokens ∧
          Code.ofToken? token = some code ∧ readWords code line tokens = .ok words ∧
            c = .instruction ⟨code, words, (Text.cutAt ';' cs).2.map String.ofList⟩ := by
  by_cases remark : cs.head? = some ';'
  · obtain ⟨text, rfl⟩ : ∃ text, cs = ';' :: text := by
      cases cs with
      | nil => cases remark
      | cons _ text => cases remark; exact ⟨text, rfl⟩
    have foreign : ¬ Text.Foreign (';' :: text) := fun foreign => foreign.head rfl
    simp [readLine, foreign, eq_comm]
  · have uncommented (text : List Char) : cs ≠ ';' :: text := fun same => remark (by rw [same]; rfl)
    rw [readLine_of_head? remark]
    cases tokens : Text.tokens (Text.cutAt ';' cs).1 with
    | nil =>
      have foreign : Text.Foreign cs := ⟨remark, by rw [tokens]; simp⟩
      simp [uncommented, foreign, eq_comm]
    | cons token tokens' =>
      cases named : Code.ofToken? token with
      | none =>
        have foreign : Text.Foreign cs := ⟨remark, by rw [tokens]; simpa using named⟩
        simp [uncommented, foreign, named, eq_comm]
      | some code =>
        have domestic : ¬ Text.Foreign cs := fun foreign => by
          have unnamed := foreign.token token (by rw [tokens]; rfl)
          cases named.symm.trans unnamed
        cases words : (readWords code line tokens' : Except (Fault α) (Words α)) <;>
          simp [uncommented, domestic, remark, named, words, bind, Except.bind, pure, Except.pure, eq_comm]

/-- A line without a semicolon that starts with a tracked instruction. -/
theorem readLine_of_tokens (token : List Char) (tokens : List (List Char)) {code : Code} {words : Words α}
    (parts : Text.cutAt ';' cs = (cs, none) ∧ Text.tokens cs = token :: tokens) (named : Code.ofToken? token = some code)
    (read : readWords code line tokens = .ok words) : readLine line cs = .ok (.ofWords code words) := by
  obtain ⟨uncut, parted⟩ := parts
  refine readLine_eq_ok_iff.mpr (.inr (.inr ⟨token, tokens, code, words, ?_, ?_, named, read, ?_⟩))
  · intro remark
    obtain ⟨text, rfl⟩ := List.head?_eq_some_iff.mp remark
    cases uncut
  · rw [uncut, parted]
  · rw [uncut]
    rfl

/-- An instruction as written without its comment. -/
def bodyText (i : Instruction α) : List Char :=
  i.code.name.toList ++ (i.words.entries.map fun entry => wordText entry.1 entry.2).flatMap (' ' :: ·)

theorem chars_instruction (i : Instruction α) :
    (Command.instruction i).chars = bodyText i ++ match i.comment with
      | none => []
      | some text => ' ' :: ';' :: text.toList := by
  rw [bodyText, List.flatMap_map]
  rfl

/-- Between the words of an instruction nothing stands but single spaces. -/
private theorem notMem_bodyText {i : Instruction α} (lettered : i.words.Lettered) {d : Char}
    (parting : Text.isBlank d = true ∨ d = ';') (differ : d ≠ ' ') : d ∉ bodyText i := by
  have absent {t : List Char} (solid : Text.Solid t) : d ∉ t := by
    rcases parting with blank | rfl
    · exact solid.notMem_of_isBlank blank
    · exact solid.notMem_semicolon
  intro mem
  rcases List.mem_append.mp mem with name | words
  · exact absent (solid_name i.code).1 name
  · obtain ⟨t, listed, within⟩ := List.mem_flatMap.mp words
    obtain ⟨entry, given, rfl⟩ := List.mem_map.mp listed
    exact absent (solid_wordText (lettered.upper entry given) entry.2) ((List.mem_cons.mp within).resolve_left differ)

private theorem tokens_bodyText {i : Instruction α} (lettered : i.words.Lettered) :
    Text.tokens (bodyText i) = i.code.name.toList :: i.words.entries.map fun entry => wordText entry.1 entry.2 := by
  obtain ⟨name_solid, name_some⟩ := solid_name i.code
  refine Text.tokens_spaced (List.forall_mem_cons.mpr ⟨name_solid, fun t mem => ?_⟩)
    (List.forall_mem_cons.mpr ⟨name_some, fun t mem => ?_⟩)
  · obtain ⟨entry, listed, rfl⟩ := List.mem_map.mp mem
    exact solid_wordText (lettered.upper entry listed) entry.2
  · obtain ⟨entry, _, rfl⟩ := List.mem_map.mp mem
    exact List.cons_ne_nil _ _

/-- The comment of an instruction is cut off with the semicolon, and leaves a space. -/
private theorem cutAt_chars {i : Instruction α} (lettered : i.words.Lettered) :
    ∃ trail, (∀ c ∈ trail, Text.isBlank c = true) ∧
      Text.cutAt ';' (Command.instruction i).chars = (bodyText i ++ trail, i.comment.map String.toList) := by
  have uncut : ';' ∉ bodyText i := notMem_bodyText lettered (.inr rfl) (by decide)
  rw [chars_instruction]
  cases i.comment with
  | none => exact ⟨[], List.forall_mem_nil _, by rw [List.append_nil]; exact Text.cutAt_of_notMem uncut⟩
  | some text =>
    refine ⟨[' '], by simp [Text.isBlank], ?_⟩
    rw [List.append_cons]
    exact Text.cutAt_append (by simpa using uncut) _

private theorem head?_chars (i : Instruction α) : (Command.instruction i).chars.head? ≠ some ';' := by
  obtain ⟨solid, nonempty⟩ := solid_name i.code
  rw [chars_instruction, bodyText, List.append_assoc, List.head?_append_of_ne_nil _ nonempty]
  exact fun first => solid.notMem_semicolon (List.mem_of_mem_head? first)

/-- A line that could have been read is read as itself, with its numbers as they were written. -/
theorem Formed.readLine_chars (formed : c.Formed) (plain : c.Plain) (line : ℕ) : readLine line c.chars = .ok c.rounded := by
  rw [readLine_eq_ok_iff]
  cases c with
  | comment text => exact .inl ⟨text.toList, rfl, by rw [String.ofList_toList]; rfl⟩
  | verbatim text => exact .inr (.inl ⟨formed, by rw [chars, String.ofList_toList]; rfl⟩)
  | instruction i =>
    obtain ⟨trail, blanks, cut⟩ := cutAt_chars formed
    refine .inr (.inr ⟨_, _, i.code, i.words.rounded, head?_chars i, ?_, Code.ofToken?_name i.code,
      readWords_wordText i.code line formed (plain _ rfl), ?_⟩)
    · rw [cut, Text.tokens_append_blanks _ blanks]
      exact tokens_bodyText formed
    · rw [cut, Option.map_map, Function.comp_def]
      simp [rounded]

theorem Legible.readLine_chars (legible : c.Legible) (plain : c.Plain) (line : ℕ) : readLine line c.chars = .ok c.rounded :=
  legible.formed.readLine_chars plain line

/-- What stands on a line that is no tracked instruction is kept as it is. -/
theorem chars_of_readLine (read : readLine line cs = .ok c) (untracked : c.code? = none) : c.chars = cs := by
  rcases readLine_eq_ok_iff.mp read with ⟨text, rfl, rfl⟩ | ⟨_, rfl⟩ | ⟨_, _, _, _, _, _, _, _, rfl⟩
  · rw [chars, String.toList_ofList]
  · rw [chars, String.toList_ofList]
  · cases untracked

theorem lettered_of_readWords {code : Code} {tokens : List (List Char)} {words : Words α}
    (read : readWords code line tokens = .ok words) : words.Lettered := by
  have empty : (Words.empty : Words α).Lettered := .empty
  rw [readWords] at read
  generalize Words.empty = held at read empty
  induction tokens generalizing held with
  | nil => cases read; exact empty
  | cons token tokens ih =>
    rw [List.foldlM_cons, Except.bind_eq_ok_iff] at read
    obtain ⟨more, first, rest⟩ := read
    obtain ⟨⟨letter, v⟩, word, same⟩ := Except.bind_eq_ok_iff.mp first
    cases same
    refine ih _ rest (empty.set ?_ v)
    rw [readWord] at word
    split at word
    · cases word
    · next spelled =>
      split at word
      · cases word
        cases token with
        | nil => cases spelled
        | cons l digits =>
          rw [RawWord.ofToken?] at spelled
          split_ifs at spelled with other <;> cases spelled <;> simpa using other
      · cases word

theorem formed_of_readLine (read : readLine line cs = .ok c) : c.Formed := by
  rcases readLine_eq_ok_iff.mp read with ⟨text, rfl, rfl⟩ | ⟨foreign, rfl⟩ | ⟨_, _, _, words, _, _, _, given, rfl⟩
  · trivial
  · show Text.Foreign (String.ofList cs).toList
    rwa [String.toList_ofList]
  · exact lettered_of_readWords given

/-- What is read of a text without line ends is legible. -/
theorem legible_of_readLine (single : '\n' ∉ cs) (read : readLine line cs = .ok c) : c.Legible := by
  rcases readLine_eq_ok_iff.mp read with ⟨text, rfl, rfl⟩ | ⟨foreign, rfl⟩ | ⟨_, _, _, words, _, _, _, given, rfl⟩
  · show '\n' ∉ (String.ofList text).toList
    rw [String.toList_ofList]
    exact fun mem => single (List.mem_cons_of_mem _ mem)
  · show '\n' ∉ (String.ofList cs).toList ∧ Text.Foreign (String.ofList cs).toList
    rw [String.toList_ofList]
    exact ⟨single, foreign⟩
  · refine ⟨lettered_of_readWords given, fun text comment => ?_⟩
    obtain ⟨remark, cut, rfl⟩ := Option.map_eq_some_iff.mp comment
    rw [String.toList_ofList]
    exact fun mem => single (Text.mem_of_cutAt cut mem)

/-- A legible line ends no other line. -/
theorem Legible.notMem (legible : c.Legible) : '\n' ∉ c.chars := by
  cases c with
  | comment text => exact fun mem => legible ((List.mem_cons.mp mem).resolve_left (by decide))
  | verbatim text => exact legible.1
  | instruction i =>
    intro mem
    rw [chars_instruction] at mem
    rcases List.mem_append.mp mem with body | remark
    · exact notMem_bodyText legible.1 (.inl rfl) (by decide) body
    · cases comment : i.comment with
      | none => rw [comment] at remark; cases remark
      | some text =>
        rw [comment] at remark
        refine legible.2 text comment ?_
        simpa using remark

/-- A carriage return at the end of a legible line belongs to its text. -/
theorem Legible.dropLast?_chars (legible : c.Legible) : Text.dropLast? '\r' c.chars = c.chomp.chars := by
  cases c with
  | comment text =>
    have behind := Text.dropLast?_append (c := '\r') [';'] (by decide) text.toList
    rw [chars, Command.chomp, chars, Text.chomp, String.toList_ofList]
    exact behind
  | verbatim text => rw [chars, Command.chomp, chars, Text.chomp, String.toList_ofList]
  | instruction i =>
    have same : bodyText { i with comment := i.comment.map Text.chomp } = bodyText i := rfl
    rw [Command.chomp, chars_instruction, chars_instruction, same]
    cases i.comment with
    | none =>
      have kept : (bodyText i).getLast? ≠ some '\r' := fun last =>
        notMem_bodyText legible.1 (.inl rfl) (by decide) (List.mem_of_getLast? last)
      simp only [Option.map_none, List.append_nil]
      exact if_neg kept
    | some text =>
      have behind := Text.dropLast?_append (c := '\r') (bodyText i ++ [' ', ';']) (by simp) text.toList
      simpa [Text.chomp] using behind

end Command

namespace Admission

variable {α : Type} {c : Command α} {line : ℕ}

private theorem objection?_chomp (c : Command α) (line : ℕ) : objection? line c.chomp = objection? line c := by
  cases c with
  | comment => rfl
  | instruction i =>
    obtain ⟨code, words, comment⟩ := i
    cases code <;> rfl
  | verbatim text =>
    have same : (Command.verbatim text : Command α).chomp.leadingToken? = (Command.verbatim text : Command α).leadingToken? := by
      rw [Command.chomp, Command.leadingToken?, Text.chomp, String.toList_ofList, Text.tokens_cutAt_dropLast?]
      rfl
    unfold objection?
    rw [same]
    rfl

private theorem objection?_rounded [Scalar α] (c : Command α) (line : ℕ) : objection? line c.rounded = objection? line c := by
  cases c with
  | comment => rfl
  | verbatim => rfl
  | instruction i =>
    obtain ⟨code, words, comment⟩ := i
    cases code <;> simp [objection?, Command.rounded, Command.leadingToken?, Words.contains_rounded]

end Admission

theorem Command.Admitted.chomp {α : Type} {c : Command α} (admitted : c.Admitted) : c.chomp.Admitted :=
  Admission.admitted_of_objection? ((Admission.objection?_chomp c 0).trans (Admission.objection?_of_admitted admitted 0))

theorem Command.Admitted.rounded {α : Type} [Scalar α] {c : Command α} (admitted : c.Admitted) : c.rounded.Admitted :=
  Admission.admitted_of_objection? ((Admission.objection?_rounded c 0).trans (Admission.objection?_of_admitted admitted 0))

end Seam
