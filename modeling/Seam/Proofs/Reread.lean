import Seam.Proofs.Lines

/-!
Written programs read back. The lines of a text that is written are the lines that were
written, but for an empty one behind the last newline, and each is read as itself with its
numbers rounded, and perhaps without a carriage return at the end of its text
(`Command.Echoes`, `Program.parse_renderCommands`).
-/
namespace Seam

open Text (lay Flat)

namespace LineEnding

/-- What stands before the newline of a line with the ending. -/
def carry (ending : LineEnding) (line : List Char) : List Char :=
  match ending with
  | .lf => line
  | .crlf => line ++ ['\r']

private theorem lay_text (ending : LineEnding) (closed : List (List Char)) (rest : List Char) :
    lay ending.text.toList closed rest = lay ['\n'] (closed.map ending.carry) rest := by
  cases ending with
  | lf => exact congrArg (lay _ · rest) (List.map_id _).symm
  | crlf => exact Text.lay_return closed rest

private theorem notMem_carry (ending : LineEnding) {line : List Char} (single : '\n' ∉ line) : '\n' ∉ ending.carry line := by
  cases ending with
  | lf => exact single
  | crlf => simpa [carry] using single

end LineEnding

namespace Command

variable {α : Type} [Scalar α] {c : Command α}

/-- The second line is what the first is read as once it is written. -/
def Echoes (c c' : Command α) : Prop := c' = c.rounded ∨ c' = c.chomp.rounded

theorem Plain.chomp (plain : c.Plain) : c.chomp.Plain := by
  rw [Plain, words?_chomp]
  exact plain

/-- A line is read back whichever ending it has, and if it has none. -/
private theorem exists_echo (legible : c.Legible) (plain : c.Plain) (ending : LineEnding) :
    ∃ c', c.Echoes c' ∧ ∀ line, readLine line (Text.dropLast? '\r' (ending.carry c.chars)) = .ok c' := by
  cases ending with
  | lf =>
    refine ⟨c.chomp.rounded, .inr rfl, fun line => ?_⟩
    rw [LineEnding.carry, legible.dropLast?_chars]
    exact legible.chomp.readLine_chars plain.chomp line
  | crlf =>
    refine ⟨c.rounded, .inl rfl, fun line => ?_⟩
    rw [LineEnding.carry, Text.dropLast?, if_pos List.getLast?_concat, List.dropLast_concat]
    exact legible.readLine_chars plain line

private theorem eq_of_chars_eq_nil (empty : c.chars = []) : c = .verbatim "" := by
  cases c with
  | comment => cases empty
  | verbatim text => rw [String.toList_eq_nil_iff.mp empty]
  | instruction i =>
    rw [chars_instruction, bodyText, List.append_assoc, List.append_eq_nil_iff] at empty
    exact absurd empty.1 (solid_name i.code).2

end Command

namespace Program

variable {α : Type} [Scalar α] {p : Program α} {commands : List (Command α)}

private theorem parse_of_lines {text : String} (lines : List.Forall₂ (fun cs c => ∀ line, Command.readLine line cs = .ok c)
    (linesOf text) commands) : ∃ again, parse text = .ok again ∧ again.commands = commands := by
  refine ⟨⟨commands, _, _⟩, parse_eq_ok_iff.mpr ⟨?_, rfl⟩, rfl⟩
  rw [numbered]
  generalize linesOf text = ls at lines
  generalize 1 = n
  induction lines generalizing n with
  | nil => exact .nil
  | cons here _ ih =>
    rw [List.zipIdx_cons]
    exact .cons (here n) (ih (n + 1))

/-- The lines as they are written: none at all is an empty one. -/
def shown (commands : List (Command α)) : List (Command α) := if commands = [] then [.verbatim ""] else commands

private theorem renderCommands_shown (p : Program α) (commands : List (Command α)) :
    p.renderCommands (shown commands) = p.renderCommands commands := by
  unfold shown
  split
  · next none => rw [none]; rfl
  · rfl

/-- Every written text is laid out in its lines, the last of them closed or not. -/
private theorem exists_layout (p : Program α) (commands : List (Command α)) :
    ∃ front back rest, shown commands = front ++ back ∧
      (p.renderCommands commands).toList = lay p.lineEnding.text.toList (front.map Command.chars) rest ∧
        (back = [] ∧ rest = [] ∧ front ≠ [] ∨ ∃ last, back = [last] ∧ rest = last.chars) := by
  have some : shown commands ≠ [] := by
    unfold shown
    split
    · exact List.cons_ne_nil _ _
    · assumption
  rw [← renderCommands_shown]
  cases ends : p.endsWithNewline with
  | true => exact ⟨_, [], [], (List.append_nil _).symm, toList_renderCommands_of_ends ends some, .inl ⟨rfl, rfl, some⟩⟩
  | false =>
    obtain ⟨front, last, split⟩ := (List.eq_nil_or_concat' _).resolve_left some
    refine ⟨front, [last], last.chars, split, ?_, .inr ⟨last, rfl, rfl⟩⟩
    rw [split]
    exact toList_renderCommands_of_not_ends ends front last

/-- Lines are read back whichever ending they have. -/
private theorem exists_echoes (ending : LineEnding) (legible : ∀ c ∈ commands, c.Legible) (plain : ∀ c ∈ commands, c.Plain) :
    ∃ echoes, List.Forall₂ Command.Echoes commands echoes ∧
      List.Forall₂ (fun cs c => ∀ line, Command.readLine line cs = .ok c)
        (((commands.map Command.chars).map ending.carry).map (Text.dropLast? '\r')) echoes := by
  induction commands with
  | nil => exact ⟨[], .nil, .nil⟩
  | cons c commands ih =>
    obtain ⟨here, others⟩ := List.forall_mem_cons.mp legible
    obtain ⟨written, others_written⟩ := List.forall_mem_cons.mp plain
    obtain ⟨c', echo, read⟩ := Command.exists_echo here written ending
    obtain ⟨echoes, behind, reads⟩ := ih others others_written
    exact ⟨c' :: echoes, .cons echo behind, .cons read reads⟩

private theorem sound_shown (legible : ∀ c ∈ commands, c.Legible) (plain : ∀ c ∈ commands, c.Plain) :
    ∀ c ∈ shown commands, c.Legible ∧ c.Plain := by
  unfold shown
  split
  · refine List.forall_mem_cons.mpr ⟨⟨⟨List.not_mem_nil, by decide, by simp [Text.cutAt]⟩, fun w none => ?_⟩, List.forall_mem_nil _⟩
    cases none
  · exact fun c mem => ⟨legible c mem, plain c mem⟩

private theorem flat_carry (ending : LineEnding) {rest : List Char} (legible : ∀ c ∈ commands, c.Legible) (last : '\n' ∉ rest) :
    Flat ((commands.map Command.chars).map ending.carry) rest := by
  refine ⟨fun line mem => ?_, last⟩
  obtain ⟨_, written, rfl⟩ := List.mem_map.mp mem
  obtain ⟨c, listed, rfl⟩ := List.mem_map.mp written
  exact LineEnding.notMem_carry _ (legible c listed).notMem

/-- What is written is read back line by line, but for an empty line behind the last newline. -/
theorem parse_renderCommands (p : Program α) (legible : ∀ c ∈ commands, c.Legible) (plain : ∀ c ∈ commands, c.Plain) :
    ∃ kept again, (shown commands = kept ∨ shown commands = kept ++ [.verbatim ""]) ∧
      parse (p.renderCommands commands) = .ok again ∧ List.Forall₂ Command.Echoes kept again.commands := by
  obtain ⟨front, back, rest, split, laid, shape⟩ := exists_layout p commands
  have sound := sound_shown legible plain
  rw [split] at sound
  have closed (c : Command α) (mem : c ∈ front) := sound c (List.mem_append_left _ mem)
  obtain ⟨echoes, echo, reads⟩ := exists_echoes p.lineEnding (fun c mem => (closed c mem).1) fun c mem => (closed c mem).2
  have flat : Flat ((front.map Command.chars).map p.lineEnding.carry) rest := by
    refine flat_carry p.lineEnding (fun c mem => (closed c mem).1) ?_
    rcases shape with ⟨_, rfl, _⟩ | ⟨last, rfl, rfl⟩
    · exact List.not_mem_nil
    · exact (sound last (List.mem_append_right _ (List.mem_singleton_self _))).1.notMem
  rw [LineEnding.lay_text] at laid
  have lines := linesOf_of_lay flat laid
  by_cases ended : rest = [] ∧ (front.map Command.chars).map p.lineEnding.carry ≠ []
  · rw [Text.lines, if_pos ended] at lines
    obtain ⟨again, read, same⟩ := parse_of_lines (lines ▸ reads)
    refine ⟨front, again, ?_, read, same ▸ echo⟩
    rcases shape with ⟨rfl, _⟩ | ⟨last, rfl, behind⟩
    · exact .inl (split.trans (List.append_nil _))
    · rw [split, Command.eq_of_chars_eq_nil (behind.symm.trans ended.1)]
      exact .inr rfl
  · rw [Text.lines, if_neg ended, List.map_append, List.map_singleton] at lines
    obtain ⟨last, rfl, rfl⟩ : ∃ last, back = [last] ∧ rest = last.chars := by
      refine shape.resolve_left ?_
      rintro ⟨_, empty, nonempty⟩
      exact ended ⟨empty, by simpa using nonempty⟩
    obtain ⟨here, written⟩ := sound last (List.mem_append_right _ (List.mem_singleton_self _))
    obtain ⟨last', echo', read'⟩ := Command.exists_echo here written .lf
    have all : List.Forall₂ (fun cs c => ∀ line, Command.readLine line cs = .ok c) (linesOf (p.renderCommands commands))
        (echoes ++ [last']) := by
      rw [lines]
      exact List.rel_append reads (.cons read' .nil)
    obtain ⟨again, read, same⟩ := parse_of_lines all
    refine ⟨shown commands, again, .inl rfl, read, ?_⟩
    rw [split, same]
    exact List.rel_append echo (.cons echo' .nil)

end Program

end Seam
