import Seam.Proofs.Lawful
import Seam.Proofs.Reentry
import Seam.Settings.Config

/-!
Texts with the other ending. A text without carriage returns is read line by line as
before when each newline has one put before it (`Program.parse_returned`), and what is
written with returns is what is written without them, with one put before each newline
(`Program.renderCommands_crlf`). So the ending of a text goes through a rewriting
unless the settings name another (`Config.rewrite_returned`).
-/
namespace Seam

open Text (lay Flat)

/-- A character with a carriage return before it if it is a newline. -/
def Text.withReturn (c : Char) : List Char := if c = '\n' then ['\r', '\n'] else [c]

/-- The text with a carriage return before each newline. -/
def Text.returned (text : String) : String := String.ofList (text.toList.flatMap withReturn)

namespace Text

variable {closed : List (List Char)} {rest line : List Char} {text : String}

private theorem flatMap_withReturn (single : '\n' ∉ line) : line.flatMap withReturn = line := by
  induction line with
  | nil => rfl
  | cons c line ih =>
    rw [List.mem_cons, not_or] at single
    rw [List.flatMap_cons, ih single.2, withReturn, if_neg (Ne.symm single.1)]
    rfl

private theorem returned_eq_self (single : '\n' ∉ text.toList) : returned text = text := by
  rw [returned, flatMap_withReturn single, String.ofList_toList]

private theorem returned_append (front back : String) : returned (front ++ back) = returned front ++ returned back := by
  rw [← String.toList_inj]
  simp [returned]

/-- Lines with newlines between them are lines with both between them once returns are put in. -/
private theorem returned_intercalate {lines : List String} (single : ∀ line ∈ lines, '\n' ∉ line.toList) :
    returned ("\n".intercalate lines) = "\r\n".intercalate lines := by
  induction lines with
  | nil => rfl
  | cons line lines ih =>
    obtain ⟨here, others⟩ := List.forall_mem_cons.mp single
    cases lines with
    | nil => exact returned_eq_self here
    | cons next lines =>
      have some : next :: lines ≠ [] := List.cons_ne_nil next lines
      rw [String.intercalate_cons_of_ne_nil some, String.intercalate_cons_of_ne_nil some, returned_append, returned_append,
        ih others, returned_eq_self here]
      rfl

/-- Where returns are put in, they end lines. -/
private theorem toList_returned (flat : Flat closed rest) (laid : text.toList = lay ['\n'] closed rest) :
    (returned text).toList = lay ['\n'] (closed.map (· ++ ['\r'])) rest := by
  rw [returned, String.toList_ofList, laid, ← lay_return]
  obtain ⟨lines, behind⟩ := flat
  clear laid
  induction closed with
  | nil => exact flatMap_withReturn behind
  | cons line closed ih =>
    obtain ⟨here, others⟩ := List.forall_mem_cons.mp lines
    rw [lay_cons, lay_cons, List.flatMap_append, List.flatMap_append, flatMap_withReturn here, ih others]
    rfl

end Text

namespace LineEnding

variable {text : String}

private theorem detect_of_bare (bare : '\r' ∉ text.toList) : detect text = .lf := by
  refine if_neg fun crlf => bare ?_
  obtain ⟨before, behind, split⟩ := (Text.hasCrlf_iff _).mp crlf
  rw [split]
  exact List.mem_append_cons_self

private theorem detect_returned (some : '\n' ∈ text.toList) : detect (Text.returned text) = .crlf := by
  obtain ⟨before, behind, split⟩ := List.append_of_mem some
  refine if_pos ((Text.hasCrlf_iff _).mpr ⟨before.flatMap Text.withReturn, behind.flatMap Text.withReturn, ?_⟩)
  rw [Text.returned, String.toList_ofList, split, List.flatMap_append, List.flatMap_cons]
  rfl

end LineEnding

namespace Program

variable {α : Type} [Scalar α] {text : String} {p : Program α} {commands : List (Command α)}

/-- A text without carriage returns and the one with them are laid out alike. -/
private theorem exists_lay_returned (bare : '\r' ∉ text.toList) : ∃ closed rest, Flat closed rest ∧
    text.toList = lay ['\n'] closed rest ∧ Flat (closed.map (· ++ ['\r'])) rest ∧
      (Text.returned text).toList = lay ['\n'] (closed.map (· ++ ['\r'])) rest ∧ ∀ line ∈ closed, '\r' ∉ line := by
  obtain ⟨closed, rest, flat, laid⟩ := Text.exists_lay text.toList
  refine ⟨closed, rest, flat, laid, ⟨fun line mem => ?_, flat.rest⟩, Text.toList_returned flat laid, fun line mem within => ?_⟩
  · obtain ⟨line, listed, rfl⟩ := List.mem_map.mp mem
    simpa using flat.closed line listed
  · rw [laid, lay] at bare
    exact bare (List.mem_append_left _ (List.mem_flatMap.mpr ⟨line, mem, List.mem_append_left _ within⟩))

private theorem linesOf_returned (bare : '\r' ∉ text.toList) : linesOf (Text.returned text) = linesOf text := by
  obtain ⟨closed, rest, flat, laid, flat', laid', none⟩ := exists_lay_returned bare
  have stripped : (closed.map (· ++ ['\r'])).map (Text.dropLast? '\r') = closed.map (Text.dropLast? '\r') := by
    rw [List.map_map]
    refine List.map_congr_left fun line mem => ?_
    have kept : Text.dropLast? '\r' line = line := Text.dropLast?_eq_self_iff.mpr fun last =>
      none line mem (List.mem_of_getLast? last)
    rw [kept, Function.comp_apply, Text.dropLast?, if_pos List.getLast?_concat, List.dropLast_concat]
  rw [linesOf_of_lay flat laid, linesOf_of_lay flat' laid', Text.lines, Text.lines]
  by_cases ended : rest = [] ∧ closed ≠ []
  · rw [if_pos ended, if_pos (by simpa using ended), stripped]
  · rw [if_neg ended, if_neg (by simpa using ended), List.map_append, List.map_append, stripped]

private theorem getLast?_returned (bare : '\r' ∉ text.toList) :
    (Text.returned text).toList.getLast? = some '\n' ↔ text.toList.getLast? = some '\n' := by
  obtain ⟨closed, rest, flat, laid, flat', laid', _⟩ := exists_lay_returned bare
  rw [laid, laid', Text.getLast?_lay_eq_newline_iff flat, Text.getLast?_lay_eq_newline_iff flat']
  simp

private theorem parse_eq (text : String) : (parse text : Except (Fault α) (Program α)) =
    ((numbered text).mapM fun l => Command.readLine l.2 l.1).bind fun commands =>
      .ok ⟨commands, LineEnding.detect text, text.toList.getLast? == some '\n'⟩ := rfl

/-- With carriage returns a text is the same program, but for the ending that is found. -/
theorem parse_returned (bare : '\r' ∉ text.toList) : (parse (Text.returned text) : Except (Fault α) (Program α)) =
    (parse text).map fun p => { p with lineEnding := LineEnding.detect (Text.returned text) } := by
  have ends : ((Text.returned text).toList.getLast? == some '\n') = (text.toList.getLast? == some '\n') := by
    rw [Bool.eq_iff_iff, beq_iff_eq, beq_iff_eq]
    exact getLast?_returned bare
  rw [parse_eq, parse_eq, numbered, numbered, linesOf_returned bare, ends]
  cases ((linesOf text).zipIdx 1).mapM fun l => (Command.readLine l.2 l.1 : Except (Fault α) (Command α)) <;> rfl

/-- What is written with both before every line is what is written with newlines, once returns are put in. -/
theorem renderCommands_crlf (legible : ∀ c ∈ commands, c.Legible) (p : Program α) :
    ({ p with lineEnding := .crlf } : Program α).renderCommands commands =
      Text.returned (({ p with lineEnding := .lf } : Program α).renderCommands commands) := by
  have single : ∀ line ∈ commands.map Command.render, '\n' ∉ line.toList := by
    simp only [List.forall_mem_map, Command.render, String.toList_ofList]
    exact fun c mem => (legible c mem).notMem
  rw [renderCommands, renderCommands, Text.returned_append]
  refine congrArg₂ _ (Text.returned_intercalate single).symm ?_
  cases p.endsWithNewline
  · rfl
  · show "\r\n" = Text.returned "\n"
    decide +kernel

end Program

theorem Walk.eq_nil {α : Type} [Scalar α] {p : Pass α} {floor : α} {m last : Machine α} {line : ℕ} {cs : List (Command α)}
    {blocks : List (Block α)} (walk : Walk p floor m line cs blocks last) (none : cs = []) : blocks = [] := by
  cases walk with
  | nil => rfl
  | cons slice => exact absurd (List.append_eq_nil_iff.mp none).1 slice.source_ne_nil

namespace Pass

variable {α : Type} [Scalar α] [Scalar.Lawful α] {p : Pass α} {c : Command α} {rewritten : Rewritten α}

/-- A program of one line is written as it stands: nothing is known yet of where the head is. -/
private theorem commands_of_singleton (written : p.rewrite [c] = .ok rewritten) : rewritten.commands = [c] := by
  obtain ⟨_, _, floor, _, blocks, cut, rfl⟩ := rewrite_eq_ok_iff.mp written
  obtain ⟨last, walk⟩ := blocks_eq_ok_iff.mp cut
  generalize only : [c] = cs at walk
  cases walk with
  | nil => cases only
  | @cons _ _ _ _ b rest blocks slice _ behind =>
    have source : b.source = [c] ∧ rest = [] :=
      (List.append_eq_singleton_iff.mp only.symm).resolve_left fun empty => slice.source_ne_nil empty.1
    have kept : b.isReplaced = false := by
      refine Bool.eq_false_iff.mpr fun replaced => ?_
      obtain ⟨run, segments, start, same, _, path, _⟩ := slice.tapered replaced
      rw [← start, ← same] at path
      obtain ⟨known, _⟩ := Segment.traced_of_path path
      rw [start] at known
      have finite := (Bool.and_eq_true_iff.mp (Bool.and_eq_true_iff.mp known).1).2
      exact Bool.false_ne_true ((Scalar.Lawful.isFinite_infinity (α := α)).symm.trans finite)
    rw [behind.eq_nil source.2, List.flatMap_singleton,
      Block.emitted_of_isUntouched (Block.isUntouched_of_not_isReplaced kept), source.2, List.append_nil]

end Pass

namespace Config

section
variable {α : Type} [Scalar α] {config : Config α} {text written : String} {report : Report α}

/-- What is written are the lines with the ending between them, and behind the last of them if the text ends in a newline. -/
private theorem written_of_rewrite (bare : '\r' ∉ text.toList) (rewrote : config.rewrite text = .ok (written, report)) :
    ∃ (program : Program α) (rewritten : Rewritten α), Program.parse text = .ok program ∧
      Pass.rewrite ⟨config.tuning, config.output.markers⟩ program.commands = .ok rewritten ∧
      report = rewritten.report ∧ (∀ c ∈ rewritten.commands, '\n' ∉ c.render.toList) ∧
      written = (config.output.lineEnding.resolve .lf).text.intercalate (rewritten.commands.map Command.render) ++
        if text.toList.getLast? = some '\n' then (config.output.lineEnding.resolve .lf).text else "" := by
  obtain ⟨program, rewritten, read, passed, rfl, rfl⟩ := Pass.rewriteText_eq_ok_iff.mp rewrote
  refine ⟨program, rewritten, read, passed, rfl, fun c mem => ?_, ?_⟩
  · rw [Command.render, String.toList_ofList]
    exact (Pass.legible_of_rewrite passed (Program.legible_of_parse read) c mem).notMem
  · rw [(Program.parse_eq_ok_iff.mp read).2, LineEnding.detect_of_bare bare]
    simp [Program.renderCommands]

/-- Settings that name an ending do not look at the one that is found. -/
private theorem rewrite_returned_of_ne_auto (bare : '\r' ∉ text.toList) (named : config.output.lineEnding ≠ .auto) :
    config.rewrite (Text.returned text) = config.rewrite text := by
  have settled (detected detected' : LineEnding) :
      config.output.lineEnding.resolve detected = config.output.lineEnding.resolve detected' := by
    cases ending : config.output.lineEnding with
    | auto => exact absurd ending named
    | _ => rfl
  rw [rewrite, rewrite, Pass.rewriteText, Pass.rewriteText, Program.parse_returned bare]
  cases (Program.parse text : Except (Fault α) (Program α)) with
  | error => rfl
  | ok program =>
    simp only [Except.map, settled _ program.lineEnding]
    rfl

/-- Of a text with newlines the ending is found, and what is written has the same. -/
private theorem rewrite_returned_of_mem (bare : '\r' ∉ text.toList) (some : '\n' ∈ text.toList)
    (auto : config.output.lineEnding = .auto) : config.rewrite (Text.returned text) =
      (config.rewrite text).map fun (written, report) => (Text.returned written, report) := by
  rw [rewrite, rewrite, auto, Pass.rewriteText, Pass.rewriteText, Program.parse_returned bare, LineEnding.detect_returned some]
  cases read : (Program.parse text : Except (Fault α) (Program α)) with
  | error => rfl
  | ok program =>
    show (do let rewritten ← Pass.rewrite _ program.commands; pure _) =
      Except.map _ (do let rewritten ← Pass.rewrite _ program.commands; pure _)
    cases passed : Pass.rewrite ⟨config.tuning, config.output.markers⟩ program.commands with
    | error => rfl
    | ok rewritten =>
      have legible := Pass.legible_of_rewrite passed (Program.legible_of_parse read)
      have lf : program.lineEnding = .lf := by
        rw [(Program.parse_eq_ok_iff.mp read).2]
        exact LineEnding.detect_of_bare bare
      refine congrArg (fun written => Except.ok (written, rewritten.report)) ?_
      rw [lf]
      exact Program.renderCommands_crlf legible program

end

variable {α : Type} [Scalar α] [Scalar.Lawful α]

/-- A text without newlines is a single line, and so is what is written for it. -/
private theorem notMem_of_rewrite {config : Config α} {text written : String} {report : Report α} (bare : '\r' ∉ text.toList)
    (single : '\n' ∉ text.toList) (rewrote : config.rewrite text = .ok (written, report)) : '\n' ∉ written.toList := by
  obtain ⟨program, rewritten, read, passed, _, lines, rfl⟩ := written_of_rewrite bare rewrote
  have open_end : text.toList.getLast? ≠ some '\n' := fun last => single (List.mem_of_getLast? last)
  have count := (Program.length_of_parse read).trans (Program.length_linesOf text)
  rw [List.count_eq_zero.mpr single, if_neg open_end, Nat.zero_add, List.length_eq_one_iff] at count
  obtain ⟨c, only⟩ := count
  rw [only] at passed
  have kept := Pass.commands_of_singleton passed
  rw [kept] at lines ⊢
  rw [if_neg open_end, List.map_singleton, String.intercalate_singleton, String.append_empty]
  exact lines c (List.mem_singleton_self c)

/-- The ending of a text goes through. With carriage returns put before its newlines, a text that has none of them is
    rewritten to the same with returns put in, if the settings leave the ending as it is found, and to the very same if
    they name one. What is written are the lines of the result with the ending between them, and behind the last of them
    if the text ends in a newline. -/
theorem rewrite_returned (config : Config α) {text : String} (bare : '\r' ∉ text.toList) :
    (config.output.lineEnding = .auto → config.rewrite (Text.returned text) =
      (config.rewrite text).map fun (written, report) => (Text.returned written, report)) ∧
    (config.output.lineEnding ≠ .auto → config.rewrite (Text.returned text) = config.rewrite text) ∧
    ∀ written report, config.rewrite text = .ok (written, report) → ∃ (program : Program α) (rewritten : Rewritten α),
      Program.parse text = .ok program ∧
        Pass.rewrite ⟨config.tuning, config.output.markers⟩ program.commands = .ok rewritten ∧
        report = rewritten.report ∧ (∀ c ∈ rewritten.commands, '\n' ∉ c.render.toList) ∧
        written = (config.output.lineEnding.resolve .lf).text.intercalate (rewritten.commands.map Command.render) ++
          if text.toList.getLast? = some '\n' then (config.output.lineEnding.resolve .lf).text else "" := by
  refine ⟨fun auto => ?_, rewrite_returned_of_ne_auto bare, fun written report => written_of_rewrite bare⟩
  by_cases some : '\n' ∈ text.toList
  · exact rewrite_returned_of_mem bare some auto
  · rw [Text.returned_eq_self some]
    cases rewrote : config.rewrite text with
    | error => rfl
    | ok result =>
      obtain ⟨written, report⟩ := result
      refine congrArg (fun written => Except.ok (written, report)) (Text.returned_eq_self ?_).symm
      exact notMem_of_rewrite bare some rewrote

/-- The shuttle is written with the ending that it comes with, or with the one that is asked for. -/
theorem rewrite_returned_of_shuttle :
    '\r' ∉ Lane.shuttleText.toList ∧ Text.returned Lane.shuttleText = "G28\r\nG1 X3 E3\r\nG1 X0 E3\r\nG1 Z1\r\n" ∧
      (∃ written report, (⟨Lane.tuning 1, .auto, true⟩ : Config Exact).rewrite Lane.shuttleText = .ok (written, report) ∧
        report.scarfedLoops = 1 ∧ (⟨Lane.tuning 1, .auto, true⟩ : Config Exact).rewrite (Text.returned Lane.shuttleText) =
          .ok (Text.returned written, report)) ∧
      ∃ written report lines, (⟨Lane.tuning 1, .crlf, true⟩ : Config Exact).rewrite Lane.shuttleText = .ok (written, report) ∧
        (⟨Lane.tuning 1, .crlf, true⟩ : Config Exact).rewrite (Text.returned Lane.shuttleText) = .ok (written, report) ∧
          written = "\r\n".intercalate lines ++ "\r\n" := by
  have bare : '\r' ∉ Lane.shuttleText.toList := by decide +kernel
  have ends : Lane.shuttleText.toList.getLast? = some '\n' := by decide +kernel
  refine ⟨bare, by decide +kernel, ?_, ?_⟩
  · obtain ⟨found, _⟩ := rewrite_returned (⟨Lane.tuning 1, .auto, true⟩ : Config Exact) bare
    obtain ⟨written, report, rewrote, tapered, _⟩ := Lane.rewriteText_shuttleText (LineEndingSetting.resolve .auto)
    refine ⟨written, report, rewrote, tapered, (found rfl).trans ?_⟩
    exact congrArg (Except.map _) rewrote
  · obtain ⟨_, named, lines⟩ := rewrite_returned (⟨Lane.tuning 1, .crlf, true⟩ : Config Exact) bare
    obtain ⟨written, report, rewrote, _⟩ := Lane.rewriteText_shuttleText (LineEndingSetting.resolve .crlf)
    obtain ⟨_, _, _, _, _, _, same⟩ := lines written report rewrote
    rw [if_pos ends] at same
    exact ⟨written, report, _, rewrote, (named (by decide)).trans rewrote, same⟩

end Config

end Seam
