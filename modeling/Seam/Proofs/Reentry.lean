import Seam.Proofs.Nearest
import Seam.Proofs.Numeric
import Seam.Proofs.Reread

/-!
What is written may be given in again. Lines that are made are not objected to, and no
line becomes wrong where it is written and read (`Program.parse_of_rewrite`). So a text
that was rewritten once is rewritten again, with whatever lengths are usable
(`Pass.rewriteText_of_rewriteText`).
-/
namespace Seam

namespace Command

private theorem admitted_empty {α : Type} :
    (.verbatim "" : Command α).Admitted := Admission.admitted_of_objection? (rfl : Admission.objection? 0 _ = none)

variable {α : Type} [Scalar α] {c c' : Command α}

private theorem Admitted.of_made (made : Weave.Made c) : c.Admitted := by
  suffices fine : Admission.objection? 0 c = none from Admission.admitted_of_objection? fine
  cases made with
  | total value => simp [Admission.objection?, ofWords, leadingToken?, Words.contains, Words.get?]
  | _ => rfl

theorem Admitted.of_echo (admitted : c.Admitted) (echo : c.Echoes c') : c'.Admitted := by
  rcases echo with rfl | rfl
  · exact admitted.rounded
  · exact admitted.chomp.rounded

theorem Admitted.of_echoes {cs cs' : List (Command α)} (echoes : List.Forall₂ Echoes cs cs')
    (admitted : ∀ c ∈ cs, c.Admitted) : ∀ c ∈ cs', c.Admitted := by
  induction echoes with
  | nil => exact List.forall_mem_nil _
  | cons echo _ ih =>
    obtain ⟨here, others⟩ := List.forall_mem_cons.mp admitted
    exact List.forall_mem_cons.mpr ⟨here.of_echo echo, ih others⟩

end Command

theorem Pass.admitted_of_rewrite {α : Type} [Scalar α] {p : Pass α} {commands : List (Command α)} {rewritten : Rewritten α}
    (written : p.rewrite commands = .ok rewritten) : ∀ c ∈ rewritten.commands, c.Admitted := by
  obtain ⟨_, admitted, _⟩ := rewrite_eq_ok_iff.mp written
  exact fun c mem => (mem_or_made written c mem).elim (Admission.check_eq_ok_iff.mp admitted c) .of_made

namespace Program

variable {p program : Program Exact} {text : String} {pass : Pass Exact} {rewritten : Rewritten Exact}

/-- The numbers of a program that is read are reals. -/
private theorem numeric_of_parse (read : parse text = .ok p) : ∀ c ∈ p.commands, c.Numeric := by
  obtain ⟨commands, lines, same⟩ := Except.bind_eq_ok_iff.mp read
  cases same
  intro c mem
  obtain ⟨_, _, given⟩ := Except.exists_of_mem_mapM lines mem
  exact Command.numeric_of_readLine given

/-- What is written for a program that was read is read back, and nothing of it is objected to. -/
theorem parse_of_rewrite (read : parse text = .ok program) (written : pass.rewrite program.commands = .ok rewritten)
    (p : Program Exact) :
    ∃ kept again, (shown rewritten.commands = kept ∨ shown rewritten.commands = kept ++ [.verbatim ""]) ∧
      parse (p.renderCommands rewritten.commands) = .ok again ∧ List.Forall₂ Command.Echoes kept again.commands ∧
        ∀ c ∈ kept, c.Admitted := by
  obtain ⟨kept, again, all, reread, echoes⟩ := parse_renderCommands p
    (Pass.legible_of_rewrite written (legible_of_parse read))
    fun c mem => (Pass.numeric_of_rewrite written (numeric_of_parse read) c mem).plain
  refine ⟨kept, again, all, reread, echoes, ?_⟩
  have admitted : ∀ c ∈ shown rewritten.commands, c.Admitted := by
    unfold shown
    split
    · exact List.forall_mem_cons.mpr ⟨Command.admitted_empty, List.forall_mem_nil _⟩
    · exact Pass.admitted_of_rewrite written
  rcases all with all | all
  · exact all ▸ admitted
  · exact (List.forall_mem_append.mp (all ▸ admitted)).1

end Program

namespace Lane

/-- The text of a shuttle along the bed. -/
def shuttleText : String := "G28\nG1 X3 E3\nG1 X0 E3\nG1 Z1\n"

private theorem numbered_shuttleText : Program.numbered shuttleText =
    [(['G', '2', '8'], 1), (['G', '1', ' ', 'X', '3', ' ', 'E', '3'], 2), (['G', '1', ' ', 'X', '0', ' ', 'E', '3'], 3),
      (['G', '1', ' ', 'Z', '1'], 4)] := by
  decide +kernel

theorem parse_shuttleText :
    ∃ program : Program Exact, Program.parse shuttleText = .ok program ∧ program.commands = [home, draw 3 3, draw 0 3, lift 1] := by
  have word {letter digit : Char} {n : ℕ} (line : ℕ) (spelled : RawWord.ofToken? [letter, digit] = some ⟨letter, some [digit]⟩)
      (read : Numeral.read? [digit] = some (.finite ⟨false, n, 0⟩)) :
      (Command.readWord .linearMove line [letter, digit] : Except (Fault Exact) _) = .ok (letter, .real n) := by
    rw [Command.readWord_of_number spelled read]
    show Except.ok (letter, Exact.real (Decimal.value _)) = _
    simp [Decimal.value]
  have x3 := @word 'X' '3' 3 2 (by decide) (by decide +kernel)
  have e3 (line : ℕ) := @word 'E' '3' 3 line (by decide) (by decide +kernel)
  have x0 := @word 'X' '0' 0 3 (by decide) (by decide +kernel)
  have z1 := @word 'Z' '1' 1 4 (by decide) (by decide +kernel)
  refine ⟨⟨_, _, _⟩, Program.parse_eq_ok_iff.mpr ⟨?_, rfl⟩, rfl⟩
  rw [numbered_shuttleText]
  refine .cons ?_ (.cons ?_ (.cons ?_ (.cons ?_ .nil)))
  · exact Command.readLine_of_tokens ['G', '2', '8'] [] (by decide +kernel) (by decide +kernel) rfl
  · refine Command.readLine_of_tokens ['G', '1'] [['X', '3'], ['E', '3']] (by decide +kernel) (by decide +kernel) ?_
    simp only [Command.readWords, List.foldlM_cons, x3, e3]
    rfl
  · refine Command.readLine_of_tokens ['G', '1'] [['X', '0'], ['E', '3']] (by decide +kernel) (by decide +kernel) ?_
    simp only [Command.readWords, List.foldlM_cons, x0, e3, Nat.cast_zero]
    rfl
  · refine Command.readLine_of_tokens ['G', '1'] [['Z', '1']] (by decide +kernel) (by decide +kernel) ?_
    simp only [Command.readWords, List.foldlM_cons, z1, Nat.cast_one]
    rfl

/-- The shuttle is read and tapered. -/
theorem rewriteText_shuttleText (ending : LineEnding → LineEnding) :
    ∃ written report, (⟨tuning 1, true⟩ : Pass Exact).rewriteText ending shuttleText = .ok (written, report) ∧
      report.scarfedLoops = 1 ∧ report.floor = .real 0 := by
  obtain ⟨program, read, shuttle⟩ := parse_shuttleText
  obtain ⟨_, _, lowest, cut, rewritten, written⟩ :=
    rewrite_shuttle (a := 3) (z := 1) (by norm_num) three_pos three_pos zero_le_one true
  rw [← shuttle] at written
  refine ⟨_, rewritten.report, Pass.rewriteText_eq_ok_iff.mpr ⟨program, rewritten, read, written, rfl, rfl⟩, ?_⟩
  obtain ⟨_, _, _, lowest', _, cut', rfl⟩ := Pass.rewrite_eq_ok_iff.mp (shuttle ▸ written)
  cases lowest.symm.trans lowest'
  cases cut.symm.trans cut'
  exact ⟨rfl, Exact.zero_eq⟩

end Lane

namespace Pass

/-- A text that was written can be read, is not objected to, and is rewritten again, with the same lengths or any others
    that are usable. -/
theorem rewriteText_of_rewriteText {p : Pass Exact} {ending : LineEnding → LineEnding} {text written : String}
    {report : Report Exact} (rewrote : p.rewriteText ending text = .ok (written, report)) :
    ∃ program : Program Exact, Program.parse written = .ok program ∧ Admission.check program.commands = .ok () ∧
      ∀ (p' : Pass Exact) (ending' : LineEnding → LineEnding), p'.tuning = p.tuning ∨ p'.tuning.check = .ok () →
        ∃ again, p'.rewriteText ending' written = .ok again := by
  obtain ⟨program, rewritten, read, written, rfl, rfl⟩ := rewriteText_eq_ok_iff.mp rewrote
  obtain ⟨usable, _⟩ := exists_rewrite_iff.mp ⟨rewritten, written⟩
  obtain ⟨_, again, _, reread, echoes, fine⟩ :=
    Program.parse_of_rewrite read written { program with lineEnding := ending program.lineEnding }
  have admitted : Admission.check again.commands = .ok () :=
    Admission.check_eq_ok_iff.mpr (Command.Admitted.of_echoes echoes fine)
  refine ⟨again, reread, admitted, fun p' ending' valid => ?_⟩
  have usable' : p'.tuning.check = .ok () := valid.elim (fun same => same ▸ usable) id
  obtain ⟨rewritten', written'⟩ := exists_rewrite_iff.mpr ⟨usable', admitted⟩
  exact ⟨_, rewriteText_eq_ok_iff.mpr ⟨again, rewritten', reread, written', rfl, rfl⟩⟩

/-- What is written for the shuttle is rewritten with a longer overlap and without markers. -/
theorem rewriteText_twice_of_shuttle :
    ∃ written report, (⟨Lane.tuning 1, true⟩ : Pass Exact).rewriteText id Lane.shuttleText = .ok (written, report) ∧
      report.scarfedLoops = 1 ∧ (∃ program : Program Exact, Program.parse written = .ok program ∧
        Admission.check program.commands = .ok ()) ∧ (Lane.tuning 2).check = .ok () ∧
          ∃ again, (⟨Lane.tuning 2, false⟩ : Pass Exact).rewriteText id written = .ok again := by
  obtain ⟨written, report, rewrote, tapered, _⟩ := Lane.rewriteText_shuttleText id
  obtain ⟨program, read, admitted, again⟩ := rewriteText_of_rewriteText rewrote
  have usable : (Lane.tuning 2).check = .ok () := Lane.check_tuning two_pos
  exact ⟨written, report, rewrote, tapered, ⟨program, read, admitted⟩, usable, again ⟨Lane.tuning 2, false⟩ id (.inr usable)⟩

end Pass

end Seam
