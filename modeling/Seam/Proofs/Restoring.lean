import Seam.Proofs.Answer
import Seam.Proofs.Legible
import Seam.Proofs.Naming

/-!
Lines that save or restore the position. A line whose first token names `G60` or `G61` is no
tracked instruction and is kept as it stands, and the admission looks for it by the letters of
that token. So it is refused if its number is written without zeros in front
(`Code.mem_prohibited_iff`), and a program with such a line is admitted exactly if the number
has zeros in front and nothing is wrong with the other lines (`Program.restoring_iff`).
-/
namespace Seam

/-- The first token of a line before any semicolon. -/
def Text.firstToken? (cs : List Char) : Option (List Char) := (tokens (cutAt ';' cs).1).head?

namespace Code

/-- The token names `G60` or `G61`, with any zeros in front of its number. -/
def Restores (token : List Char) : Prop := Spells token 'G' 60 none ∨ Spells token 'G' 61 none

variable {token : List Char}

theorem Restores.untracked (restores : Restores token) : ofToken? token = none := by
  rcases restores with save | restore
  · exact ofToken?_of_spells save (by omega) (by simp)
  · exact ofToken?_of_spells restore (by omega) (by simp)

/-- Zeros in front of the number hide the token. -/
theorem mem_prohibited_iff (restores : Restores token) :
    String.ofList (token.map Char.toUpper) ∈ Admission.prohibited ↔ token[1]? ≠ some '0' := by
  obtain ⟨l, z, last, rfl, upper, named⟩ : ∃ l z last, token = l :: (List.replicate z '0' ++ ['6', last]) ∧
      l.toUpper = 'G' ∧ (last = '0' ∨ last = '1') := by
    rcases restores with ⟨l, whole, upper, counts, rfl⟩ | ⟨l, whole, upper, counts, rfl⟩
    · obtain ⟨z, rfl⟩ := counts.exists_zeros
      exact ⟨l, z, '0', rfl, upper, .inl rfl⟩
    · obtain ⟨z, rfl⟩ := counts.exists_zeros
      exact ⟨l, z, '1', rfl, upper, .inr rfl⟩
  have prohibited : Admission.prohibited = [String.ofList ['G', '6', '0'], String.ofList ['G', '6', '1']] := rfl
  rw [prohibited, List.mem_pair, String.ofList_inj, String.ofList_inj, List.map_cons, upper]
  cases z with
  | zero => rcases named with rfl | rfl <;> simp
  | succ z => simp [List.replicate_succ]

end Code

namespace Admission

variable {α : Type} {c : Command α} {line n : ℕ}

private theorem Offends.number_eq {name : String} (offends : Offends line c (.prohibitedCommand n name)) : line = n := by
  generalize same : Fault.prohibitedCommand n name = fault at offends
  cases offends <;> cases same
  rfl

private theorem admitted_of_clear (clear : ∀ fault, ¬ Offends line c fault) : c.Admitted := by
  refine @admitted_of_objection? α c line ?_
  cases objected : objection? line c with
  | none => rfl
  | some fault => exact absurd (objection?_eq_some_iff.mp objected) (clear fault)

end Admission

namespace Command

variable {α : Type} [Scalar α] {cs token : List Char}

private theorem readLine_of_restores (first : Text.firstToken? cs = some token) (restores : Code.Restores token) (line : ℕ) :
    readLine line cs = .ok (.verbatim (String.ofList cs) : Command α) := by
  refine readLine_eq_ok_iff.mpr (.inr (.inl ⟨⟨fun remark => ?_, fun t mem => ?_⟩, rfl⟩))
  · -- before a semicolon at the start there is no token
    obtain ⟨text, rfl⟩ := List.head?_eq_some_iff.mp remark
    cases first
  · cases first.symm.trans mem
    exact restores.untracked

omit [Scalar α] in
private theorem offends_of_restores (first : Text.firstToken? cs = some token) (restores : Code.Restores token) (line : ℕ)
    (fault : Fault α) :
    Admission.Offends line (.verbatim (String.ofList cs)) fault ↔
      token[1]? ≠ some '0' ∧ fault = .prohibitedCommand line (String.ofList (token.map Char.toUpper)) := by
  have leading : (Command.verbatim (String.ofList cs) : Command α).leadingToken? =
      some (String.ofList (token.map Char.toUpper)) := by
    rw [leadingToken?, String.toList_ofList]
    exact congrArg _ first
  constructor
  · intro offends
    cases offends with
    | prohibited leading' listed =>
      cases leading.symm.trans leading'
      exact ⟨(Code.mem_prohibited_iff restores).mp listed, rfl⟩
  · rintro ⟨bare, rfl⟩
    exact .prohibited leading ((Code.mem_prohibited_iff restores).mpr bare)

end Command

namespace Program

variable {α : Type} [Scalar α] {text : String} {program : Program α} {front back : List (List Char × ℕ)}
  {l : List Char × ℕ}

private theorem number_of_split (split : numbered text = front ++ l :: back) : l.2 = front.length + 1 := by
  have there : (numbered text)[front.length]? = some l := by
    rw [split, List.getElem?_append_right (le_refl _)]
    simp
  rw [numbered, List.getElem?_zipIdx] at there
  obtain ⟨_, _, rfl⟩ := Option.map_eq_some_iff.mp there
  exact Nat.add_comm ..

/-- Nothing is wrong with the line, if it can be read. -/
def Fine (α : Type) [Scalar α] (l : List Char × ℕ) : Prop :=
  ∀ c : Command α, Command.readLine l.2 l.1 = .ok c → c.Admitted

/-- A program is admitted if all of its lines are fine. -/
private theorem check_eq_ok_iff_fine (read : parse text = .ok program) :
    Admission.check program.commands = .ok () ↔ ∀ l ∈ numbered text, Fine α l := by
  constructor
  · intro admitted l mem c given
    obtain ⟨d, listed, same⟩ := mem_of_parse read mem
    cases given.symm.trans same
    exact Admission.check_eq_ok_iff.mp admitted c listed
  · intro fine
    cases checked : Admission.check program.commands with
    | ok => rfl
    | error fault =>
      obtain ⟨_, l, _, c, split, given, offends, _⟩ := (check_of_parse read fault).mp checked
      exact absurd offends (fine l (by rw [split]; exact List.mem_append_cons_self) c given l.2 fault)

private theorem fine_of_restores {token : List Char} (first : Text.firstToken? l.1 = some token)
    (restores : Code.Restores token) : Fine α l ↔ token[1]? = some '0' := by
  have read := Command.readLine_of_restores (α := α) first restores l.2
  constructor
  · intro fine
    by_contra bare
    exact fine _ read l.2 _ ((Command.offends_of_restores first restores l.2 _).mpr ⟨bare, rfl⟩)
  · intro hidden c given line fault offends
    cases given.symm.trans read
    exact ((Command.offends_of_restores first restores line fault).mp offends).1 hidden

/-- A line that saves or restores the position is the first one that a program is refused for exactly if its number is
    written without zeros in front and nothing is wrong with the lines before it. With zeros in front it is not seen:
    the program is admitted exactly if nothing is wrong with its other lines. -/
theorem restoring_iff (read : parse text = .ok program) (split : numbered text = front ++ l :: back)
    {token : List Char} (first : Text.firstToken? l.1 = some token) (restores : Code.Restores token) :
    l.2 = front.length + 1 ∧
      (Admission.check program.commands =
          .error (.prohibitedCommand l.2 (String.ofList (token.map Char.toUpper))) ↔
        token[1]? ≠ some '0' ∧ ∀ l' ∈ front, Fine α l') ∧
      (Admission.check program.commands = .ok () ↔ token[1]? = some '0' ∧ ∀ l' ∈ front ++ back, Fine α l') := by
  refine ⟨number_of_split split, ?_, ?_⟩
  · rw [check_of_parse read]
    constructor
    · rintro ⟨front', l', back', c, split', given, offends, before⟩
      -- the objection names the line, and so does its place
      have number := offends.number_eq
      have long : front'.length = front.length := by
        have here := number_of_split split
        have there := number_of_split split'
        omega
      obtain ⟨rfl, rest⟩ := List.append_inj (split'.symm.trans split) long
      cases rest
      cases given.symm.trans (Command.readLine_of_restores first restores l.2)
      refine ⟨((Command.offends_of_restores first restores l.2 _).mp offends).1, fun l' mem c given => ?_⟩
      exact Admission.admitted_of_clear (before l' mem c given)
    · rintro ⟨bare, fine⟩
      refine ⟨front, l, back, _, split, Command.readLine_of_restores first restores l.2, ?_, fun l' mem c given => ?_⟩
      · exact (Command.offends_of_restores first restores l.2 _).mpr ⟨bare, rfl⟩
      · exact fine l' mem c given l'.2
  · rw [check_eq_ok_iff_fine read, split, ← fine_of_restores (α := α) first restores]
    simp only [List.mem_append, List.mem_cons]
    constructor
    · intro fine
      exact ⟨fine l (by simp), fun l' mem => fine l' (by rcases mem with mem | mem <;> simp [mem])⟩
    · rintro ⟨here, others⟩ l' (before | rfl | behind)
      · exact others l' (.inl before)
      · exact here
      · exact others l' (.inr behind)

/-- A text all of whose lines save or restore the position can be read. -/
private theorem exists_parse_of_restores
    (restoring : ∀ l ∈ numbered text, ∃ token, Text.firstToken? l.1 = some token ∧ Code.Restores token) :
    ∃ program : Program α, parse text = .ok program := by
  refine exists_parse_iff.mpr fun l mem => ?_
  obtain ⟨token, first, restores⟩ := restoring l mem
  exact ⟨_, Command.readLine_of_restores first restores l.2⟩

/-- The second line is refused, in whichever case its letter is, and the first one is passed over. -/
theorem restoring_of_lower_case :
    ∃ program : Program Exact, parse "G060\ng61 S1" = .ok program ∧
      Admission.check program.commands = .error (.prohibitedCommand 2 "G61") := by
  have lines : numbered "G060\ng61 S1" = [("G060".toList, 1)] ++ ("g61 S1".toList, 2) :: [] := by decide +kernel
  have save : Code.Restores "G060".toList := .inl ⟨'G', "060".toList, rfl, Decimal.Counts.of_zeros 1 60, rfl⟩
  have restore : Code.Restores "g61".toList := .inr ⟨'g', "61".toList, rfl, Decimal.Counts.of_zeros 0 61, rfl⟩
  have first : Text.firstToken? "G060".toList = some "G060".toList := by decide +kernel
  have second : Text.firstToken? "g61 S1".toList = some "g61".toList := by decide +kernel
  obtain ⟨program, read⟩ : ∃ program : Program Exact, parse "G060\ng61 S1" = .ok program := by
    refine exists_parse_of_restores ?_
    rw [lines]
    exact List.forall_mem_cons.mpr ⟨⟨_, first, save⟩, List.forall_mem_singleton.mpr ⟨_, second, restore⟩⟩
  refine ⟨program, read, (restoring_iff read lines second restore).2.1.mpr ⟨by decide, ?_⟩⟩
  exact List.forall_mem_singleton.mpr ((fine_of_restores first save).mpr (by decide))

/-- A line that saves the position and is not refused. -/
theorem not_restoring_refused :
    ¬ ∀ (text : String) (program : Program Exact), parse text = .ok program →
      ∀ l ∈ numbered text, ∀ token, Text.firstToken? l.1 = some token → Code.Restores token →
        ∃ fault, Admission.check program.commands = .error fault := by
  intro refused
  have lines : numbered "G060" = [("G060".toList, 1)] := by decide +kernel
  have save : Code.Restores "G060".toList := .inl ⟨'G', "060".toList, rfl, Decimal.Counts.of_zeros 1 60, rfl⟩
  have first : Text.firstToken? "G060".toList = some "G060".toList := by decide +kernel
  obtain ⟨program, read⟩ : ∃ program : Program Exact, parse "G060" = .ok program := by
    refine exists_parse_of_restores ?_
    rw [lines]
    exact List.forall_mem_singleton.mpr ⟨_, first, save⟩
  have admitted := (check_eq_ok_iff_fine read).mpr <| by
    rw [lines]
    exact List.forall_mem_singleton.mpr ((fine_of_restores first save).mpr (by decide))
  obtain ⟨fault, failed⟩ := refused "G060" program read _ (by rw [lines]; exact List.mem_cons_self) _ first save
  cases admitted.symm.trans failed

end Program

end Seam
