import Seam.Proofs.Totality

/-!
The answer to a text. A text is rewritten if all of its lines can be read, all of the
lengths are positive reals and no line is objected to. Otherwise the answer is the first
thing that is wrong: with the reading of a line, then with a length, then with a line
that was read (`FirstFailure`, `Pass.rewriteText_total`).
-/
namespace Seam

private theorem Except.mapM_eq_ok_iff {ε β γ : Type} {f : β → Except ε γ} {xs : List β} {ys : List γ} :
    xs.mapM f = .ok ys ↔ List.Forall₂ (fun x y => f x = .ok y) xs ys := by
  induction xs generalizing ys with
  | nil =>
    constructor
    · intro whole; cases whole; exact .nil
    · intro all; cases all; rfl
  | cons x xs ih =>
    rw [List.mapM_cons, Except.bind_eq_ok_iff]
    constructor
    · rintro ⟨y, here, rest⟩
      obtain ⟨others, later, same⟩ := Except.bind_eq_ok_iff.mp rest
      cases same
      exact .cons here (ih.mp later)
    · intro all
      cases all with
      | cons here later => exact ⟨_, here, Except.bind_eq_ok_iff.mpr ⟨_, ih.mpr later, rfl⟩⟩

/-- Going through a list stops at the first member with a fault. -/
private theorem Except.mapM_eq_error_iff {ε β γ : Type} {f : β → Except ε γ} {xs : List β} {e : ε} :
    xs.mapM f = .error e ↔ ∃ front x back, xs = front ++ x :: back ∧ f x = .error e ∧ ∀ y ∈ front, ∃ z, f y = .ok z := by
  induction xs with
  | nil =>
    constructor
    · intro failed; cases failed
    · rintro ⟨front, x, back, split, _⟩
      cases front <;> cases split
  | cons x xs ih =>
    rw [List.mapM_cons, Except.bind_eq_error_iff]
    constructor
    · rintro (here | ⟨y, here, later⟩)
      · exact ⟨[], x, xs, rfl, here, List.forall_mem_nil _⟩
      · rcases Except.bind_eq_error_iff.mp later with later | ⟨_, _, none⟩
        · obtain ⟨front, x', back, rfl, failed, before⟩ := ih.mp later
          exact ⟨x :: front, x', back, rfl, failed, List.forall_mem_cons.mpr ⟨⟨y, here⟩, before⟩⟩
        · cases none
    · rintro ⟨front, x', back, split, failed, before⟩
      cases front with
      | nil => cases split; exact .inl failed
      | cons _ front =>
        cases split
        obtain ⟨⟨y, here⟩, others⟩ := List.forall_mem_cons.mp before
        exact .inr ⟨y, here, Except.bind_eq_error_iff.mpr (.inl (ih.mpr ⟨front, x', back, rfl, failed, others⟩))⟩

private theorem List.findSome?_of_forall₂ {β γ δ : Type} {f : β → Option δ} {g : γ → Option δ} {R : β → γ → Prop} {xs : List β}
    {ys : List γ} (related : List.Forall₂ R xs ys) (alike : ∀ x y, R x y → f x = g y) :
    xs.findSome? f = ys.findSome? g := by
  induction related with
  | nil => rfl
  | cons here _ ih => rw [List.findSome?_cons, List.findSome?_cons, alike _ _ here, ih]

namespace Command

variable {α : Type} [Scalar α] {line : ℕ}

private theorem invalidSyntax_of_readWord {code : Code} {token : List Char} {fault : Fault α}
    (failed : readWord code line token = .error fault) : ∃ reason, fault = .invalidSyntax line reason := by
  rw [readWord] at failed
  split at failed
  · cases failed
    exact ⟨_, rfl⟩
  · split at failed
    · cases failed
    · cases failed
      exact ⟨_, rfl⟩

private theorem invalidSyntax_of_readWords {code : Code} {tokens : List (List Char)} {fault : Fault α}
    (failed : readWords code line tokens = .error fault) : ∃ reason, fault = .invalidSyntax line reason := by
  rw [readWords] at failed
  generalize Words.empty = held at failed
  induction tokens generalizing held with
  | nil => cases failed
  | cons token tokens ih =>
    rw [List.foldlM_cons] at failed
    rcases Except.bind_eq_error_iff.mp failed with first | ⟨more, _, rest⟩
    · rcases Except.bind_eq_error_iff.mp first with word | ⟨_, _, none⟩
      · exact invalidSyntax_of_readWord word
      · cases none
    · exact ih more rest

theorem invalidSyntax_of_readLine {cs : List Char} {fault : Fault α} (failed : readLine line cs = .error fault) :
    ∃ reason, fault = .invalidSyntax line reason := by
  rw [readLine.eq_def] at failed
  split at failed
  · cases failed
  · simp only at failed
    split at failed
    · cases failed
    · split at failed
      · cases failed
      · rcases Except.bind_eq_error_iff.mp failed with words | ⟨_, _, none⟩
        · exact invalidSyntax_of_readWords words
        · cases none

end Command

/-- The lines of a text with their numbers. -/
def Program.numbered (text : String) : List (List Char × ℕ) := (linesOf text).zipIdx 1

/-- Every line of the text can be read. -/
def Program.Reads (text : String) : Prop := ∀ l ∈ numbered text, ∃ c : Command Exact, Command.readLine l.2 l.1 = .ok c

/-- No line of the text that can be read is objected to. -/
def Program.Clear (text : String) : Prop :=
  ∀ l ∈ numbered text, ∀ c : Command Exact, Command.readLine l.2 l.1 = .ok c → ∀ fault, ¬ Admission.Offends l.2 c fault

namespace Program

variable {α : Type} [Scalar α] {text : String}

theorem parse_eq_ok_iff {program : Program α} :
    parse text = .ok program ↔
      List.Forall₂ (fun l c => Command.readLine l.2 l.1 = .ok c) (numbered text) program.commands ∧
        program = ⟨program.commands, LineEnding.detect text, text.toList.getLast? == some '\n'⟩ := by
  unfold parse
  rw [Except.bind_eq_ok_iff]
  constructor
  · rintro ⟨commands, lines, same⟩
    cases same
    exact ⟨Except.mapM_eq_ok_iff.mp lines, rfl⟩
  · rintro ⟨lines, same⟩
    exact ⟨program.commands, Except.mapM_eq_ok_iff.mpr lines, congrArg Except.ok same.symm⟩

private theorem parse_eq_error_iff {fault : Fault α} :
    (parse text : Except _ (Program α)) = .error fault ↔ ∃ front l back, numbered text = front ++ l :: back ∧
      (Command.readLine l.2 l.1 : Except _ (Command α)) = .error fault ∧
        ∀ l' ∈ front, ∃ c : Command α, Command.readLine l'.2 l'.1 = .ok c := by
  unfold parse
  rw [Except.bind_eq_error_iff]
  constructor
  · rintro (lines | ⟨_, _, none⟩)
    · exact Except.mapM_eq_error_iff.mp lines
    · cases none
  · intro failed
    exact .inl (Except.mapM_eq_error_iff.mpr failed)

theorem mem_of_parse {program : Program α} (read : parse text = .ok program) {l : List Char × ℕ}
    (mem : l ∈ numbered text) : ∃ c ∈ program.commands, Command.readLine l.2 l.1 = .ok c := by
  have lines := (parse_eq_ok_iff.mp read).1
  generalize numbered text = ls at lines mem
  generalize program.commands = cs at lines
  induction lines with
  | nil => cases mem
  | @cons _ d _ ds here _ ih =>
    rcases List.mem_cons.mp mem with rfl | later
    · exact ⟨d, List.mem_cons_self, here⟩
    · obtain ⟨c, listed, given⟩ := ih later
      exact ⟨c, List.mem_cons_of_mem d listed, given⟩

/-- A program is read if all of its lines are. -/
theorem exists_parse_iff :
    (∃ program : Program α, parse text = .ok program) ↔
      ∀ l ∈ numbered text, ∃ c : Command α, Command.readLine l.2 l.1 = .ok c := by
  constructor
  · rintro ⟨program, read⟩ l mem
    obtain ⟨c, _, given⟩ := mem_of_parse read mem
    exact ⟨c, given⟩
  · intro reads
    cases read : (parse text : Except _ (Program α)) with
    | ok program => exact ⟨program, rfl⟩
    | error fault =>
      obtain ⟨front, l, back, split, failed, _⟩ := parse_eq_error_iff.mp read
      obtain ⟨c, given⟩ := reads l (by rw [split]; exact List.mem_append_cons_self)
      cases given.symm.trans failed

private theorem forall₂_zipIdx {cs : List (List Char)} {n : ℕ} {commands : List (Command α)}
    (read : List.Forall₂ (fun l c => Command.readLine l.2 l.1 = .ok c) (cs.zipIdx n) commands) :
    List.Forall₂ (fun l d => d.2 = l.2 ∧ Command.readLine l.2 l.1 = .ok d.1) (cs.zipIdx n) (commands.zipIdx n) := by
  induction cs generalizing n commands with
  | nil => cases read; exact .nil
  | cons c cs ih =>
    rw [List.zipIdx_cons] at read ⊢
    cases read with
    | cons here later => exact .cons ⟨rfl, here⟩ (ih later)

/-- What is objected to in a line of the text, if it can be read. -/
def objectionTo? (l : List Char × ℕ) : Option (Fault α) :=
  (Command.readLine l.2 l.1).toOption.bind (Admission.objection? l.2)

private theorem objectionTo?_of_readLine {l : List Char × ℕ} {c : Command α} (given : Command.readLine l.2 l.1 = .ok c) :
    objectionTo? l = Admission.objection? l.2 c := by
  rw [objectionTo?, given]
  rfl

private theorem check_eq_error_iff_objectionTo? {program : Program α} (read : parse text = .ok program) {fault : Fault α} :
    Admission.check program.commands = .error fault ↔ (numbered text).findSome? (objectionTo? (α := α)) = some fault := by
  have related : List.Forall₂ (fun l d => d.2 = l.2 ∧ Command.readLine l.2 l.1 = .ok d.1) (numbered text)
      (program.commands.zipIdx 1) := forall₂_zipIdx (parse_eq_ok_iff.mp read).1
  rw [Admission.check, ← List.findSome?_of_forall₂ (f := objectionTo?) related fun l d here => ?_]
  · cases (numbered text).findSome? (objectionTo? (α := α)) <;> simp
  · rw [objectionTo?_of_readLine here.2, ← here.1]

/-- The first objection to a program that was read is the first one to a line of its text. -/
theorem check_of_parse {program : Program α} (read : parse text = .ok program) (fault : Fault α) :
    Admission.check program.commands = .error fault ↔ ∃ front l back c, numbered text = front ++ l :: back ∧
      Command.readLine l.2 l.1 = .ok c ∧ Admission.Offends l.2 c fault ∧
        ∀ l' ∈ front, ∀ d : Command α, Command.readLine l'.2 l'.1 = .ok d → ∀ fault, ¬ Admission.Offends l'.2 d fault := by
  have reads := exists_parse_iff.mp ⟨program, read⟩
  rw [check_eq_error_iff_objectionTo? read, List.findSome?_eq_some_iff]
  constructor
  · rintro ⟨front, l, back, split, found, before⟩
    obtain ⟨c, given⟩ := reads l (by rw [split]; exact List.mem_append_cons_self)
    rw [objectionTo?_of_readLine given] at found
    refine ⟨front, l, back, c, split, given, Admission.objection?_eq_some_iff.mp found, fun l' mem d given' fault offends => ?_⟩
    have clear := before l' mem
    rw [objectionTo?_of_readLine given', Admission.objection?_eq_some_iff.mpr offends] at clear
    cases clear
  · rintro ⟨front, l, back, c, split, given, offends, before⟩
    refine ⟨front, l, back, split, ?_, fun l' mem => ?_⟩
    · rw [objectionTo?_of_readLine given]
      exact Admission.objection?_eq_some_iff.mpr offends
    · obtain ⟨d, given'⟩ := reads l' (by rw [split]; exact List.mem_append_left _ mem)
      rw [objectionTo?_of_readLine given']
      cases objected : Admission.objection? l'.2 d with
      | none => rfl
      | some fault => exact absurd (Admission.objection?_eq_some_iff.mp objected) (before l' mem d given' fault)

end Program

namespace Tuning

/-- What is wrong with a length under the given name. -/
inductive Unfit (name : String) : Exact → Tuning.Fault Exact → Prop
  | unreal {value : Exact} (unreal : ¬ value.IsReal) :
      Unfit name value (.invalidValue name (Scalar.text value ++ " is not a finite number"))
  | outOfRange {r : ℝ} (low : r ≤ 0) : Unfit name (.real r) (.outOfRange name (.real r) 0)

def Usable (t : Tuning Exact) : Prop := ∀ entry ∈ t.entries, ∃ r : ℝ, 0 < r ∧ entry.2 = .real r

variable {name : String} {value : Exact} {t : Tuning Exact}

theorem objection?_eq_some_iff {fault : Tuning.Fault Exact} :
    objection? name value = some fault ↔ Unfit name value fault := by
  unfold objection?
  by_cases finite : value.IsReal
  · obtain ⟨r, rfl⟩ := finite
    simp only [Exact.isFinite_real, Bool.not_true, Bool.false_eq_true, ↓reduceIte, Exact.zero_eq, Exact.real_le]
    by_cases low : r ≤ 0
    · rw [if_pos low, Option.some.injEq]
      constructor
      · rintro rfl
        exact Exact.zero_eq ▸ .outOfRange low
      · intro unfit
        cases unfit with
        | unreal unreal => exact absurd ⟨r, rfl⟩ unreal
        | outOfRange => rw [Exact.zero_eq]
    · rw [if_neg low]
      constructor
      · intro none
        cases none
      · intro unfit
        cases unfit with
        | unreal unreal => exact absurd ⟨r, rfl⟩ unreal
        | outOfRange le => exact absurd le low
  · have infinite : Scalar.isFinite value = false := Bool.eq_false_iff.mpr fun known => finite (Exact.isFinite_iff.mp known)
    simp only [infinite, Bool.not_false, ↓reduceIte, Option.some.injEq]
    constructor
    · rintro rfl
      exact .unreal finite
    · intro unfit
      cases unfit with
      | unreal => rfl
      | outOfRange => exact absurd ⟨_, rfl⟩ finite

private theorem objection?_eq_none_iff : objection? name value = none ↔ ∃ r : ℝ, 0 < r ∧ value = .real r := by
  constructor
  · intro fine
    have fit (fault : Tuning.Fault Exact) : ¬ Unfit name value fault := fun unfit => by
      rw [← objection?_eq_some_iff, fine] at unfit
      cases unfit
    obtain ⟨r, rfl⟩ := not_not.mp fun unreal => fit _ (.unreal unreal)
    exact ⟨r, not_le.mp fun low => fit _ (.outOfRange low), rfl⟩
  · rintro ⟨r, positive, rfl⟩
    cases objected : objection? name (Exact.real r) with
    | none => rfl
    | some fault =>
      cases objection?_eq_some_iff.mp objected with
      | unreal unreal => exact absurd ⟨r, rfl⟩ unreal
      | outOfRange low => exact absurd positive (not_lt.mpr low)

private theorem check_eq_error_iff {fault : Tuning.Fault Exact} :
    t.check = .error fault ↔ ∃ front name value back, t.entries = front ++ (name, value) :: back ∧
      Unfit name value fault ∧ ∀ entry ∈ front, ∃ r : ℝ, 0 < r ∧ entry.2 = .real r := by
  have checked : t.check = .error fault ↔
      t.entries.findSome? (fun (name, value) => objection? name value) = some fault := by
    unfold check
    cases t.entries.findSome? (fun (name, value) => objection? name value) <;> simp
  rw [checked, List.findSome?_eq_some_iff]
  constructor
  · rintro ⟨front, ⟨name, value⟩, back, split, found, before⟩
    exact ⟨front, name, value, back, split, objection?_eq_some_iff.mp found, fun entry mem =>
      objection?_eq_none_iff.mp (before entry mem)⟩
  · rintro ⟨front, name, value, back, split, unfit, before⟩
    exact ⟨front, (name, value), back, split, objection?_eq_some_iff.mpr unfit, fun entry mem =>
      objection?_eq_none_iff.mpr (before entry mem)⟩

theorem check_eq_ok_iff : t.check = .ok () ↔ t.Usable := by
  constructor
  · exact lengths_of_check
  · intro usable
    cases checked : t.check with
    | ok => rfl
    | error fault =>
      obtain ⟨front, name, value, back, split, unfit, _⟩ := check_eq_error_iff.mp checked
      obtain ⟨r, positive, real⟩ := usable (name, value) (by rw [split]; exact List.mem_append_cons_self)
      rw [← objection?_eq_some_iff, objection?_eq_none_iff.mpr ⟨r, positive, real⟩] at unfit
      cases unfit

end Tuning

/-- What a text is rewritten to. -/
theorem Pass.rewriteText_eq_ok_iff {α : Type} [Scalar α] {p : Pass α} {ending : LineEnding → LineEnding}
    {text written : String} {report : Report α} :
    p.rewriteText ending text = .ok (written, report) ↔ ∃ program rewritten, Program.parse text = .ok program ∧
      p.rewrite program.commands = .ok rewritten ∧ report = rewritten.report ∧
        written = ({ program with lineEnding := ending program.lineEnding } : Program α).renderCommands rewritten.commands := by
  unfold rewriteText
  rw [Except.bind_eq_ok_iff]
  refine exists_congr fun program => ?_
  rw [Except.mapError_eq_ok_iff, Except.bind_eq_ok_iff, exists_and_left]
  refine and_congr_right fun _ => exists_congr fun rewritten => and_congr_right fun _ => ?_
  simp only [pure, Except.pure, Except.ok.injEq, Prod.mk.injEq]
  exact ⟨fun ⟨text, report⟩ => ⟨report.symm, text.symm⟩, fun ⟨report, text⟩ => ⟨text.symm, report.symm⟩⟩

/-- The first thing that is wrong with a text and the tuning. -/
inductive FirstFailure (p : Pass Exact) (text : String) : Failure Exact → Prop
  | malformed {front back : List (List Char × ℕ)} {l : List Char × ℕ} {reason : String}
      (split : Program.numbered text = front ++ l :: back)
      (malformed : (Command.readLine l.2 l.1 : Except _ (Command Exact)) = .error (.invalidSyntax l.2 reason))
      (before : ∀ l' ∈ front, ∃ c : Command Exact, Command.readLine l'.2 l'.1 = .ok c) :
      FirstFailure p text (.program (.invalidSyntax l.2 reason))
  | unfit {front back : List (String × Exact)} {name : String} {value : Exact} {fault : Tuning.Fault Exact}
      (reads : Program.Reads text) (split : p.tuning.entries = front ++ (name, value) :: back)
      (unfit : Tuning.Unfit name value fault) (before : ∀ entry ∈ front, ∃ r : ℝ, 0 < r ∧ entry.2 = .real r) :
      FirstFailure p text (.tuning fault)
  | offends {front back : List (List Char × ℕ)} {l : List Char × ℕ} {c : Command Exact} {fault : Fault Exact}
      (reads : Program.Reads text) (usable : p.tuning.Usable) (split : Program.numbered text = front ++ l :: back)
      (read : Command.readLine l.2 l.1 = .ok c) (offends : Admission.Offends l.2 c fault)
      (before : ∀ l' ∈ front, ∀ d : Command Exact, Command.readLine l'.2 l'.1 = .ok d →
        ∀ fault, ¬ Admission.Offends l'.2 d fault) : FirstFailure p text (.program fault)

namespace Pass

variable {p : Pass Exact} {commands : List (Command Exact)} {failure : Failure Exact}

private theorem rewrite_eq_error_iff :
    p.rewrite commands = .error failure ↔ (∃ fault, p.tuning.check = .error fault ∧ failure = .tuning fault) ∨
      p.tuning.check = .ok () ∧ ∃ fault, Admission.check commands = .error fault ∧ failure = .program fault := by
  cases checked : p.tuning.check with
  | error fault =>
    have failed : p.rewrite commands = .error (.tuning fault) := by
      rw [rewrite, checked]
      rfl
    simp only [failed, Except.error.injEq, reduceCtorEq, false_and, or_false, exists_eq_left', eq_comm]
  | ok =>
    cases objected : Admission.check commands with
    | error fault =>
      have failed : p.rewrite commands = .error (.program fault) := by
        rw [rewrite, checked, objected]
        rfl
      simp only [failed, Except.error.injEq, reduceCtorEq, false_and, exists_false, false_or, true_and, exists_eq_left',
        eq_comm]
    | ok =>
      obtain ⟨rewritten, written⟩ := exists_rewrite_iff.mpr ⟨checked, objected⟩
      simp only [written, reduceCtorEq, false_and, exists_false, and_false, or_self]

private theorem rewriteText_eq_error_iff {ending : LineEnding → LineEnding} {text : String} :
    p.rewriteText ending text = .error failure ↔ FirstFailure p text failure := by
  have failing : p.rewriteText ending text = .error failure ↔
      (∃ fault, Program.parse text = (.error fault : Except _ (Program Exact)) ∧ failure = .program fault) ∨
        ∃ program, Program.parse text = .ok program ∧ p.rewrite program.commands = .error failure := by
    unfold rewriteText
    rw [Except.bind_eq_error_iff, Except.mapError_eq_error_iff]
    refine or_congr_right (exists_congr fun program => ?_)
    rw [Except.mapError_eq_ok_iff, Except.bind_eq_error_iff]
    simp [pure, Except.pure]
  rw [failing]
  constructor
  · rintro (⟨fault, failed, rfl⟩ | ⟨program, read, failed⟩)
    · obtain ⟨front, l, back, split, failed, before⟩ := Program.parse_eq_error_iff.mp failed
      obtain ⟨reason, rfl⟩ := Command.invalidSyntax_of_readLine failed
      exact .malformed split failed before
    · have reads := Program.exists_parse_iff.mp ⟨program, read⟩
      rcases rewrite_eq_error_iff.mp failed with ⟨fault, unfit, rfl⟩ | ⟨usable, fault, objected, rfl⟩
      · obtain ⟨front, name, value, back, split, unfit, before⟩ := Tuning.check_eq_error_iff.mp unfit
        exact .unfit reads split unfit before
      · obtain ⟨front, l, back, c, split, given, offends, before⟩ := (Program.check_of_parse read fault).mp objected
        exact .offends reads (Tuning.check_eq_ok_iff.mp usable) split given offends before
  · intro fails
    cases fails with
    | malformed split malformed before =>
      exact .inl ⟨_, Program.parse_eq_error_iff.mpr ⟨_, _, _, split, malformed, before⟩, rfl⟩
    | unfit reads split unfit before =>
      obtain ⟨program, read⟩ := Program.exists_parse_iff.mpr reads
      refine .inr ⟨program, read, rewrite_eq_error_iff.mpr (.inl ⟨_, ?_, rfl⟩)⟩
      exact Tuning.check_eq_error_iff.mpr ⟨_, _, _, _, split, unfit, before⟩
    | offends reads usable split given offends before =>
      obtain ⟨program, read⟩ := Program.exists_parse_iff.mpr reads
      refine .inr ⟨program, read, rewrite_eq_error_iff.mpr (.inr ⟨Tuning.check_eq_ok_iff.mpr usable, _, ?_, rfl⟩)⟩
      exact (Program.check_of_parse read _).mpr ⟨_, _, _, _, split, given, offends, before⟩

private theorem exists_rewriteText_iff {ending : LineEnding → LineEnding} {text : String} :
    (∃ written, p.rewriteText ending text = .ok written) ↔
      Program.Reads text ∧ p.tuning.Usable ∧ Program.Clear text := by
  constructor
  · rintro ⟨written, rewrote⟩
    obtain ⟨program, read, later⟩ := Except.bind_eq_ok_iff.mp rewrote
    have read := Except.mapError_eq_ok_iff.mp read
    obtain ⟨rewritten, rewrote, _⟩ := Except.bind_eq_ok_iff.mp later
    obtain ⟨usable, admitted⟩ := exists_rewrite_iff.mp ⟨rewritten, rewrote⟩
    refine ⟨Program.exists_parse_iff.mp ⟨program, read⟩, Tuning.check_eq_ok_iff.mp usable, fun l mem c given => ?_⟩
    obtain ⟨d, listed, same⟩ := Program.mem_of_parse read mem
    cases given.symm.trans same
    exact Admission.check_eq_ok_iff.mp admitted c listed l.2
  · rintro ⟨reads, usable, clear⟩
    cases answer : p.rewriteText ending text with
    | ok written => exact ⟨written, rfl⟩
    | error failure =>
      -- none of the things that can be wrong first is wrong
      cases rewriteText_eq_error_iff.mp answer with
      | malformed split malformed _ =>
        obtain ⟨c, given⟩ := reads _ (by rw [split]; exact List.mem_append_cons_self)
        cases given.symm.trans malformed
      | unfit _ split unfit _ =>
        obtain ⟨r, positive, real⟩ := usable _ (by rw [split]; exact List.mem_append_cons_self)
        rw [← Tuning.objection?_eq_some_iff, Tuning.objection?_eq_none_iff.mpr ⟨r, positive, real⟩] at unfit
        cases unfit
      | offends _ _ split given offends _ =>
        exact absurd offends (clear _ (by rw [split]; exact List.mem_append_cons_self) _ given _)

/-- A text is rewritten exactly if its lines can be read, the lengths are positive reals and no line is objected to;
    otherwise the answer is the first thing that is wrong. Once a program is admitted, its floor is found and it is cut
    into blocks: nothing that comes later asks for what is not known. -/
theorem rewriteText_total (p : Pass Exact) (ending : LineEnding → LineEnding) (text : String) :
    ((∃ written, p.rewriteText ending text = .ok written) ↔
      Program.Reads text ∧ p.tuning.Usable ∧ Program.Clear text) ∧
    (∀ failure, p.rewriteText ending text = .error failure ↔ FirstFailure p text failure) ∧
    ∀ commands, p.tuning.check = .ok () → Admission.check commands = .ok () →
      ∃ f : ℝ, Floor.ofCommands commands = .ok (.real f) ∧ ∃ blocks, p.blocks (.real f) commands = .ok blocks := by
  refine ⟨exists_rewriteText_iff, fun failure => rewriteText_eq_error_iff, ?_⟩
  intro commands usable admitted
  exact exists_blocks usable admitted

end Pass

end Seam
