import Seam.Program
import Seam.Proofs.Height

/-!
Admitted programs. What the admission objects to (`Admission.objection?_eq_some_iff`)
is what could not be followed: every other line has an outcome, and none declares the
height (`Command.Admitted`). So heights are counted from the bed all along a program,
and its floor is found (`Floor.exists_ofCommands`).
-/
namespace Seam

namespace Admission

variable {α : Type} {line : ℕ} {c : Command α} {fault : Fault α}

/-- What is wrong with a line on its own. -/
inductive Offends (line : ℕ) : Command α → Fault α → Prop
  | prohibited {c : Command α} {token : String} (leading : c.leadingToken? = some token)
      (listed : token ∈ Admission.prohibited) : Offends line c (.prohibitedCommand line token)
  | position {words : Words α} {comment : Option String} (height : words.contains 'Z' = true) :
      Offends line (.instruction ⟨.setPosition, words, comment⟩) (.positionReset line)
  | reset (words : Words α) (comment : Option String) :
      Offends line (.instruction ⟨.resetPosition, words, comment⟩) (.positionReset line)
  | homing {words : Words α} {comment : Option String} (untrusted : words.contains 'O' = true) :
      Offends line (.instruction ⟨.home, words, comment⟩) (.trustedHoming line)

theorem objection?_eq_some_iff : objection? line c = some fault ↔ Offends line c fault := by
  constructor
  · intro objected
    cases c with
    | comment => cases objected
    | verbatim text =>
      unfold objection? at objected
      split at objected
      · next token leading =>
        split at objected
        · next listed => cases objected; exact .prohibited leading listed
        · cases objected
      · cases objected
    | instruction i =>
      obtain ⟨code, words, comment⟩ := i
      simp only [objection?, Command.leadingToken?] at objected
      cases code <;> simp only [reduceCtorEq] at objected
      case setPosition =>
        split at objected
        · next height => cases objected; exact .position height
        · cases objected
      case resetPosition => cases objected; exact .reset words comment
      case home =>
        split at objected
        · next untrusted => cases objected; exact .homing untrusted
        · cases objected
  · intro offends
    cases offends with
    | prohibited leading listed => simp [objection?, leading, listed]
    | position height => simp [objection?, Command.leadingToken?, height]
    | reset => rfl
    | homing untrusted => simp [objection?, Command.leadingToken?, untrusted]

end Admission

/-- There is nothing wrong with the line, wherever it stands. -/
def Command.Admitted {α : Type} (c : Command α) : Prop := ∀ line fault, ¬ Admission.Offends line c fault

namespace Admission

variable {α : Type} {c : Command α} {commands : List (Command α)}

/-- Whether a line is wrong does not depend on where it stands. -/
theorem admitted_of_objection? {line : ℕ} (fine : objection? line c = none) : c.Admitted := by
  intro line' fault offends
  have clear (fault : Fault α) : ¬ Offends line c fault := fun here => by
    rw [← objection?_eq_some_iff, fine] at here
    cases here
  cases offends with
  | prohibited leading listed => exact clear _ (.prohibited leading listed)
  | position height => exact clear _ (.position height)
  | reset => exact clear _ (.reset _ _)
  | homing untrusted => exact clear _ (.homing untrusted)

theorem objection?_of_admitted (admitted : c.Admitted) (line : ℕ) : objection? line c = none := by
  cases objected : objection? line c with
  | none => rfl
  | some fault => exact absurd (objection?_eq_some_iff.mp objected) (admitted line fault)

theorem check_eq_ok_iff : check commands = .ok () ↔ ∀ c ∈ commands, c.Admitted := by
  unfold check
  constructor
  · intro checked c mem
    split at checked
    · cases checked
    · next clear =>
      obtain ⟨k, there⟩ := List.mem_iff_getElem?.mp mem
      have numbered : (c, k + 1) ∈ commands.zipIdx 1 := by
        rw [List.mem_zipIdx_iff_le_and_getElem?_sub]
        exact ⟨Nat.le_add_left 1 k, by rw [Nat.add_sub_cancel]; exact there⟩
      exact admitted_of_objection? (List.findSome?_eq_none_iff.mp clear _ numbered)
  · intro admitted
    rw [List.findSome?_eq_none_iff.mpr]
    rintro ⟨c, line⟩ numbered
    exact objection?_of_admitted (admitted c (List.fst_mem_of_mem_zipIdx numbered)) line

end Admission

namespace Command.Admitted

variable {c : Command Exact}

theorem trusted {α : Type} [Scalar α] {c : Command α} (admitted : c.Admitted) : c.isUntrusted = false := by
  cases c with
  | comment => rfl
  | verbatim => rfl
  | instruction i =>
    obtain ⟨code, words, comment⟩ := i
    by_cases home : code = .home
    · subst home
      have fine : ¬ words.contains 'O' = true := fun untrusted => admitted 0 _ (.homing untrusted)
      simpa [isUntrusted, code?, words?] using fine
    · simp [isUntrusted, code?, home]

/-- An admitted line does not declare the height. -/
theorem effect_ne_declare {α : Type} [Scalar α] {c : Command α} (admitted : c.Admitted) (mode : Mode) (v : α) :
    c.effect mode (.axis .z) ≠ .declare v := by
  intro declares
  cases c with
  | comment => cases declares
  | verbatim => cases declares
  | instruction i =>
    obtain ⟨code, words, comment⟩ := i
    cases code
    case setPosition =>
      cases height : words.get? 'Z' with
      | none =>
        simp only [effect, code?, number?, words?, Option.bind_some, Words.axis?, Axis.letter, height] at declares
        cases declares
      | some z => exact admitted 0 _ (.position (by rw [Words.contains, height]; rfl))
    case resetPosition => exact admitted 0 _ (.reset words comment)
    case home => simp only [effect, code?] at declares; split at declares <;> cases declares
    case rapidMove | linearMove =>
      simp only [effect, code?] at declares
      cases number : Command.number? (.instruction ⟨_, words, comment⟩) (.axis .z) <;> rw [number] at declares <;>
        cases mode <;> cases declares
    all_goals cases declares

theorem not_declares (admitted : c.Admitted) : ¬ c.Declares (.axis .z) := by
  rintro ⟨mode, v, declares⟩
  exact admitted.effect_ne_declare mode v declares

end Command.Admitted

/-- Heights are counted from the bed. -/
def Machine.Grounded (m : Machine Exact) : Prop := m.offset.z = .real 0

namespace Machine

variable {m next last : Machine Exact} {c : Command Exact}

theorem Grounded.physical_z (grounded : m.Grounded) : m.physical.z = m.position.z := by
  show m.position.z + m.offset.z = _
  rw [grounded, Exact.add_zero]

theorem grounded_powerOn : (powerOn : Machine Exact).Grounded := Exact.zero_eq

theorem Grounded.after (grounded : m.Grounded) (undeclared : ¬ c.Declares (.axis .z)) (stepped : m.after c = .ok next) :
    next.Grounded := by
  have offset : next.offset.z = ((c.effect (m.mode (.axis .z)) (.axis .z)).apply (m.gauge (.axis .z))).offset :=
    congrArg Gauge.offset (after_gauge stepped (.axis .z))
  rw [Grounded, offset]
  cases done : c.effect (m.mode (.axis .z)) (.axis .z) with
  | declare v => exact absurd ⟨_, v, done⟩ undeclared
  | home => exact Exact.zero_eq
  | _ => exact grounded

/-- The height of a machine that counts from the bed is a real where it counts for the floor. -/
private theorem Grounded.exists_lower (grounded : m.Grounded) (f : ℝ) : ∃ g : ℝ, Floor.lower (.real f) m = .ok (.real g) := by
  cases height : Floor.height? m with
  | none => exact ⟨f, by rw [Floor.lower, height]⟩
  | some z =>
    obtain ⟨r, rfl⟩ : z.IsReal := by
      rw [Floor.height?] at height
      split at height
      case isFalse => cases height
      case isTrue counts =>
        obtain ⟨_, known⟩ := Bool.and_eq_true_iff.mp counts
        obtain ⟨p, position⟩ := (Point.isKnown_iff _).mp known
        cases height
        exact ⟨p.z, by rw [grounded, position, Exact.add_zero]; rfl⟩
    refine ⟨if r < f then r else f, ?_⟩
    rw [Floor.lower, height]
    simp only [Exact.isFinite_real, ↓reduceIte, Exact.real_lt]
    split <;> rfl

end Machine

/-- Along an admitted program the floor is a real while heights are counted from the bed. -/
private theorem Floor.exists_search {m : Machine Exact} {commands : List (Command Exact)}
    (admitted : ∀ c ∈ commands, c.Admitted)
    (grounded : m.Grounded) (f : ℝ) : ∃ last g, search m (.real f) commands = .ok (last, .real g) := by
  induction commands generalizing m f with
  | nil => exact ⟨m, f, rfl⟩
  | cons c cs ih =>
    obtain ⟨here, others⟩ := List.forall_mem_cons.mp admitted
    obtain ⟨next, stepped⟩ := Machine.after_isOk_iff.mpr here.trusted
    have grounded_next := grounded.after here.not_declares stepped
    obtain ⟨g, lowered⟩ := grounded_next.exists_lower f
    obtain ⟨last, lowest, later⟩ := ih others grounded_next g
    exact ⟨last, lowest, search_cons_eq_ok_iff.mpr ⟨next, .real g, stepped, lowered, later⟩⟩

/-- The floor of an admitted program is found, and is a real. -/
theorem Floor.exists_ofCommands {commands : List (Command Exact)} (admitted : ∀ c ∈ commands, c.Admitted) :
    ∃ f : ℝ, ofCommands commands = .ok (.real f) := by
  obtain ⟨last, f, searched⟩ := exists_search admitted Machine.grounded_powerOn 0
  rw [← Exact.zero_eq] at searched
  exact ⟨f, ofCommands_eq_ok_iff.mpr ⟨last, searched⟩⟩

end Seam
