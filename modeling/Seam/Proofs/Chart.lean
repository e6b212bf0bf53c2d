import Seam.Proofs.Known
import Seam.Proofs.Slip

/-!
What is known of the position, said without a mark for what is not. A chart keeps for
every axis the logical coordinate and the offset, if they are known (`Reading`), and
follows a program by rules that forget, learn and keep (`Chart.after`). The machine is in
step with its chart (`Chart.Describes.after`, `Chart.Describes.replay`): its coordinates
are those of the chart, and positive infinity where the chart has none. So the mark never
is mistaken for a coordinate, and the physical position is known exactly if everything on
the chart is (`Chart.mirrors_of_replay`).
-/
namespace Seam

/-- What is known of an axis. -/
structure Reading where
  logical : Option ℝ
  offset : Option ℝ

namespace Reading

/-- The axis is followed in both frames. -/
def IsKnown (r : Reading) : Prop := ∃ l o, r = ⟨some l, some o⟩

noncomputable def physical? (r : Reading) : Option ℝ := do return (← r.logical) + (← r.offset)

/-- Behind a straight motion. A coordinate that is not known is none the better known for going on from it. -/
noncomputable def move (r : Reading) (number : Option ℝ) : Mode → Reading
  | .absolute => { r with logical := number.or r.logical }
  | .relative => { r with logical := r.logical.map (· + number.getD 0) }

def forget (r : Reading) : Reading := { r with logical := none }

def home : Reading := ⟨some 0, some 0⟩

/-- Behind a declaration, which gives the place a new name; where the place is not known, it stays so. -/
noncomputable def declare (r : Reading) (value : ℝ) : Reading := ⟨some value, r.physical?.map (· - value)⟩

end Reading

/-- What is known of the position, and how coordinates are meant. -/
structure Chart where
  positioning : Mode
  reading : Axis → Reading

namespace Command

variable {α : Type} [Scalar α]

/-- Does the line home the axis? -/
def homes (c : Command α) (a : Axis) : Bool :=
  c.code? = some .home && (!c.words?.any Words.hasAxis || (c.number? (.axis a)).isSome)

/-- The count that the line declares for a dial, if it declares one. -/
def declared? (c : Command α) (dial : Dial) : Option α :=
  match c.code?, dial with
  | some .setPosition, _ => c.number? dial
  | some .resetPosition, .axis _ => some 0
  | _, _ => none

end Command

namespace Chart

/-- The chart when the machine is switched on. -/
def powerOn : Chart := ⟨.absolute, fun _ => ⟨none, some 0⟩⟩

/-- The chart after a line. -/
noncomputable def after (k : Chart) (c : Command Exact) : Except (Fault Exact) Chart :=
  let number (a : Axis) : Option ℝ := (c.number? (.axis a)).map Exact.toReal
  match c.code? with
  | some .rapidMove | some .linearMove =>
    .ok { k with reading := fun a => (k.reading a).move (number a) k.positioning }
  | some .clockwiseArc | some .counterclockwiseArc =>
    .ok { k with reading := fun a => if a = .z then k.reading a else (k.reading a).forget }
  | some .home =>
    if c.isUntrusted then .error (.trustedHoming 0)
    else .ok { k with reading := fun a => if c.homes a then .home else k.reading a }
  | some .absolutePositioning => .ok { k with positioning := .absolute }
  | some .relativePositioning => .ok { k with positioning := .relative }
  | some .setPosition => .ok { k with reading := fun a => (number a).elim (k.reading a) (k.reading a).declare }
  | some .resetPosition => .ok { k with reading := fun a => (k.reading a).declare 0 }
  | _ => .ok k

noncomputable def replay (k : Chart) (commands : List (Command Exact)) : Except (Fault Exact) Chart :=
  commands.foldlM after k

end Chart

/-- A number that may be unknown, written with the mark for it. -/
def Exact.ofOption : Option ℝ → Exact
  | some r => real r
  | none => infinite false

/-- What a machine shows of an axis of which so much is known. -/
def Reading.gauge (r : Reading) : Gauge Exact := ⟨.ofOption r.logical, .ofOption r.offset⟩

/-- The machine shows what is on the chart. -/
structure Chart.Describes (k : Chart) (m : Machine Exact) : Prop where
  positioning : m.positioning = k.positioning
  gauge : ∀ a, m.gauge (.axis a) = (k.reading a).gauge

namespace Reading

variable (r : Reading)

private theorem real_or_infinite (x : Option ℝ) : (Exact.ofOption x).IsReal ∨ Exact.ofOption x = .infinite false := by
  cases x with
  | none => exact .inr rfl
  | some x => exact .inl ⟨x, rfl⟩

theorem known_gauge_iff : r.gauge.Known ↔ r.IsKnown := by
  obtain ⟨logical, offset⟩ := r
  constructor
  · rintro ⟨⟨l, count⟩, ⟨o, shift⟩⟩
    cases logical with
    | none => cases count
    | some l =>
      cases offset with
      | none => cases shift
      | some o => exact ⟨l, o, rfl⟩
  · rintro ⟨l, o, same⟩
    cases same
    exact ⟨⟨l, rfl⟩, ⟨o, rfl⟩⟩

private theorem gauge_home : home.gauge = (Effect.home : Effect Exact).apply r.gauge := by
  simp [home, gauge, Effect.apply, Exact.ofOption]

private theorem gauge_move {number : Option Exact} (real : ∀ v, number = some v → v.IsReal) (mode : Mode) :
    (r.move (number.map Exact.toReal) mode).gauge = (Command.drive number mode).apply r.gauge := by
  obtain ⟨logical, offset⟩ := r
  cases number with
  | none =>
    cases mode with
    | absolute => rfl
    | relative => cases logical <;> simp [move, gauge, Command.drive, Effect.apply, Exact.ofOption]
  | some v =>
    obtain ⟨v, rfl⟩ := real v rfl
    cases mode with
    | absolute => rfl
    | relative => cases logical <;> rfl

/-- Where a coordinate is not known, the difference to it leaves the offset unknown, and never less than that. -/
theorem gauge_declare (value : ℝ) : (r.declare value).gauge = (Effect.declare (.real value)).apply r.gauge := by
  obtain ⟨logical, offset⟩ := r
  cases logical with
  | none => cases offset <;> rfl
  | some l =>
    cases offset with
    | none => rfl
    | some o =>
      have shift : l + o - value = o - (value - l) := by ring
      simp [declare, physical?, gauge, Effect.apply, Exact.ofOption, shift]

private theorem offset_move (number : Option ℝ) (mode : Mode) : (r.move number mode).offset = r.offset := by
  cases mode <;> rfl

private theorem offset_declare {value : ℝ} (unknown : r.logical = none ∨ r.offset = none) :
    (r.declare value).offset = none := by
  obtain ⟨logical, offset⟩ := r
  rcases unknown with rfl | rfl
  · rfl
  · cases logical <;> rfl

end Reading

theorem Command.finite_of_entries {code : Code} {w : Words Exact} (real : ∀ entry ∈ w.entries, entry.2.IsReal) :
    (ofWords code w).Finite := by
  have found (letter : Char) (v : Exact) (given : w.get? letter = some v) : v.IsReal := by
    obtain ⟨front, back, split, _⟩ := List.lookup_eq_some_iff.mp given
    exact real (letter.toUpper, v) (by simp [split])
  intro dial v given
  cases dial with
  | axis a => exact found _ v given
  | filament => exact found _ v given

private theorem Command.effect_of_declared? {α : Type} [Scalar α] {c : Command α} {dial : Dial} {v : α}
    (declares : c.declared? dial = some v) (mode : Mode) : c.effect mode dial = .declare v := by
  unfold declared? at declares
  unfold effect
  cases known : c.code? with
  | none => rw [known] at declares; cases declares
  | some code =>
    rw [known] at declares
    cases code
    case setPosition => simp only at declares ⊢; rw [declares]; rfl
    case resetPosition =>
      cases dial with
      | filament => cases declares
      | axis a => cases declares; rfl
    all_goals cases declares

namespace Chart

variable {k k' : Chart} {m next : Machine Exact} {c : Command Exact} {cs : List (Command Exact)} {a : Axis}

theorem after_isOk_iff : (∃ k', k.after c = .ok k') ↔ c.isUntrusted = false := by
  unfold after
  cases known : c.code? with
  | none => simp [Command.isUntrusted, known]
  | some code =>
    cases code
    case home => cases c.isUntrusted <;> simp
    all_goals simp [Command.isUntrusted, known]

private theorem positioning_after (stepped : k.after c = .ok k') (a : Axis) :
    k'.positioning = (c.mode? (.axis a)).getD k.positioning := by
  unfold after at stepped
  unfold Command.mode?
  cases known : c.code? with
  | none => rw [known] at stepped; cases stepped; rfl
  | some code =>
    rw [known] at stepped
    cases code
    case home =>
      simp only at stepped
      split at stepped <;> cases stepped
      rfl
    all_goals cases stepped; rfl

private theorem gauge_after (finite : c.Finite) (stepped : k.after c = .ok k') (a : Axis) :
    (k'.reading a).gauge = (c.effect k.positioning (.axis a)).apply (k.reading a).gauge := by
  have real := finite (.axis a)
  unfold after at stepped
  unfold Command.effect
  cases known : c.code? with
  | none => rw [known] at stepped; cases stepped; rfl
  | some code =>
    rw [known] at stepped
    cases code
    case rapidMove | linearMove => cases stepped; exact Reading.gauge_move _ real _
    case clockwiseArc | counterclockwiseArc => cases stepped; cases a <;> rfl
    case home =>
      simp only at stepped
      split at stepped <;> cases stepped
      simp only [Command.homes, known, decide_true, Bool.true_and]
      split
      · exact Reading.gauge_home _
      · rfl
    case setPosition =>
      cases stepped
      cases number : c.number? (.axis a) with
      | none => simp only [number]; rfl
      | some v =>
        obtain ⟨v, rfl⟩ := real v number
        simp only [number]
        exact Reading.gauge_declare _ v
    case resetPosition =>
      cases stepped
      simp only [Exact.zero_eq]
      exact Reading.gauge_declare _ 0
    all_goals cases stepped; rfl

/-- Only homing untrusted axes has no outcome, for the chart as for the machine. -/
private theorem error_of_isUntrusted (untrusted : c.isUntrusted = true) :
    m.after c = .error (.trustedHoming 0) ∧ k.after c = .error (.trustedHoming 0) := by
  obtain ⟨home, marked⟩ := Bool.and_eq_true_iff.mp untrusted
  have code := of_decide_eq_true home
  cases c with
  | comment => cases code
  | verbatim => cases code
  | instruction i =>
    obtain ⟨_, words, comment⟩ := i
    cases code
    have refused : words.contains 'O' = true := marked
    exact ⟨by simp [Machine.after, Machine.step, refused], by simp [Chart.after, Command.code?, untrusted]⟩

/-- The machine and its chart are led on alike, or a line has no outcome for either. -/
theorem Describes.after (describes : k.Describes m) (finite : c.Finite) :
    (∃ fault, m.after c = .error fault ∧ k.after c = .error fault) ∨
      ∃ next k', m.after c = .ok next ∧ k.after c = .ok k' ∧ k'.Describes next := by
  cases untrusted : c.isUntrusted with
  | true => exact .inl ⟨_, error_of_isUntrusted untrusted⟩
  | false =>
    obtain ⟨next, stepped⟩ := Machine.after_isOk_iff.mpr untrusted
    obtain ⟨k', charted⟩ := (after_isOk_iff (k := k)).mpr untrusted
    refine .inr ⟨next, k', stepped, charted, ?_, fun a => ?_⟩
    · rw [positioning_after charted .x, ← describes.positioning]
      exact Machine.after_mode stepped (.axis .x)
    · rw [gauge_after finite charted, ← describes.gauge, ← describes.positioning]
      exact Machine.after_gauge stepped (.axis a)

theorem replay_cons : k.replay (c :: cs) = (k.after c).bind (·.replay cs) := rfl

theorem Describes.replay (describes : k.Describes m) (finite : ∀ c ∈ cs, c.Finite) :
    (∃ fault, m.replay cs = .error fault ∧ k.replay cs = .error fault) ∨
      ∃ last k', m.replay cs = .ok last ∧ k.replay cs = .ok k' ∧ k'.Describes last := by
  induction cs generalizing m k with
  | nil => exact .inr ⟨m, k, rfl, rfl, describes⟩
  | cons c cs ih =>
    obtain ⟨here, others⟩ := List.forall_mem_cons.mp finite
    rw [Machine.replay_cons, replay_cons]
    rcases describes.after here with ⟨fault, refused, refused'⟩ | ⟨next, k', stepped, charted, describes⟩
    · exact .inl ⟨fault, by rw [refused]; rfl, by rw [refused']; rfl⟩
    · rw [stepped, charted]
      exact ih describes others

theorem describes_powerOn : powerOn.Describes Machine.powerOn where
  positioning := rfl
  gauge a := by cases a <;> simp [Machine.gauge, Machine.powerOn, powerOn, Reading.gauge, Exact.ofOption, Point.unknown,
    Point.origin, Point.get]

/-- The physical position is known exactly if everything on the chart is. -/
private theorem Describes.physicalKnown_iff (describes : k.Describes m) :
    m.physicalKnown = true ↔ ∀ a, (k.reading a).IsKnown := by
  rw [← m.known_gauge_iff]
  exact forall_congr' fun a => by rw [describes.gauge, Reading.known_gauge_iff]

private theorem Describes.physicalPosition_iff (describes : k.Describes m) :
    (∃ p, m.physicalPosition = .ok p) ↔ ∀ a, (k.reading a).IsKnown := by
  rw [← describes.physicalKnown_iff]
  simp only [Machine.physicalPosition_eq_ok_iff]
  exact ⟨fun ⟨_, known, _⟩ => known, fun known => ⟨_, known, rfl⟩⟩

private theorem Describes.physicalPosition_eq (describes : k.Describes m) {l o : Axis → ℝ}
    (known : ∀ a, k.reading a = ⟨some (l a), some (o a)⟩) :
    m.physicalPosition = .ok (Point.ofFn fun a => .real (l a + o a)) := by
  refine (m.physicalPosition_eq_ok_iff _).mpr ⟨describes.physicalKnown_iff.mpr fun a => ⟨_, _, known a⟩, ?_⟩
  refine Point.ext_get fun a => ?_
  have shown : m.gauge (.axis a) = ⟨.real (l a), .real (o a)⟩ := by rw [describes.gauge, known]; rfl
  rw [Machine.gauge, Gauge.mk.injEq] at shown
  rw [Point.get_ofFn, Machine.get_physical, shown.1, shown.2, Exact.real_add]

private theorem reading_of_declared? {v : Exact} (declares : c.declared? (.axis a) = some v) (stepped : k.after c = .ok k') :
    k'.reading a = (k.reading a).declare v.toReal := by
  unfold after at stepped
  unfold Command.declared? at declares
  cases known : c.code? with
  | none => rw [known] at declares; cases declares
  | some code =>
    rw [known] at declares stepped
    cases code
    case setPosition => cases stepped; simp only at declares ⊢; rw [declares]; rfl
    case resetPosition => cases stepped; cases declares; simp
    all_goals cases declares

theorem offset_after (unknown : (k.reading a).offset = none) (away : c.homes a = false)
    (stepped : k.after c = .ok k') : (k'.reading a).offset = none := by
  unfold after at stepped
  unfold Command.homes at away
  cases known : c.code? with
  | none => rw [known] at stepped; cases stepped; exact unknown
  | some code =>
    rw [known] at stepped away
    cases code
    case rapidMove | linearMove => cases stepped; exact (Reading.offset_move ..).trans unknown
    case clockwiseArc | counterclockwiseArc => cases stepped; cases a <;> exact unknown
    case home =>
      simp only at stepped
      split at stepped <;> cases stepped
      simp only [decide_true, Bool.true_and] at away
      simp [Command.homes, known, away, unknown]
    case setPosition =>
      cases stepped
      cases number : c.number? (.axis a) with
      | none => simpa [number] using unknown
      | some v => simpa [number] using Reading.offset_declare _ (.inr unknown)
    case resetPosition => cases stepped; exact Reading.offset_declare _ (.inr unknown)
    all_goals cases stepped; exact unknown

/-- An offset that is not known stays so until the axis is homed. -/
private theorem offset_replay (unknown : (k.reading a).offset = none) (away : ∀ c ∈ cs, c.homes a = false)
    (replayed : k.replay cs = .ok k') : (k'.reading a).offset = none := by
  induction cs generalizing k with
  | nil => cases replayed; exact unknown
  | cons c cs ih =>
    obtain ⟨here, others⟩ := List.forall_mem_cons.mp away
    rw [replay_cons] at replayed
    cases stepped : k.after c with
    | error => rw [stepped] at replayed; cases replayed
    | ok next =>
      rw [stepped] at replayed
      exact ih (offset_after unknown here stepped) others replayed

/-- What is asked of the machine's position can be read off the chart. -/
structure Mirrors (k : Chart) (m : Machine Exact) : Prop where
  describes : k.Describes m
  /-- No count is no number, and none is infinite but for the mark. -/
  marked : ∀ a, ((m.position.get a).IsReal ∨ m.position.get a = .infinite false) ∧
    ((m.offset.get a).IsReal ∨ m.offset.get a = .infinite false)
  known : m.physicalKnown = true ↔ ∀ a, (k.reading a).IsKnown
  answered : (∃ p, m.physicalPosition = .ok p) ↔ ∀ a, (k.reading a).IsKnown
  sum : ∀ l o : Axis → ℝ, (∀ a, k.reading a = ⟨some (l a), some (o a)⟩) →
    m.physicalPosition = .ok (Point.ofFn fun a => .real (l a + o a))
  /-- An axis that is declared where it is not known has no known offset until it is homed. -/
  declared : ∀ a c v next, (k.reading a).logical = none → c.Finite → c.declared? (.axis a) = some v →
    m.after c = .ok next → next.position.get a = v ∧
      ∀ behind last, (∀ d ∈ behind, d.Finite ∧ d.homes a = false) → next.replay behind = .ok last →
        last.offset.get a = .infinite false

theorem Describes.declared {v : Exact} (describes : k.Describes m) (unknown : (k.reading a).logical = none)
    (finite : c.Finite) (declares : c.declared? (.axis a) = some v) (stepped : m.after c = .ok next) :
    next.position.get a = v ∧ ∀ behind last, (∀ d ∈ behind, d.Finite ∧ d.homes a = false) →
      next.replay behind = .ok last → last.offset.get a = .infinite false := by
  rcases describes.after finite with ⟨_, refused, _⟩ | ⟨_, k', same, charted, described⟩
  · cases refused.symm.trans stepped
  cases stepped.symm.trans same
  have shown := Machine.after_gauge stepped (.axis a)
  rw [Command.effect_of_declared? declares] at shown
  refine ⟨(Gauge.mk.inj shown).1, fun behind last away replayed => ?_⟩
  have lost : (k'.reading a).offset = none := by
    rw [reading_of_declared? declares charted]
    exact Reading.offset_declare _ (.inl unknown)
  rcases described.replay fun d mem => (away d mem).1 with ⟨_, refused, _⟩ | ⟨_, k'', same, charted', ends⟩
  · cases refused.symm.trans replayed
  cases replayed.symm.trans same
  rw [(Gauge.mk.inj (ends.gauge a)).2, offset_replay lost (fun d mem => (away d mem).2) charted']
  rfl

private theorem Describes.mirrors (describes : k.Describes m) : k.Mirrors m where
  describes
  marked a := by
    obtain ⟨position, offset⟩ := Gauge.mk.inj (describes.gauge a)
    rw [position, offset]
    exact ⟨Reading.real_or_infinite _, Reading.real_or_infinite _⟩
  known := describes.physicalKnown_iff
  answered := describes.physicalPosition_iff
  sum _ _ known := describes.physicalPosition_eq known
  declared _ _ _ _ unknown finite declares stepped := describes.declared unknown finite declares stepped

/-- A program has an outcome for the machine exactly if it has one for the chart, and then
    the chart mirrors the machine. -/
theorem mirrors_of_replay {commands : List (Command Exact)} (finite : ∀ c ∈ commands, c.Finite) :
    (∀ fault, Machine.powerOn.replay commands = .error fault ↔ powerOn.replay commands = .error fault) ∧
      ∀ m, Machine.powerOn.replay commands = .ok m → ∃ k, powerOn.replay commands = .ok k ∧ k.Mirrors m := by
  rcases describes_powerOn.replay finite with ⟨fault, refused, refused'⟩ | ⟨m, k, replayed, charted, describes⟩
  · refine ⟨fun other => by simp [refused, refused'], fun m replayed => ?_⟩
    cases refused.symm.trans replayed
  · refine ⟨fun fault => by simp [replayed, charted], fun m' replayed' => ?_⟩
    cases replayed.symm.trans replayed'
    exact ⟨k, charted, describes.mirrors⟩

/-- The line that declares the head to be at the corner of the bed. -/
noncomputable def corner : Command Exact := .ofWords .setPosition ⟨[('X', .real 0), ('Y', .real 0)]⟩

/-- Where two axes are declared before any is homed, the position is known, but not where
    the head is. -/
theorem mirrors_of_declared_start :
    (∀ c ∈ [corner, Lane.lift 1], c.Finite) ∧ ∃ m k, Machine.powerOn.replay [corner, Lane.lift 1] = .ok m ∧
      powerOn.replay [corner, Lane.lift 1] = .ok k ∧ k.Mirrors m ∧ m.positionKnown = true ∧ m.physicalKnown = false := by
  have finite : ∀ c ∈ [corner, Lane.lift 1], c.Finite := by
    simp only [List.forall_mem_cons]
    exact ⟨Command.finite_of_entries (by simp), Command.finite_of_entries (by simp), List.forall_mem_nil _⟩
  obtain ⟨k, charted, mirrors⟩ := (mirrors_of_replay finite).2 _ rfl
  refine ⟨finite, _, k, rfl, charted, mirrors, rfl, ?_⟩
  cases charted
  refine Bool.eq_false_iff.mpr fun known => ?_
  obtain ⟨l, o, same⟩ := mirrors.known.mp known .x
  cases congrArg Reading.offset same

end Chart

end Seam
