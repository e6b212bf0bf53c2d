import Seam.Proofs.Slices

/-!
Where the head is stays known along a loop. A line is sure if it has an outcome and
gives the axes nothing but reals, and then it leads a machine that knows where the
head is to one that does (`Machine.exists_after_of_sure`). The lines of a path are
sure (`Traced.sure`), and so are those that are synthesized for real points
(`Weave.sure_moveTo`).
-/
namespace Seam

/-- Count and offset are reals. -/
def Gauge.Known (g : Gauge Exact) : Prop := g.logical.IsReal ∧ g.offset.IsReal

namespace Effect

/-- The effect gives the dial nothing but reals. -/
def Real : Effect Exact → Prop
  | keep | home => True
  | reach v | advance v | declare v => v.IsReal
  | lose => False

private theorem known_apply {e : Effect Exact} {g : Gauge Exact} (real : e.Real) (known : g.Known) : (e.apply g).Known := by
  obtain ⟨⟨l, logical⟩, o, offset⟩ := known
  cases e with
  | keep => exact ⟨⟨l, logical⟩, o, offset⟩
  | reach v => exact ⟨real, o, offset⟩
  | lose => exact real.elim
  | home => simp [apply, Gauge.Known]
  | advance v =>
    obtain ⟨r, rfl⟩ := real
    exact ⟨⟨l + r, by rw [apply, logical, Exact.real_add]⟩, o, offset⟩
  | declare v =>
    obtain ⟨r, rfl⟩ := real
    exact ⟨⟨r, rfl⟩, o - (r - l), by rw [apply, logical, offset, Exact.real_sub, Exact.real_sub]⟩

/-- What leaves a dial known gave it a real, if it set it. -/
private theorem real_of_known {e : Effect Exact} {g : Gauge Exact} (known : (e.apply g).Known) (steady : ∀ v, e ≠ advance v) :
    e.Real := by
  cases e with
  | keep | home => trivial
  | reach v | declare v => exact known.1
  | advance v => exact absurd rfl (steady v)
  | lose =>
    obtain ⟨_, lost⟩ := known.1
    cases lost

private theorem real_drive {number : Option Exact} (real : ∀ v, number = some v → v.IsReal) (mode : Mode) :
    (Command.drive number mode).Real := by
  cases number with
  | none =>
    cases mode with
    | absolute => trivial
    | relative => exact ⟨0, Exact.zero_eq⟩
  | some v => cases mode <;> exact real v rfl

end Effect

/-- The line has an outcome and gives the axes nothing but reals, however coordinates are meant. -/
structure Command.Sure (c : Command Exact) : Prop where
  trusted : c.isUntrusted = false
  real : ∀ mode a, (c.effect mode (.axis a)).Real

namespace Machine

variable {m next last : Machine Exact} {c : Command Exact} {cs : List (Command Exact)}

theorem known_gauge_iff (m : Machine Exact) : (∀ a, (m.gauge (.axis a)).Known) ↔ m.physicalKnown = true := by
  constructor
  · intro known
    obtain ⟨⟨x, hx⟩, ox, hox⟩ := known .x
    obtain ⟨⟨y, hy⟩, oy, hoy⟩ := known .y
    obtain ⟨⟨z, hz⟩, oz, hoz⟩ := known .z
    have position : m.position = (Point.mk x y z).exact := Point.ext_get fun a => by cases a <;> assumption
    have offset : m.offset = (Point.mk ox oy oz).exact := Point.ext_get fun a => by cases a <;> assumption
    have physical : m.physical = (Point.mk (x + ox) (y + oy) (z + oz)).exact := by
      rw [Machine.physical, position, offset]
      rfl
    rw [physicalKnown, Bool.and_eq_true]
    exact ⟨(Point.isKnown_iff _).mpr ⟨_, position⟩, (Point.isKnown_iff _).mpr ⟨_, physical⟩⟩
  · intro known a
    obtain ⟨o, offset⟩ := fixed_of_physicalKnown known
    rw [physicalKnown, Bool.and_eq_true] at known
    obtain ⟨p, position⟩ := (Point.isKnown_iff _).mp known.1
    simp only [Gauge.Known, gauge, position, offset]
    cases a <;> exact ⟨⟨_, rfl⟩, _, rfl⟩

theorem exists_after_of_sure (known : m.physicalKnown = true) (sure : c.Sure) :
    ∃ next, m.after c = .ok next ∧ next.physicalKnown = true := by
  obtain ⟨next, stepped⟩ := after_isOk_iff.mpr sure.trusted
  refine ⟨next, stepped, next.known_gauge_iff.mp fun a => ?_⟩
  rw [after_gauge stepped]
  exact Effect.known_apply (sure.real _ a) (m.known_gauge_iff.mpr known a)

theorem exists_replay_of_sure (known : m.physicalKnown = true) (sure : ∀ c ∈ cs, c.Sure) :
    ∃ last, m.replay cs = .ok last ∧ last.physicalKnown = true := by
  induction cs generalizing m with
  | nil => exact ⟨m, rfl, known⟩
  | cons c cs ih =>
    obtain ⟨here, others⟩ := List.forall_mem_cons.mp sure
    obtain ⟨next, stepped, next_known⟩ := exists_after_of_sure known here
    obtain ⟨last, replayed, last_known⟩ := ih next_known others
    exact ⟨last, replay_cons_eq_ok_iff.mpr ⟨next, stepped, replayed⟩, last_known⟩

end Machine

namespace Command

variable {c : Command Exact}

theorem isUntrusted_of_code (away : c.code? ≠ some .home) : c.isUntrusted = false := by
  simp [isUntrusted, away]

/-- A straight motion is sure if its coordinates are reals. -/
private theorem sure_of_isLinear (linear : c.isLinear = true) (real : ∀ a v, c.number? (.axis a) = some v → v.IsReal) :
    c.Sure where
  trusted := isUntrusted_of_code fun home => by simp [isLinear, home, Code.isLinear] at linear
  real mode a := by
    rw [(effect_of_isLinear linear mode (.axis a)).2]
    exact Effect.real_drive (real a) mode

/-- What a line that is no motion does to an axis does not depend on how coordinates are meant. -/
private theorem effect_of_motionless (still : c.isMotion = false) (mode : Mode) (a : Axis) :
    c.effect mode (.axis a) = c.effect .absolute (.axis a) := by
  cases c with
  | comment => rfl
  | verbatim => rfl
  | instruction i =>
    obtain ⟨code, _, _⟩ := i
    cases code
    case rapidMove | linearMove | clockwiseArc | counterclockwiseArc => cases still
    all_goals rfl

private theorem effect_ne_advance {mode : Mode} {a : Axis} {v : Exact} (still : c.isMotion = false) :
    c.effect mode (.axis a) ≠ .advance v := by
  intro advances
  cases c with
  | comment => cases advances
  | verbatim => cases advances
  | instruction i =>
    obtain ⟨code, w, _⟩ := i
    cases code
    case rapidMove | linearMove | clockwiseArc | counterclockwiseArc => cases still
    case home => simp only [effect, code?] at advances; split at advances <;> cases advances
    case setPosition =>
      simp only [effect, code?] at advances
      cases number : (Command.instruction ⟨.setPosition, w, _⟩ : Command Exact).number? (.axis a) <;>
        rw [number] at advances <;> cases advances
    all_goals cases advances

end Command

/-- The lines of a path are sure: behind each of them the position is known. -/
theorem Traced.sure {height : Exact} {m last : Machine Exact} {cs : List (Command Exact)} {segments : List (Segment Exact)}
    (traced : Traced height m cs segments last) : ∀ c ∈ cs, c.Sure := by
  induction traced with
  | nil => exact List.forall_mem_nil _
  | @cons m next _ c _ _ _ stepped drawn _ ih =>
    refine List.forall_mem_cons.mpr ⟨?_, ih⟩
    obtain ⟨absolute, known, shape⟩ := Segment.ofStep?_eq_some_iff.mp drawn
    have shown (a : Axis) : ((c.effect (m.mode (.axis a)) (.axis a)).apply (m.gauge (.axis a))).Known := by
      rw [← Machine.after_gauge stepped]
      exact next.known_gauge_iff.mpr known a
    rcases shape with ⟨linear, _, _⟩ | ⟨still, away, _⟩
    · refine Command.sure_of_isLinear linear fun a v number => ?_
      have meant : m.mode (.axis a) = .absolute := (Machine.after_of_isLinear linear stepped).1.symm.trans absolute
      have reached := (shown a).1
      rw [(Command.effect_of_isLinear linear _ _).2, meant, number] at reached
      exact reached
    · refine ⟨Command.isUntrusted_of_code away, fun mode a => ?_⟩
      rw [Command.effect_of_motionless still mode, ← Command.effect_of_motionless still (m.mode (.axis a))]
      exact Effect.real_of_known (shown a) fun v => Command.effect_ne_advance still

namespace Weave

variable {m : Machine Exact}

/-- A line that is synthesized for a real point is sure. -/
theorem sure_moveTo {p : Point ℝ} {z share : Exact} {feedRate : Option Exact} {withHeight : Bool} (fixed : m.Fixed)
    (bounded : withHeight = true → z.IsReal) :
    (moveTo m ⟨.real p.x, .real p.y, z⟩ share feedRate withHeight).Sure := by
  obtain ⟨o, offset⟩ := fixed
  refine Command.sure_of_isLinear rfl fun a v number => ?_
  rw [number?_moveTo, offset] at number
  cases a with
  | x => cases number; exact ⟨p.x - o.x, Exact.real_sub ..⟩
  | y => cases number; exact ⟨p.y - o.y, Exact.real_sub ..⟩
  | z =>
    cases withHeight with
    | false => cases number
    | true =>
      obtain ⟨r, rfl⟩ := bounded rfl
      cases number
      exact ⟨r - o.z, Exact.real_sub ..⟩

theorem sure_declareTotal (total : Exact) : ∀ c ∈ declareTotal m total, c.Sure := by
  intro c mem
  unfold declareTotal at mem
  split at mem
  · cases List.mem_singleton.mp mem
    exact ⟨rfl, fun mode a => by cases a <;> trivial⟩
  · cases mem

end Weave

end Seam
