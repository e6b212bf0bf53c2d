import Seam.Proofs.Resets
import Seam.Proofs.Totality

/-!
A loop as it is woven, line by line, whether or not it is tapered in the end
(`Weave.Draft`). What is said of a taper step by step carries over to the whole of it
(`Weave.follows_of_emit`), because every line is met by a machine that knows where the
head is and how much was pushed, and for which coordinates are positions where the next
line is a move (`Machine.Poised`). A declaration may give the counts new names on the
way: a synthesized line leads to its physical point all the same (`Machine.Poised.draws`).
-/
namespace Seam

/-- Coordinates are positions behind each line of a path before which they are meant in the given way. -/
def Segment.Upright {α : Type} : Mode → List (Segment α) → Prop
  | _, [] => True
  | mode, .move _ :: rest => mode = .absolute ∧ Upright .absolute rest
  | mode, .other c :: rest => (c.mode? (.axis .x)).getD mode = .absolute ∧ Upright .absolute rest

namespace Segment

variable {mode : Mode} {path more fine : List (Segment Exact)}

theorem Upright.absolute (upright : Upright mode path) : Upright .absolute path := by
  cases path with
  | nil => trivial
  | cons s rest =>
    cases s with
    | move m => exact ⟨rfl, upright.2⟩
    | other c =>
      refine ⟨?_, upright.2⟩
      have set := upright.1
      cases switch : c.mode? (.axis .x) with
      | none => rfl
      | some p => rwa [switch] at set

/-- A path can be gone on with where coordinates are positions. -/
theorem Upright.append (upright : Upright mode path) (start : path = [] → Upright mode more)
    (rest : Upright .absolute more) : Upright mode (path ++ more) := by
  induction path generalizing mode with
  | nil => exact start rfl
  | cons s path ih =>
    cases s with
    | move m => exact ⟨upright.1, ih upright.2 fun _ => rest⟩
    | other c => exact ⟨upright.1, ih upright.2 fun _ => rest⟩

theorem Upright.of_append (upright : Upright mode (path ++ more)) : Upright mode path := by
  induction path generalizing mode with
  | nil => trivial
  | cons s path ih =>
    cases s with
    | move m => exact ⟨upright.1, ih upright.2⟩
    | other c => exact ⟨upright.1, ih upright.2⟩

private theorem upright_moves (parts : List (Move Exact)) (rest : Upright .absolute more) :
    Upright .absolute (parts.map .move ++ more) := by
  induction parts with
  | nil => exact rest
  | cons m parts ih => exact ⟨rfl, ih⟩

theorem Refines.upright (refines : Refines path fine) (upright : Upright mode path) : Upright mode fine := by
  induction refines generalizing mode with
  | nil => trivial
  | other _ ih => exact ⟨upright.1, ih upright.2⟩
  | move _ _ ih =>
    obtain ⟨rfl, rest⟩ := upright
    exact upright_moves _ (ih rest)

end Segment

theorem Traced.upright {height : Exact} {m last : Machine Exact} {cs : List (Command Exact)}
    {segments : List (Segment Exact)} (traced : Traced height m cs segments last) :
    Segment.Upright m.positioning segments := by
  induction traced with
  | nil => trivial
  | cons stepped drawn rest ih =>
    obtain ⟨absolute, _, ⟨linear, _, rfl⟩ | ⟨_, _, rfl⟩⟩ := Segment.ofStep?_eq_some_iff.mp drawn
    · exact ⟨(Machine.after_of_isLinear linear stepped).1.symm.trans absolute, absolute ▸ ih⟩
    · exact ⟨(Machine.after_mode stepped (.axis .x)).symm.trans absolute, absolute ▸ ih⟩

/-- The machine knows where the head is and how much was pushed, and can go along the path from where it is. -/
structure Machine.Poised (m : Machine Exact) (segments : List (Segment Exact)) : Prop where
  known : m.physicalKnown = true
  counted : m.Counted
  upright : Segment.Upright m.positioning segments

namespace Machine.Poised

variable {m next last : Machine Exact} {move : Move Exact} {c : Command Exact} {cs : List (Command Exact)}
  {segments more : List (Segment Exact)}

private theorem known_after (poised : m.Poised segments) (sure : c.Sure) (stepped : m.after c = .ok next) :
    next.physicalKnown = true := by
  obtain ⟨next', stepped', known⟩ := exists_after_of_sure poised.known sure
  cases stepped.symm.trans stepped'
  exact known

private theorem after_other (poised : m.Poised (.other c :: more)) (sure : c.Sure) (given : c.Counted)
    (stepped : m.after c = .ok next) : next.Poised more where
  known := poised.known_after sure stepped
  counted := poised.counted.after given stepped
  upright := by
    have absolute : next.positioning = .absolute := (after_mode stepped (.axis .x)).trans poised.upright.1
    exact absolute ▸ poised.upright.2

private theorem after_move (poised : m.Poised (.move move :: more)) (linear : c.isLinear = true) (sure : c.Sure)
    (given : c.Counted) (stepped : m.after c = .ok next) : next.Poised more where
  known := poised.known_after sure stepped
  counted := poised.counted.after given stepped
  upright := by
    have absolute : next.positioning = .absolute := (after_of_isLinear linear stepped).1.trans poised.upright.1
    exact absolute ▸ poised.upright.2

theorem skip (poised : m.Poised (.move move :: more)) : m.Poised more :=
  ⟨poised.known, poised.counted, poised.upright.1 ▸ poised.upright.2⟩

/-- A declared total leaves the machine where it is. -/
theorem declared (poised : m.Poised segments) {total : Exact} (real : total.IsReal) :
    (Weave.declared m total).Poised segments ∧ (Weave.declared m total).physical = m.physical := by
  obtain ⟨position, offset, positioning, _⟩ := Weave.declared_frame m total
  have physical : (Weave.declared m total).physical = m.physical := by
    rw [Machine.physical, Machine.physical, position, offset]
  refine ⟨⟨?_, Weave.counted_declared poised.counted real, positioning ▸ poised.upright⟩, physical⟩
  rw [physicalKnown, physical, position]
  exact poised.known

/-- A synthesized line leads to the point that was meant and pushes what was meant. -/
theorem draws (poised : m.Poised (.move move :: more)) (placed : move.Placed) {z share : Exact} {withHeight : Bool}
    (bounded : withHeight = true → z.IsReal) (real : share.IsReal)
    (stepped : m.after (Weave.moveTo m ⟨move.stop.x, move.stop.y, z⟩ share move.feedRate withHeight) = .ok next) :
    next.physical = ⟨move.stop.x, move.stop.y, if withHeight then z else m.physical.z⟩ ∧
      Transition.pushed ⟨m, Weave.moveTo m ⟨move.stop.x, move.stop.y, z⟩ share move.feedRate withHeight, next⟩ = share ∧
        next.Poised more := by
  have fixed := fixed_of_physicalKnown poised.known
  have drawn := Weave.draws_moveTo poised.upright.1 fixed stepped
  obtain ⟨pushed, counted⟩ := drawn.pushes stepped poised.counted real
  have sure : (Weave.moveTo m ⟨move.stop.x, move.stop.y, z⟩ share move.feedRate withHeight).Sure := by
    obtain ⟨_, q, _, stop⟩ := placed
    rw [stop]
    exact Weave.sure_moveTo fixed bounded
  have absolute : next.positioning = .absolute := (after_of_isLinear drawn.isLinear stepped).1.trans poised.upright.1
  refine ⟨Point.ext_get fun a => ?_, pushed, poised.known_after sure stepped, counted, absolute ▸ poised.upright.2⟩
  cases a with
  | x => exact drawn.x
  | y => exact drawn.y
  | z =>
    refine drawn.z.trans ?_
    cases withHeight <;> rfl

/-- A path as it was is a way from a poised machine to one that is poised for what comes behind it. -/
theorem replay {height : Exact} {here there : Machine Exact} (traced : Traced height here cs segments there)
    (given : ∀ c ∈ cs, c.Counted) (poised : m.Poised (segments ++ more)) (replayed : m.replay cs = .ok last) :
    last.Poised more := by
  induction traced generalizing m with
  | nil => cases replayed; exact poised
  | cons stepped drawn rest ih =>
    obtain ⟨given_here, others⟩ := List.forall_mem_cons.mp given
    obtain ⟨next, stepped', later⟩ := replay_cons_eq_ok_iff.mp replayed
    have sure := (Traced.cons stepped drawn rest).sure _ List.mem_cons_self
    obtain ⟨_, _, ⟨linear, _, rfl⟩ | ⟨_, _, rfl⟩⟩ := Segment.ofStep?_eq_some_iff.mp drawn
    · exact ih others (poised.after_move linear sure given_here stepped') later
    · exact ih others (poised.after_other sure given_here stepped') later

end Machine.Poised

/-- The move pushes filament, or none, but takes none back. -/
def Move.Forward (m : Move Exact) : Prop := ∃ e : ℝ, 0 ≤ e ∧ m.extrusion = .real e

/-- A step that both tapers can take from where the head is known. -/
def Step.Sound : Step Exact → Prop
  | .other c => c.Sure ∧ c.Counted ∧ c.isMotion = false ∧ c.code? ≠ some .home
  | .still m => m.Placed ∧ m.Forward
  | .ramped m t => m.Placed ∧ m.Forward ∧ ∃ h : ℝ, 0 ≤ h ∧ h ≤ 1 ∧ t = .real h

def Step.isStill {α : Type} : Step α → Bool
  | .still _ => true
  | _ => false

/-- The line ends the move at the height of the ramp: so much of a layer below the move's own, but not below the floor,
    and with as much of its filament as the ramp is high. -/
structure Transition.Ascends (layer floor : ℝ) (t : Transition Exact) (m : Move Exact) (h : ℝ) : Prop where
  physical : ∃ z : ℝ, m.stop.z = .real z ∧
    t.after.physical = ⟨m.stop.x, m.stop.y, .real (max (z - (1 - h) * layer) floor)⟩ ∧
      max floor (z - layer) ≤ max (z - (1 - h) * layer) floor ∧ max (z - (1 - h) * layer) floor ≤ max floor z
  pushed : ∃ e : ℝ, m.extrusion = .real e ∧ t.pushed = .real (e * h) ∧ 0 ≤ e * h ∧ e * h ≤ e

/-- The line ends the move at the height where the head is, which it does not write, with the rest of its filament. -/
structure Transition.Descends (t : Transition Exact) (m : Move Exact) (h : ℝ) : Prop where
  silent : t.line.number? (.axis .z) = none
  physical : t.after.physical = ⟨m.stop.x, m.stop.y, t.before.physical.z⟩
  pushed : ∃ e : ℝ, m.extrusion = .real e ∧ t.pushed = .real (e * (1 - h)) ∧ 0 ≤ e * (1 - h) ∧ e * (1 - h) ≤ e

/-- The line is what the starting taper makes of the step. -/
def Transition.Rises (layer floor : ℝ) (t : Transition Exact) : Step Exact → Prop
  | .other c => t.line = c ∧ t.after.physical = t.before.physical
  | .still m => t.after.physical = m.stop ∧ t.pushed = m.extrusion
  | .ramped m height => ∃ h : ℝ, height = .real h ∧ t.Ascends layer floor m h

/-- The line is what the ending taper makes of the step. -/
def Transition.Falls (t : Transition Exact) : Step Exact → Prop
  | .other c => t.line = c ∧ t.after.physical = t.before.physical
  | .still _ => False
  | .ramped m height => ∃ h : ℝ, height = .real h ∧ t.Descends m h

namespace Machine.Poised

variable {here next : Machine Exact} {step : Step Exact} {more : List (Segment Exact)}

theorem rises {l f : ℝ} (layer : 0 ≤ l) (poised : here.Poised (step.segment :: more)) (sound : step.Sound)
    (stepped : here.after (Weave.rising (.real l) (.real f) here step) = .ok next) :
    Transition.Rises l f ⟨here, Weave.rising (.real l) (.real f) here step, next⟩ step ∧ next.Poised more := by
  cases step with
  | other c =>
    obtain ⟨sure, given, still, away⟩ := sound
    have ready := poised.after_other sure given stepped
    exact ⟨⟨rfl, physical_eq_of_still poised.known stepped ready.known still away⟩, ready⟩
  | still m =>
    obtain ⟨placed, e, _, extrusion⟩ := sound
    have height : true = true → m.stop.z.IsReal := fun _ => by
      obtain ⟨_, q, _, stop⟩ := placed
      exact ⟨q.z, by rw [stop]; rfl⟩
    obtain ⟨physical, pushed, ready⟩ := poised.draws placed height ⟨e, extrusion⟩ stepped
    exact ⟨⟨physical, pushed⟩, ready⟩
  | ramped m t =>
    obtain ⟨placed, ⟨e, forward, extrusion⟩, h, nonneg, le_one, rfl⟩ := sound
    obtain ⟨z, level⟩ : m.stop.z.IsReal := by
      obtain ⟨_, q, _, stop⟩ := placed
      exact ⟨q.z, by rw [stop]; rfl⟩
    have height : Weave.risingHeight (.real l) (.real f) (.real h) m.stop.z = .real (max (z - (1 - h) * l) f) := by
      rw [level, Weave.risingHeight_real]
    have share : m.extrusion * .real h = .real (e * h) := by rw [extrusion, Exact.real_mul]
    obtain ⟨physical, pushed, ready⟩ := poised.draws placed (fun _ => ⟨_, height⟩) ⟨_, share⟩ stepped
    rw [if_pos rfl, height] at physical
    have above : 0 ≤ (1 - h) * l := mul_nonneg (sub_nonneg.mpr le_one) layer
    have below : (1 - h) * l ≤ l := mul_le_of_le_one_left layer (by linarith)
    refine ⟨⟨h, rfl, ⟨z, level, physical, ?_, ?_⟩, e, extrusion, pushed.trans share, ?_, ?_⟩, ready⟩
    · exact max_le (le_max_right ..) (le_max_of_le_left (by linarith))
    · exact max_le (le_max_of_le_right (by linarith)) (le_max_left ..)
    · exact mul_nonneg forward nonneg
    · exact mul_le_of_le_one_right forward le_one

theorem falls {c : Command Exact} (poised : here.Poised (step.segment :: more)) (sound : step.Sound)
    (line : Weave.falling here step = .ok (some c)) (stepped : here.after c = .ok next) :
    Transition.Falls ⟨here, c, next⟩ step ∧ next.Poised more := by
  cases step with
  | other d =>
    cases line
    obtain ⟨sure, given, still, away⟩ := sound
    have ready := poised.after_other sure given stepped
    exact ⟨⟨rfl, physical_eq_of_still poised.known stepped ready.known still away⟩, ready⟩
  | still m => cases line
  | ramped m t =>
    obtain ⟨placed, ⟨e, forward, extrusion⟩, h, nonneg, le_one, rfl⟩ := sound
    obtain ⟨p, _, same⟩ := Except.map_eq_ok_iff.mp line
    cases same
    have share : m.extrusion * (1 - .real h) = .real (e * (1 - h)) := by
      rw [extrusion, Exact.one_eq, Exact.real_sub, Exact.real_mul]
    obtain ⟨physical, pushed, ready⟩ := poised.draws placed (fun set => by cases set) ⟨_, share⟩ stepped
    refine ⟨⟨h, rfl, Weave.number?_moveTo .., physical, e, extrusion, pushed.trans share, ?_, ?_⟩, ready⟩
    · exact mul_nonneg forward (sub_nonneg.mpr le_one)
    · exact mul_le_of_le_one_right forward (by linarith)

end Machine.Poised

/-- Along a taper of which every line is what it should be for its step, all of them are: each leaves the machine
    poised for the next. -/
theorem Weave.follows_of_emit {line? : Machine Exact → Step Exact → Except (Fault Exact) (Option (Command Exact))}
    {relates : Transition Exact → Step Exact → Prop} {kept : Step Exact → Bool} {steps : List (Step Exact)}
    {more : List (Segment Exact)} {m last : Machine Exact} {ts : List (Transition Exact)}
    (drawn : ∀ step ∈ steps, ∀ (here next : Machine Exact) c rest, here.Poised (step.segment :: rest) →
      line? here step = .ok (some c) → here.after c = .ok next →
        kept step = true ∧ relates ⟨here, c, next⟩ step ∧ next.Poised rest)
    (omitted : ∀ step ∈ steps, ∀ (here : Machine Exact) rest, here.Poised (step.segment :: rest) →
      line? here step = .ok none → kept step = false ∧ here.Poised rest)
    (poised : m.Poised (steps.map Step.segment ++ more)) (passes : Passage m ts last)
    (emitted : emit line? m steps = .ok (ts.map (·.line), last)) :
    List.Forall₂ relates ts (steps.filter kept) ∧ last.Poised more := by
  induction steps generalizing m ts with
  | nil =>
    obtain ⟨lines, rfl⟩ := Prod.mk.inj (Except.ok.inj emitted)
    rw [List.map_eq_nil_iff.mp lines.symm]
    exact ⟨.nil, poised⟩
  | cons step steps ih =>
    obtain ⟨drawn_here, drawn⟩ := List.forall_mem_cons.mp drawn
    obtain ⟨omitted_here, omitted⟩ := List.forall_mem_cons.mp omitted
    obtain ⟨none, later⟩ | ⟨c, next, rest, line, stepped, later, lines⟩ := emit_cons_eq_ok_iff.mp emitted
    · obtain ⟨out, ready⟩ := omitted_here m _ poised none
      rw [List.filter_cons_of_neg (by simp [out])]
      exact ih drawn omitted ready passes later
    · cases passes with
      | nil => cases lines
      | @cons _ next' _ _ ts stepped' behind =>
        obtain ⟨rfl, rfl⟩ := List.cons.inj lines
        cases stepped.symm.trans stepped'
        obtain ⟨into, related, ready⟩ := drawn_here m next _ _ poised line stepped
        obtain ⟨others, ends⟩ := ih drawn omitted ready behind later
        rw [List.filter_cons_of_pos into]
        exact ⟨.cons related others, ends⟩

namespace Weave

/-- What a loop is woven from, with the machine on the way along it, tapered or not in the end. -/
structure Draft (tuning : Tuning Exact) (floor : Exact) (run : Run Exact) (segments : List (Segment Exact)) where
  starting : List (Transition Exact)
  risen : Machine Exact
  rises : Passage run.start starting risen
  raised : emit (fun m step => .ok (some (rising tuning.layerHeight floor m step))) run.start (steps tuning segments) =
    .ok (starting.map (·.line), risen)
  /-- The machine in the loop as it was, behind the cut move. -/
  boundary : Machine Exact
  replayed : run.start.replay (run.commands.take (cut tuning segments).remainder) = .ok boundary
  joining : List (Transition Exact)
  /-- The machine behind the tail of the cut move. -/
  met : Machine Exact
  joins : Passage risen joining met
  joined_lines : joint floor boundary.extrusion (cut tuning segments).tail risen = .ok (joining.map (·.line))
  rest : List (Transition Exact)
  joined : Machine Exact
  follows : Passage met rest joined
  rest_lines : rest.map (·.line) = remainder tuning segments run
  ending : List (Transition Exact)
  fallen : Machine Exact
  falls : Passage joined ending fallen
  lowered : emit falling joined ((steps tuning segments).takeWhile fun step => step.alteration?.isNone) =
    .ok (ending.map (·.line), fallen)

variable {tuning : Tuning Exact} {floor : Exact} {run : Run Exact} {segments : List (Segment Exact)}

/-- What becomes of the loop: its pieces one behind the other, unless a line of the section would change what
    coordinates mean a second time. -/
noncomputable def Draft.outcome (d : Draft tuning floor run segments) (markers : Bool) : Outcome Exact :=
  match (steps tuning segments).findSome? Step.alteration? with
  | some culprit => .abandoned culprit
  | none => .tapered (bracket markers (d.starting.map (·.line) ++ d.joining.map (·.line) ++ d.rest.map (·.line) ++
      d.ending.map (·.line) ++ declareTotal d.fallen run.finish.extrusion))

/-- A loop that is a path is woven from its pieces. -/
theorem exists_draft (usable : tuning.check = .ok ()) (bounded : floor.IsReal)
    (path : Segment.path? run.start run.commands = .ok (some segments)) :
    ∃ d : Draft tuning floor run segments, ∀ markers, weave tuning floor markers run segments = .ok (d.outcome markers) := by
  obtain ⟨outcome, woven⟩ := exists_weave false usable bounded path
  rw [weave_eq] at woven
  obtain ⟨⟨starting, risen⟩, raised, woven⟩ := Except.bind_eq_ok_iff.mp woven
  obtain ⟨boundary, replayed, woven⟩ := Except.bind_eq_ok_iff.mp woven
  obtain ⟨joining, joins, woven⟩ := Except.bind_eq_ok_iff.mp woven
  obtain ⟨joined, followed, woven⟩ := Except.bind_eq_ok_iff.mp woven
  obtain ⟨⟨ending, fallen⟩, lowered, _⟩ := Except.bind_eq_ok_iff.mp woven
  obtain ⟨met, joined_replay, rest_replay⟩ := Machine.replay_append_eq_ok_iff.mp followed
  obtain ⟨starting, rises, rfl⟩ := Passage.of_replay (replay_emit raised)
  obtain ⟨joining, joined_passage, rfl⟩ := Passage.of_replay joined_replay
  obtain ⟨rest, follows, rest_lines⟩ := Passage.of_replay rest_replay
  obtain ⟨ending, falls, rfl⟩ := Passage.of_replay (replay_emit lowered)
  refine ⟨⟨starting, risen, rises, raised, boundary, replayed, joining, met, joined_passage, joins, rest, joined, follows,
    rest_lines, ending, fallen, falls, lowered⟩, fun markers => ?_⟩
  rw [weave_eq, Draft.outcome, rest_lines]
  simp only [raised, replayed, joins, followed, lowered, bind, Except.bind, pure, Except.pure]
  cases (steps tuning segments).findSome? Step.alteration? <;> rfl

end Weave

end Seam
