import Seam.Loop.Weave
import Seam.Proofs.Division

/-!
Strokes: what the synthesized lines of a taper draw. A line that is mapped back
to the frame of the machine that meets it leads to the physical point that was
meant, at the feed rate of its move, and pushes the filament that was meant,
however the machine counts (`Weave.draws_moveTo`). A declared total changes
nothing but the count of filament (`Weave.declared_frame`).
-/
namespace Seam

/-- What a synthesized line draws: a move with the filament that is pushed along
    it, and the height, if it is set. -/
structure Stroke (α : Type) where
  move : Move α
  share : α
  height : Option α

namespace Step

variable {α : Type} [Scalar α]

/-- What the starting taper draws for a step. -/
def rise? (layerHeight floor : α) : Step α → Option (Stroke α)
  | .other _ => none
  | .still m => some ⟨m, m.extrusion, some m.stop.z⟩
  | .ramped m t => some ⟨m, m.extrusion * t, some (Weave.risingHeight layerHeight floor t m.stop.z)⟩

/-- What the ending taper draws for a step. -/
def fall? : Step α → Option (Stroke α)
  | .ramped m t => some ⟨m, m.extrusion * (1 - t), none⟩
  | _ => none

end Step

/-- The line leads to where the stroke does, and pushes the stroke's filament. -/
structure Transition.Draws (t : Transition Exact) (s : Stroke Exact) : Prop where
  isLinear : t.isLinear = true
  x : t.after.physical.x = s.move.stop.x
  y : t.after.physical.y = s.move.stop.y
  z : t.after.physical.z = s.height.getD t.before.physical.z
  feedRate : t.after.feedRate = s.move.feedRate.or t.before.feedRate
  extrusion : t.after.extrusion = t.before.extrusion + s.share

/-- The offsets of all axes are known. -/
def Machine.Fixed (m : Machine Exact) : Prop := ∃ o : Point ℝ, m.offset = o.exact

theorem Machine.fixed_of_physicalKnown {m : Machine Exact} (known : m.physicalKnown = true) : m.Fixed := by
  rw [Machine.physicalKnown, Bool.and_eq_true] at known
  obtain ⟨p, position⟩ := (Point.isKnown_iff _).mp known.1
  obtain ⟨q, physical⟩ := (Point.isKnown_iff _).mp known.2
  rw [Machine.physical, position] at physical
  have part {a b : ℝ} {o : Exact} (sum : Exact.real a + o = .real b) : o.IsReal := by
    cases o with
    | real r => exact ⟨r, rfl⟩
    | infinite => cases sum
    | undefined => cases sum
  obtain ⟨x, hx⟩ := part (congrArg Point.x physical)
  obtain ⟨y, hy⟩ := part (congrArg Point.y physical)
  obtain ⟨z, hz⟩ := part (congrArg Point.z physical)
  exact ⟨⟨x, y, z⟩, by rw [Point.exact, ← hx, ← hy, ← hz]⟩

namespace Weave

theorem risingHeight_real (l f h z : ℝ) :
    risingHeight (.real l) (.real f) (.real h) (.real z) = Exact.real (max (z - (1 - h) * l) f) := by
  rw [risingHeight, Exact.one_eq, Exact.real_sub, Exact.real_mul, Exact.real_sub, Exact.max_real]

section
variable {α : Type} [Scalar α] (m : Machine α) (point : Point α) (share : α) (feedRate : Option α) (withHeight : Bool)

theorem words?_moveTo :
    (moveTo m point share feedRate withHeight).words? = some
      ⟨[('X', point.x - m.offset.x), ('Y', point.y - m.offset.y)] ++
        (if withHeight then [('Z', point.z - m.offset.z)] else []) ++
        ('E', match m.extrusionMode with
          | .relative => share
          | .absolute => m.extrusion + share) ::
        match feedRate with
        | none => []
        | some feed => if m.feedRate == some feed then [] else [('F', feed)]⟩ := rfl

theorem number?_moveTo (dial : Dial) :
    (moveTo m point share feedRate withHeight).number? dial = match dial with
      | .axis .x => some (point.x - m.offset.x)
      | .axis .y => some (point.y - m.offset.y)
      | .axis .z => if withHeight then some (point.z - m.offset.z) else none
      | .filament => some (match m.extrusionMode with
        | .relative => share
        | .absolute => m.extrusion + share) := by
  rw [Command.number?, words?_moveTo, Option.bind_some]
  rcases dial with (_ | _ | _) | _
  case axis.z =>
    cases withHeight
    · cases feedRate with
      | none => rfl
      | some feed => by_cases same : (m.feedRate == some feed) = true <;> simp only [same] <;> rfl
    · rfl
  all_goals cases withHeight <;> rfl

private theorem feed?_moveTo :
    (moveTo m point share feedRate withHeight).feed? =
      feedRate.filter fun feed => !(m.feedRate == some feed) := by
  have motion : (moveTo m point share feedRate withHeight).isMotion = true := rfl
  rw [Command.feed?, if_pos motion, words?_moveTo, Option.bind_some]
  cases feedRate with
  | none => cases withHeight <;> rfl
  | some feed =>
    rw [Option.filter_some]
    by_cases same : (m.feedRate == some feed) = true <;> cases withHeight <;> simp only [same] <;> rfl

variable (total : α)

/-- The machine behind the declaration of a total, if one is needed. -/
def declared : Machine α :=
  if m.extrusionMode = .absolute ∧ ¬ Scalar.abs (m.extrusion - total) < extrusionTolerance then
    m.declareExtrusion (some total)
  else m

theorem replay_declareTotal :
    m.replay (declareTotal m total) = .ok (declared m total) := by
  unfold declareTotal declared
  split <;> rfl

/-- The declaration of a total as a transition, if one is needed. -/
def declaration : List (Transition α) := (declareTotal m total).map fun c => ⟨m, c, declared m total⟩

theorem passage_declaration : Passage m (declaration m total) (declared m total) := by
  unfold declaration declareTotal declared
  split
  · exact .cons rfl (.nil _)
  · exact .nil m

theorem line_declaration : (declaration m total).map (·.line) = declareTotal m total := by
  rw [declaration, List.map_map]
  exact List.map_id _

/-- A declared total neither moves the head nor changes how numbers are meant. -/
theorem declared_frame :
    (declared m total).position = m.position ∧ (declared m total).offset = m.offset ∧
      (declared m total).positioning = m.positioning ∧ (declared m total).extrusionMode = m.extrusionMode ∧
      (declared m total).feedRate = m.feedRate := by
  unfold declared
  split <;> exact ⟨rfl, rfl, rfl, rfl, rfl⟩

end

section
variable {m next : Machine Exact} {point : Point Exact} {share : Exact} {feedRate : Option Exact} {withHeight : Bool}
  (stepped : m.after (moveTo m point share feedRate withHeight) = .ok next)

include stepped

private theorem gauge_of_moveTo (dial : Dial) :
    next.gauge dial = (Command.drive ((moveTo m point share feedRate withHeight).number? dial) (m.mode dial)).apply
      (m.gauge dial) := Machine.after_gauge stepped dial

private theorem position_of_moveTo (absolute : m.positioning = .absolute) (a : Axis) :
    next.position.get a = ((moveTo m point share feedRate withHeight).number? (.axis a)).getD (m.position.get a) := by
  have mode : m.mode (.axis a) = .absolute := absolute
  have logical := congrArg Gauge.logical (gauge_of_moveTo stepped (.axis a))
  rw [mode, Machine.drive_apply] at logical
  exact logical

/-- The filament is pushed that was meant, in whichever way the machine counts. -/
private theorem extrusion_of_moveTo : next.extrusion = m.extrusion + share := by
  have pushed := congrArg Gauge.logical (gauge_of_moveTo stepped .filament)
  rw [Machine.drive_apply, number?_moveTo] at pushed
  simp only [Machine.gauge, Machine.mode, Option.getD_some] at pushed
  rw [pushed]
  cases m.extrusionMode <;> rfl

/-- A feed rate that is left out is the one that the machine has. -/
private theorem feedRate_of_moveTo : next.feedRate = feedRate.or m.feedRate := by
  rw [Machine.after_feedRate stepped, feed?_moveTo]
  cases feedRate with
  | none => rfl
  | some feed =>
    rw [Option.filter_some]
    by_cases same : (m.feedRate == some feed) = true
    · cases current : m.feedRate with
      | none => rw [current] at same; cases same
      | some rate =>
        rw [current] at same
        rw [Exact.eq_of_beq (show (rate == feed) = true from same)]
        split <;> rfl
    · simp [same]

end

variable {m next : Machine Exact}

/-- A synthesized line leads to the point that was meant, and pushes the
    filament that was meant, in whichever way the machine counts. -/
theorem draws_moveTo {move : Move Exact} {share z : Exact} {withHeight : Bool}
    (absolute : m.positioning = .absolute) (fixed : m.Fixed)
    (stepped : m.after (moveTo m ⟨move.stop.x, move.stop.y, z⟩ share move.feedRate withHeight) = .ok next) :
    Transition.Draws ⟨m, moveTo m ⟨move.stop.x, move.stop.y, z⟩ share move.feedRate withHeight, next⟩
      ⟨move, share, if withHeight then some z else none⟩ := by
  obtain ⟨o, offset⟩ := fixed
  obtain ⟨_, _, sameOffset, _⟩ := Machine.after_of_isLinear (c := moveTo m _ _ _ _) rfl stepped
  have shown := position_of_moveTo stepped absolute
  simp only [number?_moveTo] at shown
  constructor
  case isLinear => rfl
  case x =>
    have position : next.position.x = move.stop.x - m.offset.x := by
      simpa [Point.get] using shown .x
    show next.position.x + next.offset.x = _
    rw [position, sameOffset, offset]
    exact Exact.sub_add_cancel ..
  case y =>
    have position : next.position.y = move.stop.y - m.offset.y := by
      simpa [Point.get] using shown .y
    show next.position.y + next.offset.y = _
    rw [position, sameOffset, offset]
    exact Exact.sub_add_cancel ..
  case z =>
    have position : next.position.z = (if withHeight then some (z - m.offset.z) else none).getD m.position.z := by
      simpa [Point.get] using shown .z
    show next.position.z + next.offset.z = _
    rw [position, sameOffset]
    cases withHeight with
    | false => rfl
    | true => rw [offset]; exact Exact.sub_add_cancel ..
  case feedRate => exact feedRate_of_moveTo stepped
  case extrusion => exact extrusion_of_moveTo stepped

end Weave

end Seam
