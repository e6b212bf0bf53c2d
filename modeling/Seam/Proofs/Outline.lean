import Seam.Loop.Cut
import Seam.Proofs.Geometry
import Seam.Proofs.Passage

/-!
Loops as paths. The segments of a path follow its lines one by one: a path is
what the lines trace (`Segment.trace_eq_ok_iff`), and a beginning of it is what a
beginning of the lines traces (`Traced.of_append`). A line that does not move the
head is idle as long as it does not change what coordinates mean, and then changes
nothing but the way in which extrusion is given (`Machine.after_of_isIdle`).
-/
namespace Seam

/-- The line neither moves the head nor changes what coordinates mean. -/
def Command.isIdle {α : Type} (c : Command α) : Bool := !c.isMotion && !c.altersFrame

namespace Segment

variable {α : Type}

def move? : Segment α → Option (Move α)
  | .move m => some m
  | .other _ => none

def moves (segments : List (Segment α)) : List (Move α) := segments.filterMap move?

/-- No line of the path changes what coordinates mean. -/
def Plain (segments : List (Segment α)) : Prop := ∀ c, .other c ∈ segments → c.isIdle = true

end Segment

namespace Machine

variable {α : Type} [Scalar α] {m next : Machine α} {c : Command α}

theorem after_of_isIdle (m : Machine α) (idle : c.isIdle = true) :
    m.after c = .ok { m with extrusionMode := (c.mode? .filament).getD m.extrusionMode } := by
  cases c with
  | comment => rfl
  | verbatim => rfl
  | instruction i =>
    obtain ⟨code, w, _⟩ := i
    cases code <;> first | rfl | cases idle

theorem after_of_isLinear (linear : c.isLinear = true) (stepped : m.after c = .ok next) :
    next.positioning = m.positioning ∧ next.extrusionMode = m.extrusionMode ∧ next.offset = m.offset ∧
      next.extrusionOffset = m.extrusionOffset := by
  cases c with
  | comment => cases linear
  | verbatim => cases linear
  | instruction i =>
    obtain ⟨code, w, _⟩ := i
    cases code
    case rapidMove | linearMove => cases stepped; exact ⟨rfl, rfl, rfl, rfl⟩
    all_goals exact absurd linear Bool.false_ne_true

end Machine

namespace Segment

variable {α : Type} [Scalar α] {height : α} {m next : Machine α} {c : Command α} {s : Segment α}

theorem ofStep?_eq_some_iff :
    ofStep? height m next c = some s ↔
      next.positioning = .absolute ∧ next.physicalKnown = true ∧
        (c.isLinear = true ∧ ¬ layerTolerance < Scalar.abs (next.physical.z - height) ∧
            s = .move ⟨m.physical, next.physical, next.extrusion - m.extrusion, next.feedRate⟩ ∨
          c.isMotion = false ∧ c.code? ≠ some .home ∧ s = .other c) := by
  unfold ofStep?
  by_cases absolute : next.positioning = .absolute
  case neg => simp [absolute]
  by_cases known : next.physicalKnown = true
  case neg => simp [known]
  simp only [absolute, known, Command.isLinear, Command.isMotion, bne_self_eq_false, Bool.not_true, Bool.or_self,
    Bool.false_eq_true, ↓reduceIte, true_and]
  cases c.code? with
  | none => simp [eq_comm]
  | some code =>
    cases code <;> simp [Code.isArc, Code.isLinear, Code.isMotion, eq_comm]

end Segment

/-- The machine goes along lines whose segments in the layer at a height are the
    given ones, and is the second machine behind them. -/
inductive Traced {α : Type} [Scalar α] (height : α) :
    Machine α → List (Command α) → List (Segment α) → Machine α → Prop
  | nil (m : Machine α) : Traced height m [] [] m
  | cons {m next last : Machine α} {c : Command α} {cs : List (Command α)} {s : Segment α}
      {segments : List (Segment α)} (stepped : m.after c = .ok next)
      (drawn : Segment.ofStep? height m next c = some s) (rest : Traced height next cs segments last) :
      Traced height m (c :: cs) (s :: segments) last

section
variable {α : Type} [Scalar α] {height : α} {m last : Machine α} {cs : List (Command α)}
  {segments : List (Segment α)}

theorem Segment.trace_cons_iff {c : Command α} :
    Segment.trace height m (c :: cs) = .ok (some segments) ↔
      ∃ next s rest, m.after c = .ok next ∧ Segment.ofStep? height m next c = some s ∧
        Segment.trace height next cs = .ok (some rest) ∧ segments = s :: rest := by
  rw [Segment.trace]
  cases stepped : m.after c with
  | error fault => simp [bind, Except.bind]
  | ok next =>
    cases drawn : Segment.ofStep? height m next c with
    | none => simp [bind, Except.bind, pure, Except.pure, drawn]
    | some s =>
      rcases traced : Segment.trace height next cs with fault | _ | rest
      · simp [bind, Except.bind, drawn, traced]
      · simp [bind, Except.bind, pure, Except.pure, drawn, traced]
      · simp [bind, Except.bind, pure, Except.pure, drawn, traced, eq_comm]

theorem Segment.trace_eq_ok_iff :
    Segment.trace height m cs = .ok (some segments) ↔ ∃ last, Traced height m cs segments last := by
  induction cs generalizing m segments with
  | nil =>
    constructor
    · intro traced; cases traced; exact ⟨m, .nil m⟩
    · rintro ⟨last, traced⟩; cases traced; rfl
  | cons c cs ih =>
    rw [Segment.trace_cons_iff]
    constructor
    · rintro ⟨next, s, rest, stepped, drawn, traced, rfl⟩
      obtain ⟨last, traced⟩ := ih.mp traced
      exact ⟨last, .cons stepped drawn traced⟩
    · rintro ⟨last, traced⟩
      cases traced with
      | cons stepped drawn rest => exact ⟨_, _, _, stepped, drawn, ih.mpr ⟨last, rest⟩, rfl⟩

/-- Lines are a path exactly if the machine knows where it starts and traces them there. -/
theorem Segment.path?_eq_ok_iff :
    Segment.path? m cs = .ok (some segments) ↔
      m.physicalKnown = true ∧ ∃ last, Traced m.physical.z m cs segments last := by
  unfold Segment.path?
  split
  case isTrue known => rw [trace_eq_ok_iff, and_iff_right known]
  case isFalse unknown => simp [unknown]

namespace Traced

theorem replay (traced : Traced height m cs segments last) : m.replay cs = .ok last := by
  induction traced with
  | nil => rfl
  | cons stepped _ _ ih => exact Machine.replay_cons_eq_ok_iff.mpr ⟨_, stepped, ih⟩

theorem length_eq (traced : Traced height m cs segments last) : segments.length = cs.length := by
  induction traced with
  | nil => rfl
  | cons _ _ _ ih => rw [List.length_cons, List.length_cons, ih]

/-- A path that is cut is two paths, one behind the other. -/
theorem of_append {front back : List (Segment α)} (traced : Traced height m cs (front ++ back) last) :
    ∃ mid, Traced height m (cs.take front.length) front mid ∧ Traced height mid (cs.drop front.length) back last := by
  induction front generalizing m cs with
  | nil => exact ⟨m, .nil m, traced⟩
  | cons s front ih =>
    cases traced with
    | cons stepped drawn rest =>
      obtain ⟨mid, before, behind⟩ := ih rest
      exact ⟨mid, .cons stepped drawn before, behind⟩

/-- The lines and their path, cut behind so many of them. -/
theorem split (traced : Traced height m cs segments last) (n : ℕ) :
    ∃ mid, Traced height m (cs.take n) (segments.take n) mid ∧ Traced height mid (cs.drop n) (segments.drop n) last := by
  have lengths := traced.length_eq
  have taken : cs.take (min n segments.length) = cs.take n := List.take_eq_take_iff.mpr (by omega)
  have dropped : cs.drop (min n segments.length) = cs.drop n := List.drop_eq_drop_iff.mpr (by omega)
  rw [← List.take_append_drop n segments] at traced
  obtain ⟨mid, front, back⟩ := traced.of_append
  rw [List.length_take, taken] at front
  rw [List.length_take, dropped] at back
  exact ⟨mid, front, back⟩

/-- A move of a path leads where the machine is behind some of the lines. -/
theorem exists_prefix (traced : Traced height m cs segments last) {drawn : Move α} (mem : .move drawn ∈ segments) :
    ∃ front mid, front <+: cs ∧ m.replay front = .ok mid ∧ mid.physical = drawn.stop ∧ mid.positioning = .absolute ∧
      mid.physicalKnown = true := by
  induction traced with
  | nil => cases mem
  | @cons m next _ c cs s _ stepped shown _ ih =>
    rcases List.mem_cons.mp mem with same | later
    · obtain ⟨absolute, known, ⟨_, _, move⟩ | ⟨_, _, other⟩⟩ := Segment.ofStep?_eq_some_iff.mp shown
      · cases same.trans move
        exact ⟨[c], next, ⟨cs, rfl⟩, Machine.replay_cons_eq_ok_iff.mpr ⟨next, stepped, rfl⟩, rfl, absolute, known⟩
      · cases same.trans other
    · obtain ⟨front, mid, began, reached, facts⟩ := ih later
      exact ⟨c :: front, mid, List.cons_prefix_cons.mpr ⟨rfl, began⟩,
        Machine.replay_cons_eq_ok_iff.mpr ⟨next, stepped, reached⟩, facts⟩

end Traced
end

end Seam
