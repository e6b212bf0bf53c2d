import Seam.Proofs.Lawful
import Seam.Proofs.Woven

/-!
Programs without their comments and the lines that are kept as they stand. Those lines do
nothing to the machine, and wherever they are carried along they are carried by themselves:
to take them out of a run, a path, its cut, its steps or a taper is the same as to work on
the bare lines from the start (`Machine.extruding_bare`, `Segment.trace_bare`,
`Cut.resume_bare`, `Ramp.place_bare`, `Weave.emit_bare`, `Weave.weave_bare`).
-/
namespace Seam

private theorem List.take_filter_length {β : Type} (keep : β → Bool) (xs : List β) (n : ℕ) :
    (xs.filter keep).take ((xs.take n).filter keep).length = (xs.take n).filter keep := by
  conv => lhs; rw [← List.take_append_drop n xs, List.filter_append, List.take_append_drop]
  exact List.take_left' rfl

private theorem List.drop_filter_length {β : Type} (keep : β → Bool) (xs : List β) (n : ℕ) :
    (xs.filter keep).drop ((xs.take n).filter keep).length = (xs.drop n).filter keep := by
  conv => lhs; rw [← List.take_append_drop n xs, List.filter_append, List.take_append_drop]
  exact List.drop_left' rfl

namespace Command

variable {α : Type}

/-- The line is an instruction that the machine is followed through. -/
def isTracked (c : Command α) : Bool := c.code?.isSome

/-- The lines that are instructions. -/
def bare (cs : List (Command α)) : List (Command α) := cs.filter isTracked

variable {c : Command α} {cs : List (Command α)}

@[simp] theorem bare_nil : bare ([] : List (Command α)) = [] := rfl

theorem bare_cons_of_tracked (tracked : c.isTracked = true) : bare (c :: cs) = c :: bare cs :=
  List.filter_cons_of_pos tracked

theorem bare_cons_of_inert (inert : c.isTracked = false) : bare (c :: cs) = bare cs :=
  List.filter_cons_of_neg (by rw [inert]; exact Bool.false_ne_true)

@[simp] theorem bare_append (ds : List (Command α)) : bare (cs ++ ds) = bare cs ++ bare ds := List.filter_append ..

@[simp] theorem bare_bare : bare (bare cs) = bare cs := by simp [bare]

private theorem code?_of_inert (inert : c.isTracked = false) : c.code? = none := by
  rw [isTracked] at inert
  cases code : c.code? with
  | none => rfl
  | some code' => rw [code] at inert; cases inert

theorem isMotion_of_inert (inert : c.isTracked = false) : c.isMotion = false := by
  rw [isMotion, code?_of_inert inert]
  rfl

theorem isTracked_of_isMotion (motion : c.isMotion = true) : c.isTracked = true := by
  rw [isMotion] at motion
  rw [isTracked]
  cases code : c.code? with
  | none => rw [code] at motion; cases motion
  | some code' => rfl

end Command

open Command (bare)

namespace Machine

variable {α : Type} [Scalar α] {m : Machine α} {c : Command α} {cs : List (Command α)}

theorem after_of_inert (inert : c.isTracked = false) : m.after c = .ok m := by
  cases c with
  | instruction => cases inert
  | comment => rfl
  | verbatim => rfl

theorem replay_bare (cs : List (Command α)) : m.replay (bare cs) = m.replay cs := by
  induction cs generalizing m with
  | nil => rfl
  | cons c cs ih =>
    cases tracked : c.isTracked with
    | false => rw [Command.bare_cons_of_inert tracked, replay_cons, after_of_inert tracked, ih]; rfl
    | true =>
      rw [Command.bare_cons_of_tracked tracked, replay_cons, replay_cons]
      cases m.after c with
      | error => rfl
      | ok next => exact ih

/-- An instruction at the front is taken as it is, and the bare lines behind it like the lines. -/
theorem extruding_bare_cons (tracked : c.isTracked = true)
    (behind : ∀ next : Machine α, next.extruded = true →
      next.extruding (bare cs) = (next.extruding cs).map (Prod.map bare id)) :
    m.extruding (bare (c :: cs)) = (m.extruding (c :: cs)).map (Prod.map bare id) := by
  rw [Command.bare_cons_of_tracked tracked]
  unfold extruding
  cases m.after c with
  | error => rfl
  | ok next =>
    by_cases extruded : next.extruded = true
    · simp only [extruded, ↓reduceIte, behind next extruded]
      rcases next.extruding cs with fault | ⟨taken, last⟩
      · rfl
      · simp [Except.map, Command.bare_cons_of_tracked tracked]
    · simp only [extruded]
      rfl

/-- While the machine is extruding, the bare lines of a run are the run of the bare lines. -/
theorem extruding_bare (pushing : m.extruded = true) (cs : List (Command α)) :
    m.extruding (bare cs) = (m.extruding cs).map (Prod.map bare id) := by
  induction cs generalizing m with
  | nil => rfl
  | cons c cs ih =>
    cases tracked : c.isTracked with
    | false =>
      rw [Command.bare_cons_of_inert tracked, ih pushing]
      conv => rhs; unfold extruding
      simp only [after_of_inert tracked, pushing, ↓reduceIte]
      rcases m.extruding cs with fault | ⟨taken, last⟩
      · rfl
      · simp [Except.map, Command.bare_cons_of_inert tracked]
    | true => exact extruding_bare_cons tracked fun _ => ih

end Machine

namespace Segment

variable {α : Type}

/-- The segment is a move or an instruction. -/
def isTracked : Segment α → Bool
  | .move _ => true
  | .other c => c.isTracked

def bare (segments : List (Segment α)) : List (Segment α) := segments.filter isTracked

variable {s : Segment α} {segments : List (Segment α)}

theorem bare_cons_of_tracked (tracked : s.isTracked = true) : bare (s :: segments) = s :: bare segments :=
  List.filter_cons_of_pos tracked

theorem bare_cons_of_inert (inert : s.isTracked = false) : bare (s :: segments) = bare segments :=
  List.filter_cons_of_neg (by rw [inert]; exact Bool.false_ne_true)

private theorem bare_cons_move (m : Move α) : bare (.move m :: segments) = .move m :: bare segments := rfl

theorem bare_append (rest : List (Segment α)) : bare (segments ++ rest) = bare segments ++ bare rest :=
  List.filter_append ..

variable [Scalar α] {height : α} {m next : Machine α} {c : Command α} {cs : List (Command α)}

private theorem isTracked_of_ofStep? (drawn : ofStep? height m next c = some s) : s.isTracked = c.isTracked := by
  obtain ⟨_, _, ⟨linear, _, rfl⟩ | ⟨_, _, rfl⟩⟩ := ofStep?_eq_some_iff.mp drawn
  · have motion := (Command.effect_of_isLinear linear .absolute .filament).1
    rw [Command.isTracked_of_isMotion motion]
    rfl
  · rfl

/-- An instruction at the front is drawn as it is, and the bare lines behind it like the lines. -/
private theorem trace_bare_cons (tracked : c.isTracked = true)
    (behind : ∀ next : Machine α, next.positioning = .absolute → next.physicalKnown = true →
      trace height next (Command.bare cs) = (trace height next cs).map (Option.map bare)) :
    trace height m (Command.bare (c :: cs)) = (trace height m (c :: cs)).map (Option.map bare) := by
  rw [Command.bare_cons_of_tracked tracked, trace, trace]
  cases stepped : m.after c with
  | error => rfl
  | ok next =>
    cases drawn : ofStep? height m next c with
    | none => simp [bind, Except.bind, Except.map, pure, Except.pure, drawn]
    | some s =>
      obtain ⟨absolute, known, _⟩ := ofStep?_eq_some_iff.mp drawn
      have kept : s.isTracked = true := (isTracked_of_ofStep? drawn).trans tracked
      simp only [bind, Except.bind, drawn, behind next absolute known]
      rcases trace height next cs with fault | _ | segments
      · rfl
      · rfl
      · simp [Except.map, pure, Except.pure, bare_cons_of_tracked kept]

/-- Where coordinates are positions and the head is known, the bare lines trace the bare path. -/
theorem trace_bare (absolute : m.positioning = .absolute) (known : m.physicalKnown = true) (cs : List (Command α)) :
    trace height m (Command.bare cs) = (trace height m cs).map (Option.map bare) := by
  induction cs generalizing m with
  | nil => rfl
  | cons c cs ih =>
    cases tracked : c.isTracked with
    | false =>
      have still : ofStep? height m m c = some (.other c) := ofStep?_eq_some_iff.mpr
        ⟨absolute, known, .inr ⟨Command.isMotion_of_inert tracked, by simp [Command.code?_of_inert tracked], rfl⟩⟩
      have dropped : (Segment.other c).isTracked = false := tracked
      rw [Command.bare_cons_of_inert tracked, ih absolute known, trace, Machine.after_of_inert tracked]
      rcases path : trace height m cs with fault | _ | segments
      · simp [bind, Except.bind, Except.map, still, path]
      · simp [bind, Except.bind, Except.map, pure, Except.pure, still, path]
      · simp [bind, Except.bind, Except.map, pure, Except.pure, still, path, bare_cons_of_inert dropped]
    | true => exact trace_bare_cons tracked fun _ => ih

/-- A run that begins with an instruction is a path exactly if its bare lines are one. -/
theorem path?_bare {start : Machine α} (tracked : c.isTracked = true) (cs : List (Command α)) :
    path? start (Command.bare (c :: cs)) = (path? start (c :: cs)).map (Option.map bare) := by
  unfold path?
  split
  · exact trace_bare_cons tracked fun _ absolute known => trace_bare absolute known cs
  · rfl

private theorem length_of_inert (inert : s.isTracked = false) : s.length = (0 : α) := by
  cases s with
  | move => cases inert
  | other => rfl

theorem length_root (s : Segment α) : s.length = 0 ∨ ∃ x : α, s.length = Scalar.sqrt x := by
  cases s with
  | move m => exact .inr ⟨_, rfl⟩
  | other c => exact .inl rfl

theorem pathLength_bare [Scalar.Lawful α] (segments : List (Segment α)) : pathLength (bare segments) = pathLength segments := by
  -- from the end of the path, as a sum is added up from its start
  induction segments using List.reverseRecOn with
  | nil => rfl
  | append_singleton segments s ih =>
    have last (front : List (Segment α)) : pathLength (front ++ [s]) = pathLength front + s.length := by
      simp [pathLength, Scalar.sum, List.foldl_append]
    cases tracked : s.isTracked with
    | true =>
      have split : bare (segments ++ [s]) = bare segments ++ [s] := by simp [bare, tracked]
      rw [split, last, last, ih]
    | false =>
      have split : bare (segments ++ [s]) = bare segments := by simp [bare, tracked]
      have roots : ∀ x ∈ segments.map length, x = 0 ∨ ∃ y, x = Scalar.sqrt y := by
        intro x mem
        obtain ⟨s, _, rfl⟩ := List.mem_map.mp mem
        exact s.length_root
      rw [split, ih, last, length_of_inert tracked]
      exact (Scalar.Lawful.sum_add_zero _ roots).symm

/-- The bare lines of a beginning are as many as the segments on the bare path of it. -/
private theorem length_bare_take {last : Machine α} (traced : Traced height m cs segments last) (n : ℕ) :
    (bare (segments.take n)).length = (Command.bare (cs.take n)).length := by
  induction traced generalizing n with
  | nil => simp [bare]
  | @cons _ _ _ c cs s segments _ drawn _ ih =>
    cases n with
    | zero => rfl
    | succ n =>
      have same := isTracked_of_ofStep? drawn
      rw [List.take_succ_cons, List.take_succ_cons]
      cases tracked : c.isTracked with
      | true =>
        rw [bare_cons_of_tracked (same.trans tracked), Command.bare_cons_of_tracked tracked, List.length_cons,
          List.length_cons, ih]
      | false =>
        rw [bare_cons_of_inert (same.trans tracked), Command.bare_cons_of_inert tracked, ih]

end Segment

namespace Cut

variable {α : Type} [Scalar α]

theorem resume_bare (length travelled : α) (segments : List (Segment α)) :
    let cut := resume length travelled segments
    resume length travelled (Segment.bare segments) =
      ⟨Segment.bare cut.taper, cut.tail, (Segment.bare (segments.take cut.remainder)).length⟩ := by
  induction segments generalizing travelled with
  | nil => rfl
  | cons s segments ih =>
    cases s with
    | other c =>
      simp only [resume, after, List.take_succ_cons]
      cases tracked : c.isTracked with
      | true =>
        have kept : (Segment.other c).isTracked = true := tracked
        simp only [Segment.bare_cons_of_tracked kept, resume, ih, after, List.length_cons]
      | false =>
        have dropped : (Segment.other c).isTracked = false := tracked
        simp only [Segment.bare_cons_of_inert dropped, ih]
    | move m =>
      simp only [Segment.bare_cons_move, resume]
      split
      · rfl
      · simp only [ih, after, List.take_succ_cons, Segment.bare_cons_move, List.length_cons]

end Cut

namespace Segment

variable {α : Type} [Scalar α]

private theorem resample_bare (resolution : α) (segments : List (Segment α)) :
    resample resolution (bare segments) = bare (resample resolution segments) := by
  have steps_cons (s : Segment α) (rest : List (Segment α)) :
      resample resolution (s :: rest) = s.steps resolution ++ resample resolution rest := List.flatMap_cons
  induction segments with
  | nil => rfl
  | cons s segments ih =>
    cases s with
    | move m =>
      have moves : bare ((Segment.move m).steps resolution) = (Segment.move m).steps resolution := by
        refine List.filter_eq_self.mpr fun s mem => ?_
        obtain ⟨_, _, rfl⟩ := List.mem_map.mp mem
        rfl
      rw [bare_cons_move, steps_cons, steps_cons, ih, bare_append, moves]
    | other c =>
      have itself : (Segment.other c).steps resolution = [.other c] := rfl
      cases tracked : c.isTracked with
      | true =>
        have kept : (Segment.other c).isTracked = true := tracked
        rw [bare_cons_of_tracked kept, steps_cons, steps_cons, ih, itself, List.singleton_append, List.singleton_append,
          bare_cons_of_tracked kept]
      | false =>
        have dropped : (Segment.other c).isTracked = false := tracked
        rw [bare_cons_of_inert dropped, steps_cons, ih, itself, List.singleton_append, bare_cons_of_inert dropped]

end Segment

namespace Step

variable {α : Type}

/-- The step is a move or an instruction. -/
def isTracked : Step α → Bool
  | .other c => c.isTracked
  | _ => true

def bare (steps : List (Step α)) : List (Step α) := steps.filter isTracked

variable {step : Step α} {steps : List (Step α)}

theorem bare_cons_of_tracked (tracked : step.isTracked = true) : bare (step :: steps) = step :: bare steps :=
  List.filter_cons_of_pos tracked

theorem bare_cons_of_inert (inert : step.isTracked = false) : bare (step :: steps) = bare steps :=
  List.filter_cons_of_neg (by rw [inert]; exact Bool.false_ne_true)

private theorem alteration?_of_inert (inert : step.isTracked = false) : step.alteration? = none := by
  cases step with
  | other c =>
    have frame : c.altersFrame = false := by
      rw [Command.altersFrame, Command.code?_of_inert inert]
      rfl
    simp [alteration?, frame]
  | still => cases inert
  | ramped => cases inert

private theorem takeWhile_bare (steps : List (Step α)) :
    (bare steps).takeWhile (fun step => step.alteration?.isNone) =
      bare (steps.takeWhile fun step => step.alteration?.isNone) := by
  induction steps with
  | nil => rfl
  | cons step steps ih =>
    cases tracked : step.isTracked with
    | false =>
      have plain : step.alteration?.isNone = true := by rw [alteration?_of_inert tracked]; rfl
      simp only [List.takeWhile_cons, plain, ↓reduceIte, bare_cons_of_inert tracked, ih]
    | true =>
      rw [bare_cons_of_tracked tracked]
      by_cases plain : step.alteration?.isNone = true
      · simp only [List.takeWhile_cons, plain, ↓reduceIte, bare_cons_of_tracked tracked, ih]
      · simp only [List.takeWhile_cons, plain]
        rfl

private theorem findSome?_bare (steps : List (Step α)) : (bare steps).findSome? alteration? = steps.findSome? alteration? := by
  induction steps with
  | nil => rfl
  | cons step steps ih =>
    cases tracked : step.isTracked with
    | false =>
      rw [bare_cons_of_inert tracked, List.findSome?_cons, alteration?_of_inert tracked]
      exact ih
    | true =>
      rw [bare_cons_of_tracked tracked, List.findSome?_cons, List.findSome?_cons]
      cases step.alteration? with
      | none => exact ih
      | some c => rfl

end Step

namespace Ramp

variable {α : Type} [Scalar α]

private theorem ofSection_bare [Scalar.Lawful α] (overlap : α) (segments : List (Segment α)) :
    ofSection overlap (Segment.bare segments) = ofSection overlap segments := by
  have first : ((Segment.bare segments).map Segment.length).find? (fun d => Segment.leastLength < d) =
      (segments.map Segment.length).find? fun d => Segment.leastLength < d := by
    induction segments with
    | nil => rfl
    | cons s segments ih =>
      cases tracked : s.isTracked with
      | true =>
        rw [Segment.bare_cons_of_tracked tracked, List.map_cons, List.map_cons, List.find?_cons, List.find?_cons, ih]
      | false =>
        have still : decide (Segment.leastLength < s.length) = false := by
          rw [Segment.length_of_inert tracked]
          exact decide_eq_false Scalar.Lawful.not_leastLength_lt
        rw [Segment.bare_cons_of_inert tracked, List.map_cons, List.find?_cons, still]
        exact ih
  rw [ofSection, ofSection, first]

theorem place_bare (r : Ramp α) (travelled : α) (segments : List (Segment α)) :
    r.place travelled (Segment.bare segments) = Step.bare (r.place travelled segments) := by
  induction segments generalizing travelled with
  | nil => rfl
  | cons s segments ih =>
    cases s with
    | other c =>
      cases tracked : c.isTracked with
      | true =>
        have kept : (Segment.other c).isTracked = true := tracked
        have kept' : (Step.other c).isTracked = true := tracked
        rw [Segment.bare_cons_of_tracked kept, place, place, Step.bare_cons_of_tracked kept', ih]
      | false =>
        have dropped : (Segment.other c).isTracked = false := tracked
        have dropped' : (Step.other c).isTracked = false := tracked
        rw [Segment.bare_cons_of_inert dropped, place, Step.bare_cons_of_inert dropped', ih]
    | move m =>
      rw [Segment.bare_cons_move, place, place]
      split
      · rw [Step.bare_cons_of_tracked rfl, ih]
      · rw [Step.bare_cons_of_tracked rfl, ih]

end Ramp

namespace Weave

variable {α : Type}

private theorem bare_bracket (markers : Bool) (commands : List (Command α)) :
    bare (bracket markers commands) = bare commands := by
  cases markers with
  | false => rfl
  | true =>
    rw [bracket, if_pos rfl, Command.bare_cons_of_inert rfl, Command.bare_append, Command.bare_cons_of_inert rfl,
      Command.bare_nil, List.append_nil]

variable [Scalar α]

/-- The bare lines of a taper are the taper of the bare section. -/
theorem emit_bare {line? : Machine α → Step α → Except (Fault α) (Option (Command α))}
    (inert : ∀ m c, c.isTracked = false → line? m (.other c) = .ok (some c))
    (tracked : ∀ m step c, step.isTracked = true → line? m step = .ok (some c) → c.isTracked = true) (m : Machine α)
    (steps : List (Step α)) :
    emit line? m (Step.bare steps) = (emit line? m steps).map (Prod.map bare id) := by
  induction steps generalizing m with
  | nil => rfl
  | cons step steps ih =>
    cases kept : step.isTracked with
    | false =>
      cases step with
      | still => cases kept
      | ramped => cases kept
      | other c =>
        rw [Step.bare_cons_of_inert kept, emit, inert m c kept]
        simp only [bind, Except.bind, Machine.after_of_inert kept]
        refine (ih m).trans ?_
        rcases emit line? m steps with fault | ⟨commands, last⟩
        · rfl
        · simp [Except.map, pure, Except.pure, Command.bare_cons_of_inert kept]
    | true =>
      rw [Step.bare_cons_of_tracked kept, emit, emit]
      rcases said : line? m step with fault | _ | c
      · rfl
      · exact ih m
      · simp only [bind, Except.bind]
        cases m.after c with
        | error => rfl
        | ok next =>
          have line := tracked m step c kept said
          simp only [ih next]
          rcases emit line? next steps with fault | ⟨commands, last⟩
          · rfl
          · simp [Except.map, pure, Except.pure, Command.bare_cons_of_tracked line]

private theorem emit_rising_bare (layerHeight floor : α) (m : Machine α) (steps : List (Step α)) :
    emit (fun m step => .ok (some (rising layerHeight floor m step))) m (Step.bare steps) =
      (emit (fun m step => .ok (some (rising layerHeight floor m step))) m steps).map (Prod.map bare id) := by
  refine emit_bare (fun m c _ => rfl) (fun m step c kept said => ?_) m steps
  cases said
  cases step with
  | other c => exact kept
  | still => rfl
  | ramped => rfl

private theorem emit_falling_bare (m : Machine α) (steps : List (Step α)) :
    emit falling m (Step.bare steps) = (emit falling m steps).map (Prod.map bare id) := by
  refine emit_bare (fun m c _ => rfl) (fun m step c kept said => ?_) m steps
  cases step with
  | other => cases said; exact kept
  | still => cases said
  | ramped =>
    obtain ⟨_, _, same⟩ := Except.map_eq_ok_iff.mp said
    cases same
    rfl

def Outcome.bare : Outcome α → Outcome α
  | .tapered commands => .tapered (Command.bare commands)
  | .abandoned culprit => .abandoned culprit

variable {tuning : Tuning α} {segments : List (Segment α)}

private theorem overlap_bare [Scalar.Lawful α] : overlap tuning (Segment.bare segments) = overlap tuning segments := by
  rw [overlap, overlap, Segment.pathLength_bare]

private theorem cut_bare [Scalar.Lawful α] :
    cut tuning (Segment.bare segments) = ⟨Segment.bare (cut tuning segments).taper, (cut tuning segments).tail,
      (Segment.bare (segments.take (cut tuning segments).remainder)).length⟩ := by
  rw [cut, overlap_bare]
  exact Cut.resume_bare ..

private theorem steps_bare [Scalar.Lawful α] : steps tuning (Segment.bare segments) = Step.bare (steps tuning segments) := by
  rw [steps, taperSection, overlap_bare, cut_bare, Segment.resample_bare, Ramp.steps, Ramp.ofSection_bare]
  exact Ramp.place_bare ..

/-- The loop of the bare lines is tapered like the loop, or abandoned for the same reason. -/
theorem weave_bare [Scalar.Lawful α] {floor height : α} {markers : Bool} {run run' : Run α} {last : Machine α}
    (traced : Traced height run.start run.commands segments last) (start : run'.start = run.start)
    (finish : run'.finish = run.finish) (lines : run'.commands = bare run.commands) :
    (weave tuning floor markers run' (Segment.bare segments)).map Outcome.bare =
      (weave tuning floor markers run segments).map Outcome.bare := by
  have taken : run'.commands.take (cut tuning (Segment.bare segments)).remainder =
      bare (run.commands.take (cut tuning segments).remainder) := by
    rw [cut_bare, lines, Segment.length_bare_take traced]
    exact List.take_filter_length ..
  have left : remainder tuning (Segment.bare segments) run' = bare (remainder tuning segments run) := by
    rw [remainder, cut_bare, lines, Segment.length_bare_take traced]
    exact List.drop_filter_length ..
  have tail : (cut tuning (Segment.bare segments)).tail = (cut tuning segments).tail := by rw [cut_bare]
  rw [weave_eq, weave_eq, taken, left, tail, start, finish, steps_bare, Step.takeWhile_bare, Step.findSome?_bare,
    emit_rising_bare, Machine.replay_bare]
  rcases emit (fun m step => .ok (some (rising tuning.layerHeight floor m step))) run.start (steps tuning segments) with
    fault | ⟨starting, risen⟩
  · rfl
  simp only [Except.map, bind, Except.bind, Prod.map]
  rcases run.start.replay (run.commands.take (cut tuning segments).remainder) with fault | boundary
  · rfl
  simp only [id_eq]
  rcases joint floor boundary.extrusion (cut tuning segments).tail risen with fault | joining
  · rfl
  have joined : risen.replay (joining ++ bare (remainder tuning segments run)) =
      risen.replay (joining ++ remainder tuning segments run) := by
    rw [← Machine.replay_bare, Command.bare_append, Command.bare_bare, ← Command.bare_append, Machine.replay_bare]
  simp only [joined]
  rcases risen.replay (joining ++ remainder tuning segments run) with fault | joined
  · rfl
  simp only [emit_falling_bare]
  rcases emit falling joined ((steps tuning segments).takeWhile fun step => step.alteration?.isNone) with
    fault | ⟨ending, fallen⟩
  · rfl
  simp only [Except.map, Prod.map, id_eq]
  cases (steps tuning segments).findSome? Step.alteration? with
  | some culprit => rfl
  | none => simp [pure, Except.pure, Outcome.bare, bare_bracket]

end Weave

end Seam
