import Seam.Proofs.Eligible
import Seam.Proofs.Height
import Seam.Proofs.Made
import Seam.Proofs.Sketch

/-!
The law of the two tapers. The heights of the ramp rise from zero to one over the
section of a loop (`Ramp.Climbs`), and each line of the starting taper ends that much
of a layer below its move and pushes that much of its filament, while the ending taper
pushes the rest where the head is (`Weave.Draft.Sloped`). It holds of every loop that is
a path, whatever is declared on it, since the machine is poised for every line of it
(`Weave.poised_start`). Where no move of the section is as good as still, the two tapers
meet: the head is at the end of the cut move before the rest of the loop
(`Weave.Draft.physical_met`).
-/
namespace Seam

/-- What is left between a number and a lesser one, if it is a real, is positive. -/
private theorem Exact.pos_of_sub_eq {x y : Exact} {r : ℝ} (difference : x - y = .real r) (less : y < x) : 0 < r := by
  cases x with
  | real a =>
    cases y with
    | real b =>
      rw [Exact.real_sub, Exact.real.injEq] at difference
      rw [← difference]
      exact sub_pos.mpr ((Exact.real_lt ..).mp less)
    | infinite => cases difference
    | undefined => cases difference
  | infinite s =>
    cases y with
    | real => cases difference
    | undefined => cases difference
    | infinite t =>
      obtain ⟨rfl, rfl⟩ : t = true ∧ s = false := less
      cases difference
  | undefined => cases difference

namespace Move.Forward

variable {m : Move Exact}

theorem upTo (forward : m.Forward) {f : ℝ} (nonneg : 0 ≤ f) : (m.upTo (.real f)).Forward := by
  obtain ⟨e, le, extrusion⟩ := forward
  exact ⟨e * f, mul_nonneg le nonneg, by rw [Move.upTo, extrusion, Exact.real_mul]⟩

theorem steps (forward : m.Forward) (placed : m.Placed) {resolution : ℝ} (positive : 0 < resolution) :
    ∀ part ∈ m.steps (.real resolution), part.Forward := by
  intro part mem
  rcases placed.steps_cases positive with whole | ⟨n, steps⟩
  · rw [whole] at mem
    rw [List.mem_singleton.mp mem]
    exact forward
  · rw [steps] at mem
    obtain ⟨i, _, rfl⟩ := List.mem_map.mp mem
    obtain ⟨e, le, extrusion⟩ := forward
    have count : ((n + 1 : ℕ) : ℝ) ≠ 0 := Nat.cast_ne_zero.mpr n.succ_ne_zero
    refine ⟨e / (n + 1 : ℕ), div_nonneg le (Nat.cast_nonneg _), ?_⟩
    simp only [Move.step, extrusion, Exact.ofNat_eq, Exact.real_div count]

end Move.Forward

/-- Every move of a run of extrusion pushes filament. -/
theorem Run.Extrudes.forward {run : Run Exact} {segments : List (Segment Exact)} (extrudes : run.Extrudes)
    (counted : run.Counted) (path : Segment.path? run.start run.commands = .ok (some segments)) :
    ∀ m, .move m ∈ segments → m.Forward := by
  obtain ⟨_, traced⟩ := Segment.traced_of_path path
  have fed := (traced.counted counted.1 counted.2).1
  obtain ⟨ts, passes, lines, extruding⟩ := extrudes
  rw [← lines] at path
  obtain ⟨_, _, rfl⟩ := (Segment.path?_eq_some_iff passes).mp path
  intro m mem
  obtain ⟨e, extrusion⟩ := fed m mem
  obtain ⟨t, among, same⟩ := List.mem_map.mp mem
  refine ⟨e, le_of_lt ?_, extrusion⟩
  cases linear : t.isLinear with
  | false =>
    rw [Transition.segment_of_not_isLinear linear] at same
    cases same
  | true =>
    rw [Transition.segment_of_isLinear linear] at same
    cases same
    have grows := Machine.after_extruded (passes.step_of_mem among)
    rw [extruding t among, if_pos (Command.effect_of_isLinear linear .absolute .filament).1] at grows
    exact Exact.pos_of_sub_eq extrusion (of_decide_eq_true grows.symm)

namespace Segment

variable {path fine : List (Segment Exact)}

/-- Where a move is divided into moves of no length and long ones, it is of no length or long. -/
theorem Refines.sharp (refines : Refines path fine) (sharp : Sharp fine) : Sharp path := by
  induction refines with
  | nil => exact sharp
  | other _ ih => exact ih sharp
  | @move m parts path fine divided _ ih =>
    rw [Sharp, moves_append, moves_map_move] at sharp
    obtain ⟨here, others⟩ := List.forall_mem_append.mp sharp
    refine List.forall_mem_cons.mpr ⟨?_, ih others⟩
    by_cases long : ∃ part ∈ parts, part.IsLong
    · obtain ⟨part, mem, long⟩ := long
      have nonneg : ∀ r ∈ parts.map Move.reach, 0 ≤ r := by
        intro r listed
        obtain ⟨part, mem, rfl⟩ := List.mem_map.mp listed
        exact (divided.placed part mem).reach_nonneg
      have le : part.reach ≤ m.reach := divided.reach ▸ List.single_le_sum nonneg _ (List.mem_map_of_mem mem)
      exact .inr (lt_of_lt_of_le long le)
    · refine .inl (divided.reach ▸ List.sum_eq_zero fun r listed => ?_)
      obtain ⟨part, mem, rfl⟩ := List.mem_map.mp listed
      exact (here part mem).resolve_right fun isLong => long ⟨part, mem, isLong⟩

end Segment

/-- A path on which no long move reaches the length is shorter, if nothing but its long moves has a length. -/
private theorem Cut.Within.span_lt {length way : ℝ} {segments : List (Segment Exact)} (within : Within length way segments)
    (placed : Segment.Placed segments) (sharp : Segment.Sharp segments) (some : 0 < Segment.span segments) :
    way + Segment.span segments < length := by
  induction segments generalizing way with
  | nil => exact absurd some (lt_irrefl _)
  | cons s segments ih =>
    cases s with
    | other c =>
      rw [Segment.span_cons, Segment.reach_other, zero_add] at some ⊢
      exact ih within placed.of_cons sharp some
    | move m =>
      obtain ⟨short, within⟩ := within
      obtain ⟨here, others⟩ := List.forall_mem_cons.mp sharp
      rw [Segment.span_cons, Segment.reach_move] at some ⊢
      have rest := ih within placed.of_cons others
      rcases placed.of_cons.span_nonneg.eq_or_lt with none | more
      · have long : m.IsLong := here.resolve_left fun none' => by linarith
        have below := not_le.mp fun reached => short ⟨long, reached⟩
        linarith
      · linarith [rest more]

/-- A path that ends with a move ends where the move does when it is taken in steps. -/
private theorem Move.Placed.exists_resample_concat {m : Move Exact} (placed : m.Placed) {r : ℝ} (positive : 0 < r)
    (front : List (Segment Exact)) :
    ∃ fine last, Segment.resample (.real r) (front ++ [.move m]) = fine ++ [.move last] ∧ last.stop = m.stop := by
  obtain ⟨parts, last, steps, stop⟩ := (placed.divided positive).stop
  refine ⟨Segment.resample (.real r) front ++ parts.map .move, last, ?_, stop⟩
  simp [Segment.resample, Segment.steps, steps]

namespace Weave

variable {tuning : Tuning Exact} {run : Run Exact} {segments : List (Segment Exact)}

/-- A loop of some length is cut in a move if its section is sharp. -/
private theorem exists_crossing (usable : tuning.check = .ok ()) (placed : Segment.Placed segments)
    (some : 0 < Segment.span segments) (sharp : Segment.Sharp (taperSection tuning segments)) :
    ∃ front m back, ∃ f : ℝ, segments = front ++ .move m :: back ∧ 0 ≤ f ∧ f ≤ 1 ∧
      cut tuning segments =
        ⟨front ++ [.move (m.upTo (.real f))], if f < 1 then Option.some (m.onFrom (.real f)) else none, front.length + 1⟩ := by
  obtain ⟨o, _, _, overlap⟩ := overlap_eq usable placed
  have cuts := Cut.resume_cases (min o (Segment.span segments / 3)) 0 placed
  have here : cut tuning segments = Cut.resume (.real (min o (Segment.span segments / 3))) (.real 0) segments := by
    rw [cut, overlap, Cut.ofLength, Exact.zero_eq]
  rw [← here] at cuts
  rcases cuts with ⟨whole, within⟩ | ⟨front, m, back, split, _, long, _, cut⟩
  · have refines := refines_taperSection usable placed
    rw [whole] at refines
    have far := within.span_lt placed (refines.sharp sharp) some
    have third : min o (Segment.span segments / 3) ≤ Segment.span segments / 3 := min_le_right ..
    linarith
  · exact ⟨front, m, back, _, split, le_max_left .., max_le zero_le_one (min_le_right ..), cut⟩

/-- What comes behind the tail of the cut move: the rest of the loop, and the section once more. -/
noncomputable def beyond (tuning : Tuning Exact) (segments : List (Segment Exact)) : List (Segment Exact) :=
  segments.drop (cut tuning segments).remainder ++ taperSection tuning segments

variable (usable : tuning.check = .ok ()) (path : Segment.path? run.start run.commands = .ok (some segments))
  (counted : run.Counted)

section
include usable path

private theorem forward_taperSection (forward : ∀ m, .move m ∈ segments → m.Forward) :
    ∀ m, .move m ∈ taperSection tuning segments → m.Forward := by
  obtain ⟨known, traced⟩ := Segment.traced_of_path path
  have placed := traced.placed known
  obtain ⟨o, _, _, overlap⟩ := overlap_eq usable placed
  have taper : ∀ m, .move m ∈ (cut tuning segments).taper → m.Forward := by
    intro m mem
    rw [cut, overlap, Cut.ofLength, Exact.zero_eq] at mem
    rcases Cut.resume_cases (min o (Segment.span segments / 3)) 0 placed with
      ⟨whole, _⟩ | ⟨front, m', back, split, _, _, _, cut⟩
    · rw [whole] at mem
      exact forward m mem
    · rw [cut] at mem
      rcases List.mem_append.mp mem with before | last
      · exact forward m (split ▸ List.mem_append_left _ before)
      · cases List.mem_singleton.mp last
        exact (forward m' (by simp [split])).upTo (le_max_left ..)
  obtain ⟨r, positive, resolution⟩ := Tuning.taperResolution_of_check usable
  intro m mem
  rw [taperSection, resolution] at mem
  obtain ⟨s, among, listed⟩ := List.mem_flatMap.mp mem
  cases s with
  | other c => cases List.mem_singleton.mp listed
  | move m' =>
    obtain ⟨part, divided, same⟩ := List.mem_map.mp listed
    cases same
    have whole : m'.Placed := (refines_cut usable placed).placed m' (List.mem_append_left _ among)
    exact (taper m' among).steps whole positive m divided

private theorem sound_steps (given : ∀ c ∈ run.commands, c.Counted) (forward : ∀ m, .move m ∈ segments → m.Forward) :
    ∀ step ∈ steps tuning segments, step.Sound := by
  obtain ⟨known, traced⟩ := Segment.traced_of_path path
  have placed := traced.placed known
  intro step mem
  have moves {m : Move Exact} (shown : step.segment = .move m) : m.Placed ∧ m.Forward :=
    ⟨placed_of_step usable path mem shown,
      forward_taperSection usable path forward m (shown ▸ segment_mem_taperSection mem)⟩
  cases step with
  | other c =>
    have written := mem_of_other_taperSection usable placed (segment_mem_taperSection mem)
    exact ⟨sure_of_other usable path mem, given c (mem_of_other_step path mem), traced.still written⟩
  | still m => exact moves rfl
  | ramped m t =>
    obtain ⟨_, h, nonneg, le_one, height⟩ := proper_steps usable placed _ mem
    exact ⟨(moves rfl).1, (moves rfl).2, h, nonneg, le_one, height⟩

include counted in
/-- Where the loop begins, the machine can go along the section and the tail of the cut move, along the rest of the loop,
    and along the section once more. -/
theorem poised_start :
    run.start.Poised (taperSection tuning segments ++
      ((cut tuning segments).tail.toList.map .move ++ beyond tuning segments)) := by
  obtain ⟨known, traced⟩ := Segment.traced_of_path path
  have placed := traced.placed known
  have covered := refines_cut usable placed
  have tail := Segment.refines_self covered.placed.of_append.2
  have rest : Segment.Placed (segments.drop (cut tuning segments).remainder) :=
    fun m mem => placed m (List.mem_of_mem_drop mem)
  have once := ((refines_taperSection usable placed).append tail).append (Segment.refines_self rest)
  have whole := traced.upright
  rw [← List.take_append_drop (cut tuning segments).remainder segments] at whole
  have upright := once.upright ((covered.append (Segment.refines_self rest)).upright whole)
  refine ⟨known, counted.1, ?_⟩
  rw [beyond, ← List.append_assoc, ← List.append_assoc]
  refine upright.append (fun none => ?_) ?_
  · rw [List.append_eq_nil_iff, List.append_eq_nil_iff] at none
    rw [none.1.1]
    trivial
  · rw [List.append_assoc] at upright
    exact upright.absolute.of_append

end

namespace Draft

variable {f l : ℝ} (d : Draft tuning (.real f) run segments)

include usable path

private theorem follows_starting (given : run.Counted) (sound : ∀ step ∈ steps tuning segments, step.Sound)
    (layer : tuning.layerHeight = .real l) (nonneg : 0 ≤ l) :
    List.Forall₂ (Transition.Rises l f) d.starting (steps tuning segments) ∧
      d.risen.Poised ((cut tuning segments).tail.toList.map .move ++ beyond tuning segments) := by
  have start := poised_start usable path given
  have raised := d.raised
  rw [← segment_steps] at start
  rw [layer] at raised
  have along : List.Forall₂ (Transition.Rises l f) d.starting ((steps tuning segments).filter fun _ => true) ∧ _ :=
    follows_of_emit (fun step mem here next c rest poised line stepped => by
      cases line
      exact ⟨rfl, poised.rises nonneg (sound step mem) stepped⟩)
      (fun _ _ _ _ _ line => by cases line) start d.rises raised
  rwa [List.filter_true] at along

/-- The joint leads to the end of the tail, if there is one, and otherwise leaves the head where it is. -/
private theorem follows_joint (given : run.Counted)
    (risen : d.risen.Poised ((cut tuning segments).tail.toList.map .move ++ beyond tuning segments)) :
    d.met.physical = (cut tuning segments).tail.elim d.risen.physical
        (fun m => ⟨m.stop.x, m.stop.y, Scalar.max m.stop.z (.real f)⟩) ∧
      d.met.Poised (beyond tuning segments) := by
  obtain ⟨known, traced⟩ := Segment.traced_of_path path
  have covered := refines_cut usable (traced.placed known)
  have fed := covered.fed fun m mem => (traced.counted given.1 given.2).1 m (List.mem_of_mem_take mem)
  have boundary : d.boundary.Counted :=
    given.1.replay (fun c mem => given.2 c (List.mem_of_mem_take mem)) d.replayed
  have replayed := d.joins.replay
  rw [joint_eq_ok_iff.mp d.joined_lines, Machine.replay_append_eq_ok_iff] at replayed
  obtain ⟨mid, declaration, bridged⟩ := replayed
  cases (replay_declareTotal ..).symm.trans declaration
  cases tail : (cut tuning segments).tail with
  | none =>
    rw [tail] at risen bridged
    have total : (resumption d.boundary.extrusion none).IsReal := boundary.1
    obtain ⟨ready, physical⟩ := risen.declared total
    have same : declared d.risen (resumption d.boundary.extrusion none) = d.met := Except.ok.inj bridged
    exact same ▸ ⟨physical, ready⟩
  | some m =>
    rw [tail] at risen bridged
    have left : .move m ∈ (cut tuning segments).covered := List.mem_append_right _ (by simp [tail])
    obtain ⟨e, extrusion⟩ := fed m left
    obtain ⟨_, q, _, stop⟩ := covered.placed m left
    have total : (resumption d.boundary.extrusion (some m)).IsReal := by
      obtain ⟨b, count⟩ := boundary.1
      exact ⟨b - e, by rw [resumption, Option.elim_some, count, extrusion, Exact.real_sub]⟩
    obtain ⟨next, stepped, ends⟩ := Machine.replay_cons_eq_ok_iff.mp bridged
    cases ends
    have height : true = true → (Scalar.max m.stop.z (.real f)).IsReal :=
      fun _ => ⟨max q.z f, by rw [stop]; exact Exact.max_real ..⟩
    obtain ⟨physical, _, ready⟩ := (risen.declared total).1.draws (covered.placed m left) height ⟨e, extrusion⟩ stepped
    exact ⟨physical, ready⟩

omit usable in
private theorem follows_rest (given : run.Counted) (met : d.met.Poised (beyond tuning segments)) :
    d.joined.Poised (taperSection tuning segments) := by
  obtain ⟨_, traced⟩ := Segment.traced_of_path path
  obtain ⟨mid, _, behind⟩ := traced.split (cut tuning segments).remainder
  refine met.replay behind (fun c mem => given.2 c (List.mem_of_mem_drop mem)) ?_
  have replayed := d.follows.replay
  rwa [d.rest_lines] at replayed

omit usable path in
private theorem follows_ending (sound : ∀ step ∈ steps tuning segments, step.Sound)
    (joined : d.joined.Poised (taperSection tuning segments)) :
    List.Forall₂ Transition.Falls d.ending
      (((steps tuning segments).takeWhile fun step => step.alteration?.isNone).filter fun step => !step.isStill) := by
  rw [← segment_steps, ← List.takeWhile_append_dropWhile (p := fun step => step.alteration?.isNone)
    (l := steps tuning segments), List.map_append] at joined
  have mem {step : Step Exact} (taken : step ∈ (steps tuning segments).takeWhile fun step => step.alteration?.isNone) :
      step ∈ steps tuning segments := (List.takeWhile_prefix _).mem taken
  refine (follows_of_emit (fun step taken here next c rest poised line stepped => ?_)
    (fun step taken here rest poised line => ?_) joined d.falls d.lowered).1
  · refine ⟨?_, poised.falls (sound step (mem taken)) line stepped⟩
    cases step with
    | still => cases line
    | _ => rfl
  · cases step with
    | other c => cases line
    | still m => exact ⟨rfl, poised.skip⟩
    | ramped m t =>
      have known := (here.physicalPosition_eq_ok_iff here.physical).mpr ⟨poised.known, rfl⟩
      rw [falling, known] at line
      cases line

omit usable path in
/-- Along a section of constant height no line that ends a move of some length ends it lower than one before it. -/
private theorem pairwise_starting {heights : List ℝ}
    (follows : List.Forall₂ (Transition.Rises l f) d.starting (steps tuning segments))
    (nonneg : 0 ≤ l) (climbs : (steps tuning segments).filterMap Step.height? = heights.map .real)
    (ascends : heights.Pairwise (· ≤ ·)) {z : ℝ}
    (constant : ∀ m ∈ Segment.moves (taperSection tuning segments), m.stop.z = .real z) :
    (d.starting.zip (steps tuning segments)).Pairwise fun a b =>
      a.2.height?.isSome = true → b.2.height?.isSome = true → a.1.after.physical.z ≤ b.1.after.physical.z := by
  obtain ⟨lengths, related⟩ := List.forall₂_iff_zip.mp follows
  have ordered : ((steps tuning segments).filterMap Step.height?).Pairwise fun s t => s ≤ t := by
    rw [climbs, List.pairwise_map]
    exact ascends.imp fun le => (Exact.real_le ..).mpr le
  rw [List.pairwise_filterMap, ← List.map_snd_zip lengths.ge, List.pairwise_map] at ordered
  refine ordered.imp_of_mem fun {a b} here there le low high => ?_
  have ends {p : Transition Exact × Step Exact} (mem : p ∈ d.starting.zip (steps tuning segments))
      (placed : p.2.height?.isSome = true) :
      ∃ h : ℝ, p.2.height? = some (.real h) ∧ p.1.after.physical.z = .real (max (z - (1 - h) * l) f) := by
    obtain ⟨t, step⟩ := p
    have rises := related mem
    cases step with
    | other => cases placed
    | still => cases placed
    | ramped m height =>
      obtain ⟨h, rfl, ⟨z', level, physical, _⟩, _⟩ := rises
      have listed := segment_mem_taperSection (List.of_mem_zip mem).2
      rw [constant m (List.mem_filterMap.mpr ⟨_, listed, rfl⟩), Exact.real.injEq] at level
      exact ⟨h, rfl, by rw [physical, level]⟩
  obtain ⟨h, low, here⟩ := ends here low
  obtain ⟨h', high, there⟩ := ends there high
  have grows := (Exact.real_le ..).mp (le _ low _ high)
  rw [here, there, Exact.real_le]
  exact max_le_max_right f (by nlinarith)

omit usable path in
/-- The head is at the end of the last move of the section behind the starting taper, if the ramp ends at one there. -/
private theorem physical_risen {heights : List ℝ} {front : List (Segment Exact)} {m : Move Exact}
    (follows : List.Forall₂ (Transition.Rises l f) d.starting (steps tuning segments))
    (climbs : (steps tuning segments).filterMap Step.height? = heights.map .real)
    (top : ∀ h, heights.getLast? = some h → h = 1) (above : .real f ≤ m.stop.z)
    (split : taperSection tuning segments = front ++ [.move m]) : d.risen.physical = m.stop := by
  rw [← segment_steps, List.map_eq_append_iff] at split
  obtain ⟨before, lasts, steps_eq, _, shown⟩ := split
  obtain ⟨step, rfl, shown⟩ := List.map_eq_singleton_iff.mp shown
  rw [steps_eq] at follows climbs
  have last := List.forall₂_drop_append _ _ _ follows
  have passes := d.rises
  rw [← List.take_append_drop before.length d.starting] at passes
  obtain ⟨mid, _, passes⟩ := passes.of_append
  generalize d.starting.drop before.length = ts at last passes
  obtain ⟨t, _, rises, none, rfl⟩ := List.forall₂_cons_right_iff.mp last
  cases List.forall₂_nil_right_iff.mp none
  cases passes with
  | cons stepped behind =>
    cases behind
    cases step with
    | other => cases shown
    | still => cases shown; exact rises.1
    | ramped m' height =>
      cases shown
      obtain ⟨h, rfl, ⟨z, level, physical, _⟩, _⟩ := rises
      have final : (heights.map Exact.real).getLast? = some (.real h) := by
        rw [← climbs, List.filterMap_append]
        exact List.getLast?_concat ..
      rw [List.getLast?_map, Option.map_eq_some_iff] at final
      obtain ⟨h', final, same⟩ := final
      have one : h = 1 := (Exact.real.inj same).symm.trans (top h' final)
      rw [level, Exact.real_le] at above
      rw [one, sub_self, zero_mul, sub_zero, max_eq_left above, ← level] at physical
      exact physical

/-- Where the tapers meet, the head is at the end of the cut move: behind the tail if the move has one, and otherwise
    behind a section that ends where the move does. -/
theorem physical_met {heights : List ℝ}
    (follows : List.Forall₂ (Transition.Rises l f) d.starting (steps tuning segments))
    (joint : d.met.physical = (cut tuning segments).tail.elim d.risen.physical
      fun m => ⟨m.stop.x, m.stop.y, Scalar.max m.stop.z (.real f)⟩)
    (climbs : (steps tuning segments).filterMap Step.height? = heights.map .real)
    (top : ∀ h, heights.getLast? = some h → h = 1) (some : 0 < Segment.span segments)
    (above : ∀ m ∈ Segment.moves segments, .real f ≤ m.stop.z) (sharp : Segment.Sharp (taperSection tuning segments)) :
    ∃ front m back, segments = front ++ .move m :: back ∧ (cut tuning segments).remainder = front.length + 1 ∧
      d.met.physical = m.stop := by
  obtain ⟨known, traced⟩ := Segment.traced_of_path path
  have placed := traced.placed known
  obtain ⟨front, m, back, t, split, nonneg, le_one, cut_eq⟩ := exists_crossing usable placed some sharp
  refine ⟨front, m, back, split, by rw [cut_eq], ?_⟩
  have crossed : m.Placed := placed m (by simp [split])
  have high : .real f ≤ m.stop.z := above m (List.mem_filterMap.mpr ⟨.move m, by simp [split], rfl⟩)
  rw [cut_eq] at joint
  by_cases part : t < 1
  · obtain ⟨_, q, _, stop⟩ := crossed
    have stop' : (m.onFrom (.real t)).stop = m.stop := rfl
    rw [stop] at stop' high
    have le : f ≤ q.z := (Exact.real_le ..).mp high
    simp only [if_pos part, Option.elim_some, stop', Point.exact, Exact.max_real, max_eq_left le] at joint
    rw [joint, stop, Point.exact]
  · simp only [if_neg part, Option.elim_none] at joint
    have whole : t = 1 := le_antisymm le_one (not_lt.mp part)
    obtain ⟨r, positive, resolution⟩ := Tuning.taperResolution_of_check usable
    obtain ⟨fine, last, split, stop⟩ := (crossed.upTo t).exists_resample_concat positive front
    have ends : taperSection tuning segments = fine ++ [.move last] := by rw [taperSection, resolution, cut_eq, split]
    have stop : last.stop = m.stop := by rw [stop, whole, crossed.stop_upTo_one]
    rw [joint, d.physical_risen follows climbs top (stop ▸ high) ends, stop]

end Draft

/-- The law of the two tapers of a loop with the given overlap and layer height, whose ramp has the given heights. -/
structure Draft.Sloped {f : ℝ} (d : Draft tuning (.real f) run segments) (o l : ℝ) (heights : List ℝ) : Prop where
  woven : ∀ markers, weave tuning (.real f) markers run segments = .ok (d.outcome markers)
  overlap_eq : overlap tuning segments = .real o
  layer_eq : tuning.layerHeight = .real l
  /-- The steps are the segments of the section, and those that are moves longer than the least length have a height. -/
  entries : (steps tuning segments).map Step.segment = taperSection tuning segments
  proper : ∀ step ∈ steps tuning segments, step.Proper
  ramp : (steps tuning segments).filterMap Step.height? = heights.map .real
  climbs : Ramp.Climbs o (taperSection tuning segments) heights
  starting : List.Forall₂ (Transition.Rises l f) d.starting (steps tuning segments)
  ascends : ∀ z : ℝ, (∀ m ∈ Segment.moves (taperSection tuning segments), m.stop.z = .real z) →
    (d.starting.zip (steps tuning segments)).Pairwise fun a b =>
      a.2.height?.isSome = true → b.2.height?.isSome = true → a.1.after.physical.z ≤ b.1.after.physical.z
  /-- The ending taper stops at a line that would change what coordinates mean, and the loop is then abandoned. -/
  ending : List.Forall₂ Transition.Falls d.ending
    (((steps tuning segments).takeWhile fun step => step.alteration?.isNone).filter fun step => !step.isStill)
  meets : 0 < Segment.pathLength segments → (∀ m ∈ Segment.moves segments, .real f ≤ m.stop.z) →
    Segment.Sharp (taperSection tuning segments) →
      ∃ front m back, segments = front ++ .move m :: back ∧ (cut tuning segments).remainder = front.length + 1 ∧
        d.met.physical = m.stop

/-- The tapers of every loop that is a path of a run of extrusion follow the law of the ramp. -/
theorem sloped_of_extract {f : ℝ} {m : Machine Exact} {cs : List (Command Exact)} {tuning : Tuning Exact}
    {run : Run Exact} {segments : List (Segment Exact)} (extracted : Run.extract m cs = .ok run) (counted : run.Counted)
    (usable : tuning.check = .ok ()) (path : Segment.path? run.start run.commands = .ok (some segments)) :
    ∃ (d : Draft tuning (.real f) run segments) (o l : ℝ) (heights : List ℝ), d.Sloped o l heights := by
  obtain ⟨d, woven⟩ := exists_draft usable ⟨f, rfl⟩ path
  obtain ⟨known, traced⟩ := Segment.traced_of_path path
  have placed := traced.placed known
  obtain ⟨o, heights, overlap, ramp, climbs⟩ := exists_climb usable placed
  obtain ⟨l, positive, layer⟩ := Tuning.layerHeight_of_check usable
  have sound := sound_steps usable path counted.2 ((Run.extrudes_of_extract extracted).forward counted path)
  obtain ⟨starting, risen⟩ := d.follows_starting usable path counted sound layer positive.le
  obtain ⟨joint, met⟩ := d.follows_joint usable path counted risen
  refine ⟨d, o, l, heights, woven, overlap, layer, segment_steps .., proper_steps usable placed, ramp, climbs, starting,
    fun z constant => d.pairwise_starting starting positive.le ramp climbs.ascends constant,
    d.follows_ending sound (d.follows_rest path counted met), fun long above sharp => ?_⟩
  have some : 0 < Segment.span segments := by
    rwa [placed.pathLength, Exact.zero_eq, Exact.real_lt] at long
  exact d.physical_met usable path starting joint ramp (climbs.last sharp) some above sharp

end Weave

/-- The loop that goes out by totals and back by amounts is the run of a program that goes on with a lift. -/
theorem Lane.extract_mixed : Run.extract mixed.start (mixed.commands ++ [lift 1]) = .ok mixed := by
  obtain ⟨first, second, third⟩ := after_mixed
  have passes := Passage.cons first (.cons (after_switch .absolute) (.cons second (.cons (after_switch .relative)
    (.cons third (.nil _)))))
  refine Run.extract_eq_ok_iff.mpr ⟨rfl, Machine.extruding_of_passage passes ?_ (after_lift 1) rfl []⟩
  simp only [List.forall_mem_cons]
  exact ⟨rfl, rfl, rfl, rfl, rfl, List.forall_mem_nil _⟩

private theorem Lane.sharp_mixed : Segment.Sharp (Weave.taperSection (tuning 2) mixedPath) := by
  have unit {a b : ℝ} (apart : |a - b| = 1) : (move a b 1).IsLong := by
    rw [Move.IsLong, Move.reach, length_move, Exact.toReal_real, apart]
    norm_num
  rw [← Weave.segment_steps, steps_mixed]
  refine List.forall_mem_cons.mpr ⟨.inr (unit (by norm_num)), List.forall_mem_cons.mpr ⟨.inr (unit (by norm_num)), ?_⟩⟩
  exact List.forall_mem_nil _

/-- The ramp of that loop goes from zero to one, and the tapers meet at the end of its second move. -/
theorem Weave.sloped_of_mixed :
    ∃ (d : Draft (Lane.tuning 2) (.real 0) Lane.mixed Lane.mixedPath) (o l : ℝ),
      d.Sloped o l [0, 1] ∧ d.met.physical = Lane.point 3 0 := by
  have counted : Lane.mixed.Counted := by
    refine ⟨⟨⟨0, rfl⟩, ⟨0, rfl⟩⟩, ?_⟩
    simp only [Lane.mixed, List.forall_mem_cons]
    exact ⟨Lane.counted_draw 1 1, .of_bare rfl, Lane.counted_draw 3 3, .of_bare rfl, Lane.counted_draw 0 3,
      List.forall_mem_nil _⟩
  obtain ⟨d, o, l, heights, sloped⟩ :=
    sloped_of_extract (f := 0) Lane.extract_mixed counted (Lane.check_tuning two_pos) Lane.path_mixed
  have ramp : heights = [0, 1] := by
    have shown := sloped.ramp
    rw [Lane.steps_mixed] at shown
    have both : heights.map Exact.real = [0, 1].map Exact.real := shown.symm
    exact List.map_injective_iff.mpr (fun _ _ => Exact.real.inj) both
  subst ramp
  refine ⟨d, o, l, sloped, ?_⟩
  have long : 0 < Segment.pathLength Lane.mixedPath := by
    rw [Lane.pathLength_mixed, Exact.zero_eq, Exact.real_lt]
    norm_num
  have above : ∀ m ∈ Segment.moves Lane.mixedPath, Exact.real 0 ≤ m.stop.z := by
    have level : Exact.real 0 ≤ Exact.real 0 := (Exact.real_le 0 0).mpr le_rfl
    exact List.forall_mem_cons.mpr ⟨level, List.forall_mem_cons.mpr ⟨level, List.forall_mem_cons.mpr ⟨level,
      List.forall_mem_nil _⟩⟩⟩
  obtain ⟨front, m, back, split, cut, met⟩ := sloped.meets long above Lane.sharp_mixed
  rw [Lane.cut_mixed] at cut
  have second : Lane.mixedPath[front.length]? = some (.move m) := by
    rw [split, List.getElem?_append_right le_rfl, Nat.sub_self]
    rfl
  rw [show front.length = 2 from (Nat.succ.inj cut).symm] at second
  cases second
  exact met

end Seam
