import Seam.Proofs.Clearance
import Seam.Proofs.Floor
import Seam.Proofs.Reentry

/-!
The floor is kept. The machine that follows what is written is never above the one that
meets the program by a lead in height (`Machine.Under`), and it is not below the floor. So
where the one comes down to the floor, the other does (`Machine.Shadow.reaches`). Within
the section of a loop that is the stroke of the starting taper that ends where a move ends
which goes down to the floor (`Woven.reaches`). What is written for a program therefore has
the floor of the program (`Pass.floored_of_rewrite`).
-/
namespace Seam

namespace Exact

theorem isReal_add {x y : Exact} : (x + y).IsReal ↔ x.IsReal ∧ y.IsReal := by
  constructor
  · rintro ⟨r, same⟩
    cases x with
    | real a =>
      cases y with
      | real b => exact ⟨⟨a, rfl⟩, b, rfl⟩
      | _ => cases same
    | infinite s =>
      cases y with
      | infinite t =>
        replace same : (if s = t then infinite s else undefined) = .real r := same
        split at same <;> cases same
      | _ => cases same
    | undefined => cases y <;> cases same
  · rintro ⟨⟨a, rfl⟩, b, rfl⟩
    exact ⟨a + b, real_add a b⟩

end Exact

namespace Lead

/-- The lead is a lag in both counts, or none. -/
structure Nonpos (l : Lead) : Prop where
  logical : l.logical ≤ 0
  offset : l.offset ≤ 0

variable {l k : Lead}

private theorem nonpos_zero : zero.Nonpos := ⟨le_rfl, le_rfl⟩

theorem Nonpos.after (nonpos : l.Nonpos) (e : Effect Exact) : (l.after e).Nonpos := by
  cases e with
  | keep | advance => exact nonpos
  | reach | lose => exact ⟨le_rfl, nonpos.offset⟩
  | home => exact nonpos_zero
  | declare => exact ⟨le_rfl, add_nonpos nonpos.offset nonpos.logical⟩

theorem Nonpos.through (nonpos : l.Nonpos) (dial : Dial) (mode : Mode) (cs : List (Command Exact)) :
    (l.through dial mode cs).Nonpos := by
  induction cs generalizing l mode with
  | nil => exact nonpos
  | cons c cs ih => exact ih (nonpos.after _) _

theorem Nonpos.add (first : l.Nonpos) (second : k.Nonpos) : (l.add k).Nonpos :=
  ⟨add_nonpos first.logical second.logical, add_nonpos first.offset second.offset⟩

end Lead

namespace Floor

/-- On its way through the lines the machine comes to a height that counts for the floor. -/
def Reaches (z : ℝ) (m : Machine Exact) (cs : List (Command Exact)) : Prop :=
  ∃ taken here, taken <+: cs ∧ m.replay taken = .ok here ∧ Counts here ∧ here.physical.z = .real z

namespace Reaches

variable {z : ℝ} {m mid last : Machine Exact} {cs ds : List (Command Exact)}

theorem nil (counts : Counts m) (height : m.physical.z = .real z) : Reaches z m cs :=
  ⟨[], m, List.nil_prefix, rfl, counts, height⟩

private theorem of_prefix (reaches : Reaches z m cs) (begins : cs <+: ds) : Reaches z m ds := by
  obtain ⟨taken, here, began, rest⟩ := reaches
  exact ⟨taken, here, began.trans begins, rest⟩

private theorem append_left (reaches : Reaches z m cs) : Reaches z m (cs ++ ds) := reaches.of_prefix (List.prefix_append cs ds)

private theorem append_right (replayed : m.replay cs = .ok mid) (reaches : Reaches z mid ds) : Reaches z m (cs ++ ds) := by
  obtain ⟨taken, here, began, reached, rest⟩ := reaches
  exact ⟨cs ++ taken, here, (List.prefix_append_right_inj cs).mpr began,
    Machine.replay_append_eq_ok_iff.mpr ⟨mid, replayed, reached⟩, rest⟩

theorem of_append (reaches : Reaches z m (cs ++ ds)) (replayed : m.replay cs = .ok mid) :
    Reaches z m cs ∨ Reaches z mid ds := by
  obtain ⟨taken, here, began, reached, rest⟩ := reaches
  rcases List.prefix_or_prefix_of_prefix began (List.prefix_append cs ds) with short | ⟨more, rfl⟩
  · exact .inl ⟨taken, here, short, reached, rest⟩
  · obtain ⟨mid', first, behind⟩ := Machine.replay_append_eq_ok_iff.mp reached
    cases replayed.symm.trans first
    exact .inr ⟨more, here, (List.prefix_append_right_inj cs).mp began, behind, rest⟩

private theorem of_mem {ts : List (Transition Exact)} (passes : Passage m ts last) {t : Transition Exact} (mem : t ∈ ts)
    (counts : Counts t.after) (height : t.after.physical.z = .real z) : Reaches z m (ts.map (·.line)) := by
  obtain ⟨front, back, rfl⟩ := List.append_of_mem mem
  obtain ⟨mid, before, behind⟩ := passes.of_append
  cases behind with
  | @cons _ next _ c _ stepped =>
    have here : Reaches z mid [c] :=
      ⟨[c], next, List.prefix_rfl, Machine.replay_cons_eq_ok_iff.mpr ⟨next, stepped, rfl⟩, counts, height⟩
    rw [List.map_append]
    exact append_right before.replay (here.of_prefix (List.prefix_append [c] _))

end Reaches

variable {f : ℝ} {commands : List (Command Exact)}

/-- A program comes down to its floor unless that is the bed. -/
theorem reaches_of_ofCommands (lowest : ofCommands commands = .ok (.real f)) :
    f = 0 ∨ Reaches f Machine.powerOn commands := by
  rcases (isLeast_of_ofCommands lowest).1 with bed | ⟨taken, here, began, reached, counts, height⟩
  · exact .inl (Exact.real.inj (bed.trans Exact.zero_eq))
  · exact .inr ⟨taken, here, began, reached, counts, height.symm⟩

theorem le_zero_of_ofCommands (lowest : ofCommands commands = .ok (.real f)) : f ≤ 0 := by
  have least := (isLeast_of_ofCommands lowest).2 (Set.mem_insert 0 _)
  rwa [Exact.zero_eq, Exact.real_le] at least

/-- A bound that a program comes down to, if it is not the bed, is the floor of the program. -/
theorem ofCommands_of_reaches (admitted : ∀ c ∈ commands, c.Admitted) (bounds : Bounds f Machine.powerOn commands)
    (nonpos : f ≤ 0) (reaches : f = 0 ∨ Reaches f Machine.powerOn commands) : ofCommands commands = .ok (.real f) := by
  obtain ⟨g, lowest⟩ := exists_ofCommands admitted
  suffices same : g = f by rw [lowest, same]
  refine le_antisymm ?_ ?_
  · rcases reaches with rfl | ⟨taken, here, began, reached, counts, height⟩
    · exact le_zero_of_ofCommands lowest
    · have above := (isLeast_of_ofCommands lowest).2 (.inr ⟨taken, here, began, reached, counts, height.symm⟩)
      rwa [Exact.real_le] at above
  · rcases reaches_of_ofCommands lowest with rfl | ⟨taken, here, began, reached, counts, height⟩
    · exact nonpos
    · obtain ⟨z, met, above⟩ := bounds taken here began reached counts.absolute counts.known
      cases height.symm.trans met
      exact above

end Floor

namespace Machine

variable {f : ℝ} {here here' mid there there' : Machine Exact} {cs : List (Command Exact)}

/-- The second machine is not above the first by a lead in height. -/
def Under (here there : Machine Exact) : Prop := ∃ l : Lead, l.Nonpos ∧ Ahead (.axis .z) l here there

theorem Under.refl (m : Machine Exact) : Under m m := ⟨.zero, Lead.nonpos_zero, .refl m (.axis .z)⟩

theorem Under.trans (first : Under here mid) (second : Under mid there) : Under here there := by
  obtain ⟨l, nonpos, ahead⟩ := first
  obtain ⟨k, nonpos', ahead'⟩ := second
  exact ⟨l.add k, nonpos.add nonpos', ahead.trans ahead'⟩

theorem Under.replay (under : Under here there) (replayed : here.replay cs = .ok here')
    (followed : there.replay cs = .ok there') : Under here' there' := by
  obtain ⟨l, nonpos, ahead⟩ := under
  exact ⟨_, nonpos.through _ _ cs, ahead.replay replayed followed⟩

namespace Shadow

/-- Where the first machine is down at the bound, the second one is. -/
private theorem at_floor (shadow : Shadow f here there) (under : Under here there) (counts : Floor.Counts here)
    (height : here.physical.z = .real f) : Floor.Counts there ∧ there.physical.z = .real f := by
  choose leads ahead using shadow.ahead
  refine ⟨⟨shadow.absolute', (positionKnown_of_ahead ahead).mpr counts.known⟩, ?_⟩
  -- the lead that keeps the second machine from being higher need not be the one of the shadow
  obtain ⟨z, high, above⟩ := (shadow.aloft ⟨shadow.absolute, f, height, le_rfl⟩).2
  obtain ⟨l, nonpos, _, gauge⟩ := under
  have lagging : there.physical.z = here.physical.z + .real l.physical :=
    (congrArg Gauge.physical gauge).trans (Gauge.physical_ahead _ l)
  rw [height, Exact.real_add, high, Exact.real.injEq] at lagging
  have lag : l.physical ≤ 0 := add_nonpos nonpos.logical nonpos.offset
  rw [high, le_antisymm (by linarith) above]

theorem reaches (shadow : Shadow f here there) (under : Under here there) (upright : ∀ c ∈ cs, c.Upright)
    (reaches : Floor.Reaches f here cs) : Floor.Reaches f there cs := by
  obtain ⟨taken, mid, began, source, counts, height⟩ := reaches
  obtain ⟨mid', followed⟩ := exists_replay there source
  have kept := shadow.replay (fun c mem => upright c (began.mem mem)) source followed
  obtain ⟨counts', height'⟩ := kept.at_floor (under.replay source followed) counts height
  exact ⟨taken, mid', began, followed, counts', height'⟩

end Shadow

end Machine

/-- The position is known where the head is. -/
private theorem Machine.positionKnown_of_physical {m : Machine Exact} {p : Point ℝ} (physical : m.physical = p.exact) :
    m.positionKnown = true := by
  have real (a : Axis) : (m.position.get a).IsReal := by
    have whole : (m.position.get a + m.offset.get a).IsReal := by
      rw [← m.get_physical, physical]
      cases a <;> exact ⟨_, rfl⟩
    exact (Exact.isReal_add.mp whole).1
  simp only [positionKnown, Point.isKnown, Bool.and_eq_true, Exact.isFinite_iff]
  exact ⟨⟨real .x, real .y⟩, real .z⟩

/-- Every stroke of a drawing is drawn by one of its lines. -/
private theorem Drawn.exists_draws {stroke? : Step Exact → Option (Stroke Exact)} {m last : Machine Exact}
    {steps : List (Step Exact)} {ts : List (Transition Exact)} (drawn : Drawn stroke? m steps ts last) {s : Stroke Exact}
    (mem : s ∈ steps.filterMap stroke?) : ∃ t ∈ ts, t.Draws s := by
  induction drawn with
  | nil => cases mem
  | other repeated _ _ _ ih =>
    rw [List.filterMap_cons_none repeated] at mem
    obtain ⟨t, listed, draws⟩ := ih mem
    exact ⟨t, List.mem_cons_of_mem _ listed, draws⟩
  | stroke drawn _ draws _ ih =>
    rw [List.filterMap_cons_some drawn] at mem
    rcases List.mem_cons.mp mem with rfl | later
    · exact ⟨_, List.mem_cons_self, draws⟩
    · obtain ⟨t, listed, draws⟩ := ih later
      exact ⟨t, List.mem_cons_of_mem _ listed, draws⟩
  | skip omitted _ ih =>
    rw [List.filterMap_cons_none omitted] at mem
    exact ih mem

/-- A move of a path ends where one does into which it is divided. -/
private theorem Segment.Refines.exists_stop {path fine : List (Segment Exact)} (refines : Refines path fine) {m : Move Exact}
    (mem : .move m ∈ path) : ∃ part, .move part ∈ fine ∧ part.stop = m.stop := by
  induction refines with
  | nil => cases mem
  | other _ ih =>
    rcases List.mem_cons.mp mem with same | later
    · cases same
    · obtain ⟨part, listed, stop⟩ := ih later
      exact ⟨part, List.mem_cons_of_mem _ listed, stop⟩
  | move divided _ ih =>
    rcases List.mem_cons.mp mem with same | later
    · cases same
      obtain ⟨front, last, rfl, stop⟩ := divided.stop
      exact ⟨last, List.mem_append_left _ (List.mem_map_of_mem (by simp)), stop⟩
    · obtain ⟨part, listed, stop⟩ := ih later
      exact ⟨part, List.mem_append_right _ listed, stop⟩

/-- What is in front of the cut segment stays whole. -/
private theorem Cut.mem_taper {length : ℝ} {segments : List (Segment Exact)} (placed : Segment.Placed segments) {n : ℕ}
    (less : n < (Cut.ofLength (.real length) segments).remainder) {s : Segment Exact} (mem : s ∈ segments.take n) :
    s ∈ (Cut.ofLength (.real length) segments).taper := by
  rw [Cut.ofLength, Exact.zero_eq] at less ⊢
  rcases Cut.resume_cases length 0 placed with ⟨whole, _⟩ | ⟨front, m, back, rfl, _, _, _, cut⟩
  · rw [whole]
    exact List.mem_of_mem_take mem
  · rw [cut] at less ⊢
    have before : n ≤ front.length := Nat.lt_succ_iff.mp less
    rw [List.take_append_of_le_length before] at mem
    exact List.mem_append_left _ (List.mem_of_mem_take mem)

namespace Woven

variable {tuning : Tuning Exact} {f : ℝ} {run : Run Exact} {segments : List (Segment Exact)}
  (w : Woven tuning (.real f) run segments)

include w

/-- Where the rest of the loop is met, the head is not too high. -/
private theorem sag_nonpos (aloft : Segment.Aloft f segments) : Weave.sag tuning (.real f) segments ≤ 0 := by
  rw [Weave.sag]
  cases last : (Weave.strokes tuning (.real f) segments).getLast? with
  | none => exact le_rfl
  | some s =>
    obtain ⟨q, h, stop, height, _, le⟩ := w.height_between aloft (List.mem_of_getLast? last)
    rw [Option.elim_some, height, stop]
    exact sub_nonpos.mpr le

private theorem under_met (aloft : Segment.Aloft f segments) : Machine.Under w.boundary w.met :=
  ⟨_, ⟨w.sag_nonpos aloft, le_rfl⟩, w.ahead_met_height ⟨f, rfl⟩⟩

private theorem under_last (aloft : Segment.Aloft f segments) : Machine.Under run.finish w.last := by
  have sunk : (Lead.mk (Weave.sag tuning (.real f) segments) 0).Nonpos := ⟨w.sag_nonpos aloft, le_rfl⟩
  exact ⟨_, sunk.through _ _ _, w.ahead_last ⟨f, rfl⟩ .z⟩

/-- The starting taper comes down where a move of the section ends at the floor. -/
private theorem reaches_of_move (start : run.start.Aloft f) (aloft : Segment.Aloft f segments) {m : Move Exact}
    (mem : .move m ∈ (Weave.cut tuning segments).taper) (down : m.stop.z = .real f) :
    Floor.Reaches f run.start (w.starting.map (·.line)) := by
  obtain ⟨known, traced⟩ := Segment.traced_of_path w.path
  obtain ⟨part, listed, stop⟩ := (Weave.refines_taperSection w.usable (traced.placed known)).exists_stop mem
  obtain ⟨step, placed, same⟩ := List.mem_map.mp (Weave.segment_steps tuning segments ▸ listed)
  obtain ⟨s, drawn, ends⟩ : ∃ s, Step.rise? tuning.layerHeight (.real f) step = some s ∧ s.move.stop = m.stop := by
    cases step with
    | other => cases same
    | still | ramped => cases same; exact ⟨_, rfl, stop⟩
  have risen : s ∈ (Weave.steps tuning segments).filterMap (Step.rise? tuning.layerHeight (.real f)) :=
    List.mem_filterMap.mpr ⟨step, placed, drawn⟩
  obtain ⟨q, h, spot, height, above, below⟩ := w.height_between aloft (List.mem_append_left _ risen)
  have level : q.z = f := by
    rw [← ends, spot] at down
    exact Exact.real.inj down
  have lowest : h = f := le_antisymm (level ▸ below) above
  obtain ⟨t, listed, draws⟩ := w.rises.exists_draws risen
  have landed : t.after.physical = (⟨q.x, q.y, f⟩ : Point ℝ).exact := by
    have z : t.after.physical.z = .real f := by rw [draws.z, height, lowest]; rfl
    have x : t.after.physical.x = .real q.x := draws.x.trans (congrArg Point.x spot)
    have y : t.after.physical.y = .real q.y := draws.y.trans (congrArg Point.y spot)
    rw [Point.exact, ← x, ← y, ← z]
  have absolute : t.after.positioning = .absolute :=
    ((w.rises.aloft start fun s mem h set => w.height_le aloft (List.mem_append_left _ mem) set).1 t listed).1
  exact .of_mem w.rises.passage listed ⟨absolute, Machine.positionKnown_of_physical landed⟩ (congrArg Point.z landed)

/-- In the section of the loop as it was the head is where it was before the loop, or where a move of the section ends. -/
private theorem section_height {n : ℕ} (less : n < (Weave.cut tuning segments).remainder) {here : Machine Exact}
    (reached : run.start.replay (run.commands.take n) = .ok here) :
    here.physical.z = run.start.physical.z ∨
      ∃ m, .move m ∈ (Weave.cut tuning segments).taper ∧ m.stop.z = here.physical.z := by
  obtain ⟨known, traced⟩ := Segment.traced_of_path w.path
  obtain ⟨mid, front, _⟩ := traced.split n
  cases reached.symm.trans front.replay
  have plain : Segment.Plain (segments.take n) := fun c mem =>
    w.traced_boundary.2 c ((List.take_subset_take_left segments less.le) mem)
  have spot := congrArg Point.z (front.physical_last plain)
  cases last : Segment.lastStop? (segments.take n) with
  | none => exact .inl (by rw [spot, last]; rfl)
  | some stop =>
    obtain ⟨m, final, rfl⟩ := Option.map_eq_some_iff.mp last
    obtain ⟨s, mem, moves⟩ := List.mem_filterMap.mp (List.mem_of_getLast? final)
    cases s with
    | other => cases moves
    | move =>
      cases moves
      obtain ⟨o, _, _, overlap⟩ := Weave.overlap_eq w.usable (traced.placed known)
      rw [Weave.cut, overlap] at less ⊢
      exact .inr ⟨m, Cut.mem_taper (traced.placed known) less mem, by rw [spot, last]; rfl⟩

/-- A tapered loop comes down to the floor if the loop as it was does. -/
theorem reaches (markers : Bool) (loop : Clears f run.start run.commands) (upright : ∀ c ∈ run.commands, c.Upright)
    (down : Floor.Reaches f run.start run.commands) :
    Floor.Reaches f run.start ((w.front markers ++ w.rest ++ w.back markers).map (·.line)) := by
  obtain ⟨known, traced⟩ := Segment.traced_of_path w.path
  have aloft := traced.aloft known loop
  have start := loop [] run.start List.nil_prefix rfl
  have start_aloft : run.start.Aloft f := ⟨start.1, start.2 start.1 (Bool.and_eq_true_iff.mp known).1⟩
  obtain ⟨taken, here, began, reached, counts, height⟩ := down
  rw [List.map_append, List.map_append]
  refine .append_left ?_
  -- in the section the floor is where a move ends, and the taper comes by; behind it the shadow is on the floor
  rcases lt_or_ge taken.length (Weave.cut tuning segments).remainder with within | behind
  · rw [List.prefix_iff_eq_take.mp began] at reached
    rcases w.section_height within reached with same | ⟨m, mem, stop⟩
    · exact .nil ⟨start.1, (Bool.and_eq_true_iff.mp known).1⟩ (same.symm.trans height)
    · have tapered := w.reaches_of_move start_aloft aloft mem (stop.trans height)
      rw [front, List.map_append, List.map_append, List.map_append]
      exact ((tapered.append_right (Weave.passage_marker ..).replay).append_left.append_left).append_left
  · have met := (w.clears_front markers start_aloft aloft).2
    have later : Floor.Reaches f w.boundary (Weave.remainder tuning segments run) := by
      obtain ⟨more, rfl⟩ := List.prefix_of_prefix_length_le (List.take_prefix ..) began
        ((List.length_take_le _ _).trans behind)
      obtain ⟨mid, source, rest⟩ := Machine.replay_append_eq_ok_iff.mp reached
      cases w.replayed.symm.trans source
      refine ⟨more, here, ?_, rest, counts, height⟩
      rw [Weave.remainder, ← List.prefix_append_right_inj (run.commands.take (Weave.cut tuning segments).remainder),
        List.take_append_drop]
      exact began
    have upright_later : ∀ c ∈ Weave.remainder tuning segments run, c.Upright :=
      fun c mem => upright c (List.mem_of_mem_drop mem)
    have down := (w.shadow_met start.1 upright met).reaches (w.under_met aloft) upright_later later
    rw [← w.rest_lines] at down
    exact down.append_right (w.passage_front markers).replay

end Woven

/-- What is written for the blocks comes down to the floor if their lines do. -/
theorem Chain.reaches {p : Pass Exact} {f : ℝ} {here finish there last : Machine Exact} {blocks : List (Block Exact)}
    {loops : List (Loop Exact)} (chain : Chain p (.real f) there blocks loops last) (usable : p.tuning.check = .ok ())
    (shadow : Machine.Shadow f here there) (under : Machine.Under here there)
    (replayed : here.replay (blocks.flatMap Block.source) = .ok finish)
    (bounds : Floor.Bounds f here (blocks.flatMap Block.source))
    (upright : ∀ c ∈ blocks.flatMap Block.source, c.Upright)
    (down : Floor.Reaches f here (blocks.flatMap Block.source)) : Floor.Reaches f there (blocks.flatMap Block.emitted) := by
  induction chain generalizing here with
  | nil => exact shadow.reaches under upright down
  | @untouched _ next _ b _ _ kept followed _ ih =>
    rw [List.flatMap_cons] at replayed bounds upright down ⊢
    obtain ⟨mid, source, rest⟩ := Machine.replay_append_eq_ok_iff.mp replayed
    obtain ⟨first, others⟩ := List.forall_mem_append.mp upright
    rw [Block.emitted_of_isUntouched kept]
    rcases down.of_append source with early | late
    · exact (shadow.reaches under first early).append_left
    · exact (ih (shadow.replay first source followed) (under.replay source followed) rest (bounds.behind source) others
        late).append_right followed
  | @tapered run segments line commands next _ _ _ _ path woven followed _ ih =>
    rw [List.flatMap_cons] at replayed bounds upright down ⊢
    obtain ⟨mid, source, rest⟩ := Machine.replay_append_eq_ok_iff.mp replayed
    obtain ⟨first, others⟩ := List.forall_mem_append.mp upright
    have loop : Clears f run.start run.commands := shadow.clears first bounds.front
    obtain ⟨w, lines⟩ := Weave.exists_woven usable path woven
    obtain ⟨known, traced⟩ := Segment.traced_of_path path
    rcases down.of_append source with early | late
    · have tapered := w.reaches p.markers loop first (shadow.reaches under first early)
      rw [lines] at tapered
      exact tapered.append_left
    · have aloft := (w.clears p.markers loop first).2
      cases (lines ▸ (w.passage p.markers).replay).symm.trans followed
      have kept := w.shadow_last (shadow.replay first source run.replays) first aloft
      have sunk := (under.replay source run.replays).trans (w.under_last (traced.aloft known loop))
      exact (ih kept sunk rest (bounds.behind source) others late).append_right followed

/-- What is written for a program without displacements is safe above the floor of the program, and has the same floor. -/
theorem Pass.floored_of_rewrite {p : Pass Exact} {commands : List (Command Exact)} {rewritten : Rewritten Exact}
    (written : p.rewrite commands = .ok rewritten)
    (positions : ∀ c ∈ commands, c.code? ≠ some .relativePositioning) :
    ∃ f, rewritten.report.floor = .real f ∧ Clears f Machine.powerOn rewritten.commands ∧
      Floor.ofCommands rewritten.commands = .ok (.real f) := by
  have made := admitted_of_rewrite written
  obtain ⟨usable, admitted, floor, lowest, blocks, cut, rfl⟩ := rewrite_eq_ok_iff.mp written
  obtain ⟨source, loops, last, chain⟩ := chain_of_blocks cut
  obtain ⟨f, finish, rfl, replayed, bounds⟩ := Floor.bounds_of_ofCommands lowest
  have upright := Command.upright_of_check admitted positions
  have down := Floor.reaches_of_ofCommands lowest
  rw [← source] at replayed bounds upright down
  have clears := chain.clears usable (.refl rfl) replayed bounds upright
  refine ⟨f, rfl, clears, Floor.ofCommands_of_reaches made clears.bounds (Floor.le_zero_of_ofCommands lowest) ?_⟩
  exact down.imp_right (chain.reaches usable (.refl rfl) (.refl _) replayed bounds upright)

end Seam
