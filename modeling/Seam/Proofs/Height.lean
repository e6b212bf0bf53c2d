import Seam.Proofs.Passage
import Seam.Proofs.Slip

/-!
Heights and the floor. The floor is a real below which the program never commands
the head to go (`Floor.bounds_of_ofCommands`), so it lifts no synthesized line that
is drawn at the height of the loop. The section is as long as the overlap, so the
ramp reaches the height of the loop along it (`Weave.exists_climb`). A section in
which no move stands still, or of which the cut move leaves a tail, therefore ends at
that height (`Woven.sag_eq_zero`).
-/
namespace Seam

/-- The section ends at the end of the ramp: no move of it stands still, or the
    cut move leaves a tail that is drawn behind it. -/
def Weave.Even (tuning : Tuning Exact) (segments : List (Segment Exact)) : Prop :=
  (cut tuning segments).tail ≠ none ∨ ∀ m ∈ Segment.moves (taperSection tuning segments), m.IsLong

/-- The section is at least as long as the overlap. -/
private theorem Weave.overlap_le_span {tuning : Tuning Exact} {segments : List (Segment Exact)} (usable : tuning.check = .ok ())
    (placed : Segment.Placed segments) :
    ∃ o, overlap tuning segments = .real o ∧ o ≤ Segment.span (taperSection tuning segments) := by
  obtain ⟨requested, _, _, real⟩ := overlap_eq usable placed
  refine ⟨_, real, ?_⟩
  rw [(refines_taperSection usable placed).span_eq]
  generalize least : min requested (Segment.span segments / 3) = o at real
  have third : o ≤ Segment.span segments := by
    have nonneg := placed.span_nonneg
    have bound : o ≤ Segment.span segments / 3 := least ▸ min_le_right ..
    linarith
  rw [cut, real, Cut.ofLength, Exact.zero_eq]
  rcases Cut.resume_cases o 0 placed with ⟨uncut, _⟩ | ⟨front, m, back, split, _, long, reached, cut⟩
  · rw [uncut]; exact third
  · have m_placed : m.Placed := (split ▸ placed).of_append.2.head
    rw [cut]
    simp only
    rw [Segment.span_append, Segment.span_cons, Segment.span_nil, add_zero, Segment.reach_move,
      m_placed.reach_upTo (le_max_left ..), min_eq_left ((div_le_one long.reach_pos).mpr (by linarith))]
    -- The cut move is cut at the fraction that is missing, or where it starts if the moves that stand still go too far.
    have part : (o - (0 + Segment.span front)) / m.reach * m.reach = o - (0 + Segment.span front) :=
      div_mul_cancel₀ _ long.reach_ne_zero
    have grows := mul_le_mul_of_nonneg_right (le_max_right 0 ((o - (0 + Segment.span front)) / m.reach)) long.reach_pos.le
    linarith

theorem Weave.exists_climb {tuning : Tuning Exact} {segments : List (Segment Exact)} (usable : tuning.check = .ok ())
    (placed : Segment.Placed segments) :
    ∃ o heights, overlap tuning segments = .real o ∧
      (steps tuning segments).filterMap Step.height? = heights.map .real ∧
        Ramp.Climbs o (taperSection tuning segments) heights := by
  obtain ⟨o, overlap, reached⟩ := overlap_le_span usable placed
  have section_placed := (refines_taperSection usable placed).placed
  exact ⟨o, _, overlap, by rw [steps, overlap, Ramp.heights_steps o section_placed], Ramp.climbs section_placed reached⟩

namespace Woven

variable {tuning : Tuning Exact} {floor : Exact} {run : Run Exact} {segments : List (Segment Exact)}

/-- The last stroke of a section without a tail is at the end of the ramp. -/
private theorem last_stroke (w : Woven tuning floor run segments) (whole : (Weave.cut tuning segments).tail = none)
    (long : ∀ m ∈ Segment.moves (Weave.taperSection tuning segments), m.IsLong) :
    Weave.strokes tuning floor segments = [] ∨ ∃ m : Move Exact, (Weave.strokes tuning floor segments).getLast? =
      some ⟨m, m.extrusion * .real 1, some (Weave.risingHeight tuning.layerHeight floor (.real 1) m.stop.z)⟩ := by
  obtain ⟨known, traced⟩ := Segment.traced_of_path w.path
  obtain ⟨o, heights, _, places, climbs⟩ := Weave.exists_climb w.usable (traced.placed known)
  have moving (m : Move Exact) : Step.still m ∉ Weave.steps tuning segments := fun mem =>
    w.proper _ mem (long m (List.mem_filterMap.mpr ⟨_, Weave.segment_mem_taperSection mem, rfl⟩))
  have strokes : Weave.strokes tuning floor segments = ((Weave.steps tuning segments).filterMap Step.ramped?).map
      fun (m, t) => ⟨m, m.extrusion * t, some (Weave.risingHeight tuning.layerHeight floor t m.stop.z)⟩ := by
    rw [Weave.strokes, whole, List.map_filterMap]
    refine (List.append_nil _).trans (List.filterMap_congr fun step mem => ?_)
    cases step with
    | other => rfl
    | still m => exact absurd mem (moving m)
    | ramped => rfl
  rw [strokes]
  cases last : ((Weave.steps tuning segments).filterMap Step.ramped?).getLast? with
  | none => exact .inl (by rw [List.getLast?_eq_none_iff.mp last]; rfl)
  | some final =>
    obtain ⟨m, t⟩ := final
    have top : (heights.map Exact.real).getLast? = some t := by
      rw [← places, show Step.height? (α := Exact) = fun step => step.ramped?.map Prod.snd from rfl, ← List.map_filterMap,
        List.getLast?_map, last]
      rfl
    rw [List.getLast?_map] at top
    obtain ⟨h, final, rfl⟩ := Option.map_eq_some_iff.mp top
    have whole : h = 1 := climbs.last (fun m mem => .inr (long m mem)) h final
    exact .inr ⟨m, by rw [List.getLast?_map, last, whole]; rfl⟩

/-- The last stroke of the starting taper does not end below what bounds the path. -/
private theorem le_stop_of_getLast? (w : Woven tuning floor run segments) {f : ℝ}
    (above : ∀ m, .move m ∈ segments → f ≤ m.stop.z.toReal) {s : Stroke Exact}
    (last : (Weave.strokes tuning floor segments).getLast? = some s) : f ≤ s.move.stop.z.toReal := by
  have stops := w.moves_strokes
  rw [last, Option.map_some, Segment.lastStop?] at stops
  obtain ⟨m, final, same⟩ := Option.map_eq_some_iff.mp stops.symm
  obtain ⟨p, mem, drawn⟩ := List.mem_filterMap.mp (List.mem_of_getLast? final)
  cases p with
  | other => cases drawn
  | move =>
    cases drawn
    rw [← same]
    exact above m (List.mem_of_mem_take mem)

/-- The last stroke of an even section ends at the height of the loop, or at the floor if that is higher. -/
private theorem height_of_getLast? (w : Woven tuning floor run segments) (even : Weave.Even tuning segments) {s : Stroke Exact}
    (last : (Weave.strokes tuning floor segments).getLast? = some s) {q : Point ℝ} (stop : s.move.stop = q.exact) :
    s.height = some (Scalar.max (.real q.z) floor) := by
  cases tail : (Weave.cut tuning segments).tail with
  | some m =>
    have bridge : s = ⟨m, m.extrusion, some (Scalar.max m.stop.z floor)⟩ := by
      rw [Weave.strokes, tail] at last
      exact (Option.some.inj ((List.getLast?_concat ..).symm.trans last)).symm
    have ends : m.stop = q.exact := by rw [bridge] at stop; exact stop
    rw [bridge, ends]
    rfl
  | none =>
    obtain ⟨l, _, layer⟩ := Tuning.layerHeight_of_check w.usable
    have long := even.resolve_left (not_not.mpr tail)
    rcases w.last_stroke tail long with none | ⟨m, final⟩
    · rw [none] at last; cases last
    · have top : s = ⟨m, m.extrusion * .real 1,
          some (Weave.risingHeight tuning.layerHeight floor (.real 1) m.stop.z)⟩ :=
        (Option.some.inj (final.symm.trans last)).symm
      have ends : m.stop = q.exact := by rw [top] at stop; exact stop
      have level : q.z - (1 - 1) * l = q.z := by ring
      rw [top, ends, layer]
      simp only [Weave.risingHeight, Point.exact, Exact.one_eq, Exact.real_sub, Exact.real_mul, level]

/-- The head meets the rest of a loop above the floor at the height of the loop if its section is even. -/
theorem sag_eq_zero (w : Woven tuning floor run segments) {f : ℝ} (lowest : floor = .real f)
    (above : ∀ m, .move m ∈ segments → f ≤ m.stop.z.toReal) (even : Weave.Even tuning segments) :
    Weave.sag tuning floor segments = 0 := by
  rw [Weave.sag]
  cases last : (Weave.strokes tuning floor segments).getLast? with
  | none => rfl
  | some s =>
    obtain ⟨⟨_, q, _, stop⟩, _⟩ := w.height_stroke ⟨f, lowest⟩ (List.mem_of_getLast? last)
    have bound : f ≤ q.z := by
      have le := w.le_stop_of_getLast? above last
      rwa [stop] at le
    show (s.height.getD s.move.stop.z).toReal - s.move.stop.z.toReal = 0
    rw [w.height_of_getLast? even last stop, stop, lowest, Exact.max_real, max_eq_left bound]
    exact sub_self q.z

end Woven

/-- The head is not below the bound, where its height counts for the floor. -/
def Machine.Above (f : ℝ) (m : Machine Exact) : Prop :=
  m.positioning = .absolute → m.positionKnown = true → ∃ z, m.physical.z = .real z ∧ f ≤ z

theorem Machine.Above.lower {f g : ℝ} {m : Machine Exact} (above : m.Above f) (le : g ≤ f) : m.Above g :=
  fun absolute known =>
    let ⟨z, height, bound⟩ := above absolute known
    ⟨z, height, le.trans bound⟩

private theorem Machine.above_powerOn (f : ℝ) :
    (powerOn : Machine Exact).Above f := fun _ known => absurd known Bool.false_ne_true

namespace Floor

private theorem lower_eq_ok {m : Machine Exact} {f : ℝ} {floor : Exact} (lowered : lower (.real f) m = .ok floor) :
    ∃ g, floor = .real g ∧ g ≤ f ∧ m.Above g := by
  unfold lower height? at lowered
  by_cases counts : (m.positioning = .absolute && m.positionKnown) = true
  · rw [if_pos counts] at lowered
    by_cases finite : Scalar.isFinite (m.position.z + m.offset.z) = true
    · obtain ⟨z, real⟩ := Exact.isFinite_iff.mp finite
      simp only [real, Exact.isFinite_real, ↓reduceIte, Except.ok.injEq] at lowered
      have least : floor = .real (min f z) := by
        rw [← lowered]
        simp only [Exact.real_lt]
        rcases lt_or_ge z f with less | le
        · rw [if_pos less, min_eq_right (le_of_lt less)]
        · rw [if_neg (not_lt.mpr le), min_eq_left le]
      exact ⟨min f z, least, min_le_left .., fun _ _ => ⟨z, real, min_le_right ..⟩⟩
    · simp only [if_neg finite] at lowered
      cases lowered
  · rw [if_neg counts] at lowered
    cases lowered
    exact ⟨f, rfl, le_refl f, fun absolute known => absurd (by simp [absolute, known]) counts⟩

/-- The head is nowhere below the bound on the way through the lines. -/
def Bounds (f : ℝ) (m : Machine Exact) (cs : List (Command Exact)) : Prop :=
  ∀ front here, front <+: cs → m.replay front = .ok here → here.Above f

theorem Bounds.front {f : ℝ} {m : Machine Exact} {cs ds : List (Command Exact)} (bounds : Bounds f m (cs ++ ds)) :
    Bounds f m cs :=
  fun front here began reached => bounds front here (began.trans (List.prefix_append cs ds)) reached

theorem Bounds.behind {f : ℝ} {m next : Machine Exact} {cs ds : List (Command Exact)} (bounds : Bounds f m (cs ++ ds))
    (replayed : m.replay cs = .ok next) : Bounds f next ds := by
  intro front here began reached
  exact bounds (cs ++ front) here ((List.prefix_append_right_inj cs).mpr began)
    (Machine.replay_append_eq_ok_iff.mpr ⟨next, replayed, reached⟩)

/-- The search gives a real, and the head is nowhere below it. -/
private theorem bounds_of_search {m last : Machine Exact} {f : ℝ} {floor : Exact} {cs : List (Command Exact)}
    (above : m.Above f) (searched : search m (.real f) cs = .ok (last, floor)) :
    ∃ g, floor = .real g ∧ g ≤ f ∧ Bounds g m cs := by
  induction cs generalizing m f with
  | nil =>
    cases searched
    refine ⟨f, rfl, le_refl f, fun front here began reached => ?_⟩
    rw [List.prefix_nil.mp began] at reached
    cases reached
    exact above
  | cons c cs ih =>
    obtain ⟨next, _, stepped, found, later⟩ := search_cons_eq_ok_iff.mp searched
    obtain ⟨f', rfl, le, next_above⟩ := lower_eq_ok found
    obtain ⟨g, lowest, least, bounds⟩ := ih next_above later
    refine ⟨g, lowest, least.trans le, fun front here began reached => ?_⟩
    cases front with
    | nil => cases reached; exact above.lower (least.trans le)
    | cons d front =>
      obtain ⟨rfl, shorter⟩ := List.cons_prefix_cons.mp began
      obtain ⟨next', again, rest⟩ := Machine.replay_cons_eq_ok_iff.mp reached
      cases stepped.symm.trans again
      exact bounds front here shorter rest

/-- The floor of a program is a real, and the head is nowhere below it. -/
theorem bounds_of_ofCommands {commands : List (Command Exact)} {floor : Exact} (lowest : ofCommands commands = .ok floor) :
    ∃ f last, floor = .real f ∧ Machine.powerOn.replay commands = .ok last ∧ Bounds f Machine.powerOn commands := by
  obtain ⟨last, searched⟩ := ofCommands_eq_ok_iff.mp lowest
  rw [Exact.zero_eq] at searched
  obtain ⟨f, real, _, bounds⟩ := bounds_of_search (Machine.above_powerOn 0) searched
  exact ⟨f, last, real, replay_of_search searched, bounds⟩

end Floor

end Seam
