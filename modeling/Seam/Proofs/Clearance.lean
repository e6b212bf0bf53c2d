import Seam.Proofs.Admitted
import Seam.Proofs.Trail

/-!
The head stays above the floor. The floor is taken from the machine that meets the
program, but the head follows what is written for it. That machine is shadowed by the
other one: on every axis the second is ahead by a lead, and its height is either the
same or a known one above the floor, which no line can spoil that commands positions
and leaves the name of the height alone (`Machine.Shadow`). Within a tapered loop the
heights come from the loop's own moves, or are lifted to the floor (`Woven.clears`).
-/
namespace Seam

namespace Machine

/-- Coordinates are positions, and where the head is known, it is not below the bound. -/
def Safe (f : ℝ) (m : Machine Exact) : Prop := m.positioning = .absolute ∧ m.Above f

/-- Coordinates are positions, and the height is known and not below the bound. -/
def Aloft (f : ℝ) (m : Machine Exact) : Prop := m.positioning = .absolute ∧ ∃ z, m.physical.z = .real z ∧ f ≤ z

variable {f : ℝ} {m next : Machine Exact}

private theorem Aloft.safe (aloft : m.Aloft f) : m.Safe f := ⟨aloft.1, fun _ _ => aloft.2⟩

private theorem Aloft.of_frame (aloft : m.Aloft f) (framed : m.Framed next) (height : next.physical.z = m.physical.z) :
    next.Aloft f :=
  ⟨framed.positioning.trans aloft.1, height ▸ aloft.2⟩

end Machine

/-- The machine is safe on its way through the lines. -/
def Clears (f : ℝ) (m : Machine Exact) (cs : List (Command Exact)) : Prop :=
  ∀ taken here, taken <+: cs → m.replay taken = .ok here → here.Safe f

namespace Clears

variable {f : ℝ} {m mid : Machine Exact} {cs ds : List (Command Exact)}

theorem bounds (clears : Clears f m cs) : Floor.Bounds f m cs :=
  fun taken here began reached => (clears taken here began reached).2

theorem behind {c : Command Exact} (clears : Clears f m (c :: cs)) (stepped : m.after c = .ok mid) : Clears f mid cs :=
  fun taken here began reached => clears (c :: taken) here (List.cons_prefix_cons.mpr ⟨rfl, began⟩)
    (Machine.replay_cons_eq_ok_iff.mpr ⟨mid, stepped, reached⟩)

theorem append (front : Clears f m cs) (replayed : m.replay cs = .ok mid) (back : Clears f mid ds) :
    Clears f m (cs ++ ds) := by
  intro taken here began reached
  rcases List.prefix_or_prefix_of_prefix began (List.prefix_append cs ds) with short | ⟨more, rfl⟩
  · exact front taken here short reached
  · obtain ⟨mid', first, rest⟩ := Machine.replay_append_eq_ok_iff.mp reached
    cases replayed.symm.trans first
    exact back more here ((List.prefix_append_right_inj cs).mp began) rest

private theorem of_passage {ts : List (Transition Exact)} {last : Machine Exact} (passes : Passage m ts last) (start : m.Safe f)
    (safe : ∀ t ∈ ts, t.after.Safe f) : Clears f m (ts.map (·.line)) := by
  induction passes with
  | nil m =>
    intro taken here began reached
    rw [List.prefix_nil.mp began] at reached
    cases reached
    exact start
  | @cons m next last c ts stepped rest ih =>
    obtain ⟨here, others⟩ := List.forall_mem_cons.mp safe
    intro taken there began reached
    cases taken with
    | nil => cases reached; exact start
    | cons d taken =>
      obtain ⟨rfl, shorter⟩ := List.cons_prefix_cons.mp began
      obtain ⟨next', again, later⟩ := Machine.replay_cons_eq_ok_iff.mp reached
      cases stepped.symm.trans again
      exact ih here others taken there shorter later

end Clears

/-- The line commands positions and leaves the name of the height alone. -/
structure Command.Upright (c : Command Exact) : Prop where
  undeclared : ¬ c.Declares (.axis .z)
  positions : c.code? ≠ some .relativePositioning

theorem Command.upright_of_check {commands : List (Command Exact)} (admitted : Admission.check commands = .ok ())
    (positions : ∀ c ∈ commands, c.code? ≠ some .relativePositioning) : ∀ c ∈ commands, c.Upright :=
  fun c mem => ⟨(Admission.check_eq_ok_iff.mp admitted c mem).not_declares, positions c mem⟩

/-- Where coordinates are positions, the height is never advanced or lost. -/
theorem Command.effect_height (c : Command Exact) :
    c.effect .absolute (.axis .z) = .keep ∨ (∃ v, c.effect .absolute (.axis .z) = .reach v) ∨
      c.effect .absolute (.axis .z) = .home ∨ ∃ v, c.effect .absolute (.axis .z) = .declare v := by
  unfold effect
  cases c.code? with
  | none => exact .inl rfl
  | some code =>
    cases code
    case rapidMove | linearMove =>
      cases c.number? (.axis .z) with
      | none => exact .inl rfl
      | some v => exact .inr (.inl ⟨v, rfl⟩)
    case home =>
      simp only
      split
      · exact .inr (.inr (.inl rfl))
      · exact .inl rfl
    case setPosition =>
      cases c.number? (.axis .z) with
      | none => exact .inl rfl
      | some v => exact .inr (.inr (.inr ⟨v, rfl⟩))
    case resetPosition => exact .inr (.inr (.inr ⟨0, rfl⟩))
    all_goals exact .inl rfl

namespace Machine

variable {f : ℝ} {here here' there there' : Machine Exact} {c : Command Exact} {cs : List (Command Exact)}

private theorem absolute_after (absolute : here.positioning = .absolute) (positions : c.code? ≠ some .relativePositioning)
    (stepped : here.after c = .ok here') : here'.positioning = .absolute := by
  have mode : here'.positioning = (c.mode? (.axis .z)).getD here.positioning := after_mode stepped (.axis .z)
  rw [mode, absolute, Command.mode?]
  split
  · rfl
  · next relative => exact absurd relative positions
  · rfl

/-- The second machine is ahead of the first by some lead on every axis, and its height is the same, or known and not
    below the bound. -/
structure Shadow (f : ℝ) (here there : Machine Exact) : Prop where
  absolute : here.positioning = .absolute
  ahead : ∀ a, ∃ l, Ahead (.axis a) l here there
  offset : there.offset.z = here.offset.z
  height : there.position.z = here.position.z ∨ ∃ z, there.physical.z = .real z ∧ f ≤ z

namespace Shadow

theorem refl (absolute : here.positioning = .absolute) : Shadow f here here :=
  ⟨absolute, fun a => ⟨.zero, .refl here (.axis a)⟩, rfl, .inl rfl⟩

theorem physical_z (shadow : Shadow f here there) :
    there.physical.z = here.physical.z ∨ ∃ z, there.physical.z = .real z ∧ f ≤ z :=
  shadow.height.imp_left fun same => show there.position.z + there.offset.z = _ by rw [same, shadow.offset]; rfl

theorem absolute' (shadow : Shadow f here there) : there.positioning = .absolute := by
  obtain ⟨_, mode, _⟩ := shadow.ahead .z
  exact mode.trans shadow.absolute

/-- A machine whose height is known above the floor casts a shadow above it. -/
theorem aloft (shadow : Shadow f here there) (aloft : here.Aloft f) : there.Aloft f := by
  refine ⟨shadow.absolute', ?_⟩
  rcases shadow.physical_z with same | high
  · rw [same]
    exact aloft.2
  · exact high

private theorem safe (shadow : Shadow f here there) (above : here.Above f) : there.Safe f := by
  refine ⟨shadow.absolute', fun _ known => ?_⟩
  choose leads ahead using shadow.ahead
  have met := above shadow.absolute ((positionKnown_of_ahead ahead).mp known)
  exact (shadow.aloft ⟨shadow.absolute, met⟩).2

theorem after (shadow : Shadow f here there) (upright : c.Upright) (stepped : here.after c = .ok here')
    (followed : there.after c = .ok there') : Shadow f here' there' := by
  have reached : here'.gauge (.axis .z) = (c.effect .absolute (.axis .z)).apply (here.gauge (.axis .z)) := by
    rw [after_gauge stepped]
    exact congrArg (fun mode => (c.effect mode (.axis .z)).apply _) shadow.absolute
  have reached' : there'.gauge (.axis .z) = (c.effect .absolute (.axis .z)).apply (there.gauge (.axis .z)) := by
    rw [after_gauge followed]
    exact congrArg (fun mode => (c.effect mode (.axis .z)).apply _) shadow.absolute'
  suffices kept : there'.offset.z = here'.offset.z ∧
      (there'.position.z = here'.position.z ∨ ∃ z, there'.physical.z = .real z ∧ f ≤ z) by
    refine ⟨absolute_after shadow.absolute upright.positions stepped, fun a => ?_, kept.1, kept.2⟩
    obtain ⟨l, ahead⟩ := shadow.ahead a
    exact ⟨_, ahead.after stepped followed⟩
  rcases c.effect_height with keeps | ⟨v, reaches⟩ | homes | ⟨v, declares⟩
  · rw [keeps] at reached reached'
    have same : there'.gauge (.axis .z) = there.gauge (.axis .z) := reached'
    refine ⟨?_, ?_⟩
    · exact (congrArg Gauge.offset same).trans (shadow.offset.trans (congrArg Gauge.offset reached).symm)
    · refine shadow.height.imp (fun level => ?_) fun high => ?_
      · exact (congrArg Gauge.logical same).trans (level.trans (congrArg Gauge.logical reached).symm)
      · have height : there'.physical.z = there.physical.z := congrArg Gauge.physical same
        rwa [height]
  · rw [reaches] at reached reached'
    refine ⟨?_, .inl ?_⟩
    · exact (congrArg Gauge.offset reached').trans (shadow.offset.trans (congrArg Gauge.offset reached).symm)
    · exact (congrArg Gauge.logical reached').trans (congrArg Gauge.logical reached).symm
  · rw [homes] at reached reached'
    refine ⟨?_, .inl ?_⟩
    · exact (congrArg Gauge.offset reached').trans (congrArg Gauge.offset reached).symm
    · exact (congrArg Gauge.logical reached').trans (congrArg Gauge.logical reached).symm
  · exact absurd ⟨.absolute, v, declares⟩ upright.undeclared

theorem replay (shadow : Shadow f here there) (upright : ∀ c ∈ cs, c.Upright) (replayed : here.replay cs = .ok here')
    (followed : there.replay cs = .ok there') : Shadow f here' there' := by
  induction cs generalizing here there with
  | nil => cases replayed; cases followed; exact shadow
  | cons c cs ih =>
    obtain ⟨first, others⟩ := List.forall_mem_cons.mp upright
    obtain ⟨next, stepped, rest⟩ := replay_cons_eq_ok_iff.mp replayed
    obtain ⟨next', stepped', rest'⟩ := replay_cons_eq_ok_iff.mp followed
    exact ih (shadow.after first stepped stepped') others rest rest'

/-- Where the first machine is nowhere below the bound, the second one is safe. -/
theorem clears (shadow : Shadow f here there) (upright : ∀ c ∈ cs, c.Upright) (bounds : Floor.Bounds f here cs) :
    Clears f there cs := by
  intro taken mid' began reached
  obtain ⟨mid, source⟩ := exists_replay here reached
  have kept : ∀ c ∈ taken, c.Upright := fun c mem => upright c (began.mem mem)
  exact (shadow.replay kept source reached).safe (bounds taken mid began source)

end Shadow

end Machine

/-- The move goes from one known point to another, neither of them below the bound. -/
def Move.Aloft (f : ℝ) (m : Move Exact) : Prop :=
  ∃ p q : Point ℝ, m.start = p.exact ∧ m.stop = q.exact ∧ f ≤ p.z ∧ f ≤ q.z

/-- All moves of the path are above the bound. -/
def Segment.Aloft (f : ℝ) (segments : List (Segment Exact)) : Prop := ∀ m, .move m ∈ segments → m.Aloft f

private theorem Point.le_between {f t : ℝ} {p q : Point ℝ} (start : f ≤ p.z) (stop : f ≤ q.z) (nonneg : 0 ≤ t)
    (le_one : t ≤ 1) :
    f ≤ (p.between q t).z := by
  have parts : (p.between q t).z - f = (1 - t) * (p.z - f) + t * (q.z - f) := by
    simp only [between]
    ring
  have first : 0 ≤ (1 - t) * (p.z - f) := mul_nonneg (by linarith) (by linarith)
  have second : 0 ≤ t * (q.z - f) := mul_nonneg nonneg (by linarith)
  linarith

namespace Move.Aloft

variable {f : ℝ} {m : Move Exact}

theorem upTo (aloft : m.Aloft f) {t : ℝ} (nonneg : 0 ≤ t) (le_one : t ≤ 1) : (m.upTo (.real t)).Aloft f := by
  obtain ⟨p, q, start, stop, low, high⟩ := aloft
  refine ⟨p, p.between q t, start, ?_, low, Point.le_between low high nonneg le_one⟩
  rw [Move.upTo, start, stop, Point.along_exact]

theorem onFrom (aloft : m.Aloft f) {t : ℝ} (nonneg : 0 ≤ t) (le_one : t ≤ 1) : (m.onFrom (.real t)).Aloft f := by
  obtain ⟨p, q, start, stop, low, high⟩ := aloft
  refine ⟨p.between q t, q, ?_, stop, Point.le_between low high nonneg le_one, high⟩
  rw [Move.onFrom, start, stop, Point.along_exact]

theorem step (aloft : m.Aloft f) {n i : ℕ} (less : i < n) : (m.step n i).Aloft f := by
  obtain ⟨p, q, start, stop, low, high⟩ := aloft
  have positive : (0 : ℝ) < n := Nat.cast_pos.mpr (Nat.zero_lt_of_lt less)
  have whole {k : ℕ} (le : k ≤ n) : f ≤ (p.between q (k / n)).z :=
    Point.le_between low high (by positivity) ((div_le_one positive).mpr (Nat.cast_le.mpr le))
  have nonzero := ne_of_gt positive
  refine ⟨p.between q (i / n), p.between q ((i + 1 : ℕ) / n), ?_, ?_, whole less.le, whole less⟩
  · simp only [Move.step, start, stop, Exact.ofNat_eq, Exact.real_div nonzero, Point.along_exact]
  · simp only [Move.step, start, stop, Exact.ofNat_eq, Exact.real_div nonzero, Point.along_exact]

theorem placed (aloft : m.Aloft f) : m.Placed := by
  obtain ⟨p, q, start, stop, _⟩ := aloft
  exact ⟨p, q, start, stop⟩

end Move.Aloft

namespace Segment.Aloft

variable {f : ℝ} {segments : List (Segment Exact)}

theorem resample (aloft : Aloft f segments) {resolution : ℝ} (positive : 0 < resolution) :
    Aloft f (Segment.resample (.real resolution) segments) := by
  intro part mem
  obtain ⟨s, listed, within⟩ := List.mem_flatMap.mp mem
  cases s with
  | other c => cases List.mem_singleton.mp within
  | move m =>
    obtain ⟨step, mem, same⟩ := List.mem_map.mp within
    cases same
    have here := aloft m listed
    rcases here.placed.steps_cases positive with whole | ⟨n, steps⟩
    · rw [whole, List.mem_singleton] at mem
      rw [mem]
      exact here
    · rw [steps] at mem
      obtain ⟨i, less, rfl⟩ := List.mem_map.mp mem
      exact here.step (List.mem_range.mp less)

theorem covered (aloft : Aloft f segments) (length : ℝ) : Aloft f (Cut.ofLength (.real length) segments).covered := by
  have placed : Segment.Placed segments := fun m mem => (aloft m mem).placed
  rw [Cut.ofLength, Exact.zero_eq]
  rcases Cut.resume_cases length 0 placed with ⟨whole, _⟩ | ⟨front, m, back, split, _, _, _, cut⟩
  · simpa [whole, Cut.covered] using aloft
  · have here : m.Aloft f := aloft m (by rw [split]; exact List.mem_append_cons_self)
    have before : Aloft f front := fun m' mem => aloft m' (by rw [split]; exact List.mem_append_left _ mem)
    rw [cut]
    generalize fraction : max 0 (min ((length - (0 + Segment.span front)) / m.reach) 1) = t
    have nonneg : 0 ≤ t := fraction ▸ le_max_left ..
    have le_one : t ≤ 1 := fraction ▸ max_le zero_le_one (min_le_right ..)
    intro part mem
    rcases List.mem_append.mp mem with taper | tail
    · rcases List.mem_append.mp taper with early | last
      · exact before part early
      · cases List.mem_singleton.mp last
        exact here.upTo nonneg le_one
    · obtain ⟨left, listed, same⟩ := List.mem_map.mp tail
      cases same
      simp only [Option.mem_toList] at listed
      split at listed
      · cases listed
        exact here.onFrom nonneg le_one
      · cases listed

end Segment.Aloft

theorem Traced.aloft {f : ℝ} {height : Exact} {m last : Machine Exact} {cs : List (Command Exact)}
    {segments : List (Segment Exact)} (traced : Traced height m cs segments last) (known : m.physicalKnown = true)
    (clears : Clears f m cs) : Segment.Aloft f segments := by
  have spot {here : Machine Exact} (known : here.physicalKnown = true) (safe : here.Safe f) :
      ∃ p : Point ℝ, here.physical = p.exact ∧ f ≤ p.z := by
    obtain ⟨p, physical⟩ := Machine.exists_physical known
    obtain ⟨z, height, above⟩ := safe.2 safe.1 (Bool.and_eq_true_iff.mp known).1
    rw [physical] at height
    cases height
    exact ⟨p, physical, above⟩
  induction traced with
  | nil => intro move mem; cases mem
  | @cons m next _ c cs _ _ stepped drawn _ ih =>
    obtain ⟨_, reached, shape⟩ := Segment.ofStep?_eq_some_iff.mp drawn
    have behind := clears.behind stepped
    intro move mem
    rcases List.mem_cons.mp mem with here | later
    · rcases shape with ⟨_, _, same⟩ | ⟨_, _, same⟩
      · cases here.trans same
        obtain ⟨p, start, low⟩ := spot known (clears [] m List.nil_prefix rfl)
        obtain ⟨q, stop, high⟩ := spot reached (behind [] next List.nil_prefix rfl)
        exact ⟨p, q, start, stop, low, high⟩
      · cases here.trans same
    · exact ih reached behind move later

theorem Drawn.aloft {f : ℝ} {stroke? : Step Exact → Option (Stroke Exact)} {m last : Machine Exact}
    {steps : List (Step Exact)} {ts : List (Transition Exact)} (drawn : Drawn stroke? m steps ts last) (aloft : m.Aloft f)
    (high : ∀ s ∈ steps.filterMap stroke?, ∀ h, s.height = some h → ∃ z, h = .real z ∧ f ≤ z) :
    (∀ t ∈ ts, t.after.Aloft f) ∧ last.Aloft f := by
  induction drawn with
  | nil => exact ⟨List.forall_mem_nil _, aloft⟩
  | @other m next _ c _ _ repeated idle stepped _ ih =>
    rw [List.filterMap_cons_none repeated] at high
    have same := stepped
    rw [Machine.after_of_isIdle m idle, Except.ok.injEq] at same
    have here : next.Aloft f := aloft.of_frame (Machine.framed_of_isIdle idle stepped) (by rw [← same]; rfl)
    obtain ⟨all, last⟩ := ih here high
    exact ⟨List.forall_mem_cons.mpr ⟨here, all⟩, last⟩
  | @stroke m next _ c _ s _ _ drawn stepped draws _ ih =>
    rw [List.filterMap_cons_some drawn] at high
    obtain ⟨first, others⟩ := List.forall_mem_cons.mp high
    have framed := Machine.framed_of_isLinear draws.isLinear stepped
    have height : next.physical.z = s.height.getD m.physical.z := draws.z
    have here : next.Aloft f := by
      cases set : s.height with
      | none => exact aloft.of_frame framed (by rw [height, set]; rfl)
      | some h =>
        obtain ⟨z, rfl, above⟩ := first h set
        exact ⟨framed.positioning.trans aloft.1, z, by rw [height, set]; rfl, above⟩
    obtain ⟨all, last⟩ := ih here others
    exact ⟨List.forall_mem_cons.mpr ⟨here, all⟩, last⟩
  | skip omitted _ ih =>
    rw [List.filterMap_cons_none omitted] at high
    exact ih aloft high

namespace Weave

variable {f : ℝ} {m : Machine Exact}

private theorem aloft_declared (aloft : m.Aloft f) (total : Exact) :
    (∀ t ∈ declaration m total, t.after.Aloft f) ∧ (declared m total).Aloft f := by
  obtain ⟨position, offset, positioning, _⟩ := declared_frame m total
  have here : (declared m total).Aloft f := by
    refine ⟨positioning.trans aloft.1, ?_⟩
    rw [Machine.physical, position, offset]
    exact aloft.2
  refine ⟨fun t mem => ?_, here⟩
  obtain ⟨_, _, rfl⟩ := List.mem_map.mp mem
  exact here

private theorem aloft_marker (aloft : m.Aloft f) (markers : Bool) (text : String) :
    ∀ t ∈ marker markers m text, t.after.Aloft f := by
  intro t mem
  cases markers with
  | false => cases mem
  | true =>
    cases List.mem_singleton.mp mem
    exact aloft

private theorem covered_aloft {tuning : Tuning Exact} {segments : List (Segment Exact)} (usable : tuning.check = .ok ())
    (aloft : Segment.Aloft f segments) : Segment.Aloft f (cut tuning segments).covered := by
  obtain ⟨o, _, _, overlap⟩ := overlap_eq usable fun m mem => (aloft m mem).placed
  rw [cut, overlap]
  exact aloft.covered _

private theorem taperSection_aloft {tuning : Tuning Exact} {segments : List (Segment Exact)} (usable : tuning.check = .ok ())
    (aloft : Segment.Aloft f segments) : Segment.Aloft f (taperSection tuning segments) := by
  obtain ⟨r, positive, resolution⟩ := Tuning.taperResolution_of_check usable
  rw [taperSection, resolution]
  exact Segment.Aloft.resample (fun m mem => covered_aloft usable aloft m (List.mem_append_left _ mem)) positive

end Weave

namespace Woven

variable {tuning : Tuning Exact} {f : ℝ} {run : Run Exact} {segments : List (Segment Exact)}
  (w : Woven tuning (.real f) run segments)

include w

/-- A stroke before the rest of the loop is not drawn above the end of its move, and not below the bound. The starting
    taper is lifted to it. Where a move stands still it is not, but the loop has been there. -/
theorem height_between (aloft : Segment.Aloft f segments) {s : Stroke Exact}
    (mem : s ∈ Weave.strokes tuning (.real f) segments) :
    ∃ (q : Point ℝ) (h : ℝ), s.move.stop = q.exact ∧ s.height = some (.real h) ∧ f ≤ h ∧ h ≤ q.z := by
  rcases List.mem_append.mp mem with risen | bridge
  · obtain ⟨step, listed, drawn⟩ := List.mem_filterMap.mp risen
    have stops (m : Move Exact) (same : step.segment = .move m) : ∃ q : Point ℝ, m.stop = q.exact ∧ f ≤ q.z := by
      obtain ⟨_, q, _, stop, _, above⟩ :=
        Weave.taperSection_aloft w.usable aloft m (same ▸ Weave.segment_mem_taperSection listed)
      exact ⟨q, stop, above⟩
    cases step with
    | other => cases drawn
    | still m =>
      obtain ⟨q, stop, above⟩ := stops m rfl
      cases drawn
      exact ⟨q, q.z, stop, by rw [stop]; rfl, above, le_rfl⟩
    | ramped m t =>
      obtain ⟨q, stop, above⟩ := stops m rfl
      obtain ⟨l, positive, layer⟩ := Tuning.layerHeight_of_check w.usable
      obtain ⟨_, u, _, le_one, rfl⟩ := w.proper _ listed
      have lowered : 0 ≤ (1 - u) * l := mul_nonneg (by linarith) positive.le
      cases drawn
      refine ⟨q, max (q.z - (1 - u) * l) f, stop, ?_, le_max_right .., max_le (by linarith) above⟩
      rw [stop, layer]
      exact congrArg some (Weave.risingHeight_real l f u q.z)
  · obtain ⟨step, listed, drawn⟩ := List.mem_filterMap.mp bridge
    obtain ⟨m, tail, rfl⟩ := List.mem_map.mp listed
    cases drawn
    obtain ⟨_, q, _, stop, _, above⟩ :=
      Weave.covered_aloft w.usable aloft m (List.mem_append_right _ (List.mem_map_of_mem tail))
    refine ⟨q, max q.z f, stop, ?_, le_max_right .., max_le le_rfl above⟩
    show some (Scalar.max m.stop.z _) = _
    rw [stop]
    exact congrArg some (Exact.max_real ..)

theorem height_le (aloft : Segment.Aloft f segments) {s : Stroke Exact} (mem : s ∈ Weave.strokes tuning (.real f) segments)
    {h : Exact} (set : s.height = some h) : ∃ z, h = .real z ∧ f ≤ z := by
  obtain ⟨_, z, _, height, above, _⟩ := w.height_between aloft mem
  exact ⟨z, Option.some.inj (set.symm.trans height), above⟩

/-- What is written before the rest of the loop stays above the bound. -/
theorem clears_front (markers : Bool) (start : run.start.Aloft f) (aloft : Segment.Aloft f segments) :
    Clears f run.start ((w.front markers).map (·.line)) ∧ w.met.Aloft f := by
  have high (s : Stroke Exact) (mem : s ∈ Weave.strokes tuning (.real f) segments) (h : Exact) (set : s.height = some h) :=
    w.height_le aloft mem set
  obtain ⟨rising, risen⟩ := w.rises.aloft start fun s mem => high s (List.mem_append_left _ mem)
  obtain ⟨declaring, declared⟩ := Weave.aloft_declared risen w.total
  obtain ⟨bridging, met⟩ := w.bridges.aloft declared fun s mem => high s (List.mem_append_right _ mem)
  refine ⟨Clears.of_passage (w.passage_front markers) start.safe fun t mem => Machine.Aloft.safe ?_, met⟩
  rcases List.mem_append.mp mem with early | bridge
  · rcases List.mem_append.mp early with early | declaration
    · rcases List.mem_append.mp early with marker | taper
      · exact Weave.aloft_marker start markers _ t marker
      · exact rising t taper
    · exact declaring t declaration
  · exact bridging t bridge

/-- What is written behind the rest of the loop keeps the height. -/
private theorem clears_back (markers : Bool) (joined : w.joined.Aloft f) :
    Clears f w.joined ((w.back markers).map (·.line)) ∧ w.last.Aloft f := by
  have flat (s : Stroke Exact) (mem : s ∈ (Weave.steps tuning segments).filterMap Step.fall?) (h : Exact)
      (set : s.height = some h) : ∃ z, h = .real z ∧ f ≤ z := by
    obtain ⟨step, _, drawn⟩ := List.mem_filterMap.mp mem
    cases step <;> cases drawn
    cases set
  obtain ⟨falling, fallen⟩ := w.falls.aloft joined flat
  obtain ⟨closing, last⟩ := Weave.aloft_declared fallen run.finish.extrusion
  refine ⟨Clears.of_passage (w.passage_back markers) joined.safe fun t mem => Machine.Aloft.safe ?_, last⟩
  rcases List.mem_append.mp mem with early | marker
  · rcases List.mem_append.mp early with taper | declaration
    · exact falling t taper
    · exact closing t declaration
  · exact Weave.aloft_marker last markers _ t marker

/-- Behind the cut move the tapered loop is in the shadow of the loop as it was. -/
theorem shadow_met (absolute : run.start.positioning = .absolute) (upright : ∀ c ∈ run.commands, c.Upright)
    (met : w.met.Aloft f) : Machine.Shadow f w.boundary w.met := by
  have earlier : ∀ c ∈ run.commands.take (Weave.cut tuning segments).remainder, c.Upright :=
    fun c mem => upright c (List.mem_of_mem_take mem)
  have boundary := (Machine.Shadow.refl (f := f) absolute).replay earlier w.replayed w.replayed
  have height := w.ahead_met_height ⟨f, rfl⟩
  refine ⟨boundary.absolute, fun a => ?_, ?_, .inr met.2⟩
  · cases a with
    | x => exact ⟨_, w.level.x⟩
    | y => exact ⟨_, w.level.y⟩
    | z => exact ⟨_, height⟩
  · exact (congrArg Gauge.offset height.2).trans (Exact.add_zero _)

/-- A tapered loop is safe where the loop as it was is, and ends above the bound. -/
theorem clears (markers : Bool) (loop : Clears f run.start run.commands) (upright : ∀ c ∈ run.commands, c.Upright) :
    Clears f run.start ((w.front markers ++ w.rest ++ w.back markers).map (·.line)) ∧ w.last.Aloft f := by
  obtain ⟨known, traced⟩ := Segment.traced_of_path w.path
  have start := loop [] run.start List.nil_prefix rfl
  have start_aloft : run.start.Aloft f := ⟨start.1, start.2 start.1 (Bool.and_eq_true_iff.mp known).1⟩
  obtain ⟨front, met⟩ := w.clears_front markers start_aloft (traced.aloft known loop)
  have shadow := w.shadow_met start.1 upright met
  have later : ∀ c ∈ Weave.remainder tuning segments run, c.Upright := fun c mem => upright c (List.mem_of_mem_drop mem)
  have bounds : Floor.Bounds f w.boundary (Weave.remainder tuning segments run) := by
    have all := loop.bounds
    rw [← List.take_append_drop (Weave.cut tuning segments).remainder run.commands] at all
    exact all.behind w.replayed
  have rest : Clears f w.met (w.rest.map (·.line)) := by
    rw [w.rest_lines]
    exact shadow.clears later bounds
  have finish := loop run.commands run.finish (List.prefix_refl _) run.replays
  have finish_aloft : run.finish.Aloft f :=
    ⟨finish.1, finish.2 finish.1 (Bool.and_eq_true_iff.mp (traced.known_last known)).1⟩
  have joined : w.joined.Aloft f := by
    refine (shadow.replay later ?_ ?_).aloft finish_aloft
    · exact w.source_lines ▸ w.continued.replay
    · exact w.rest_lines ▸ w.follows.replay
  obtain ⟨back, last⟩ := w.clears_back markers joined
  refine ⟨?_, last⟩
  have followed := ((w.passage_front markers).append w.follows).replay
  rw [List.map_append] at followed
  rw [List.map_append, List.map_append]
  exact (front.append (w.passage_front markers).replay rest).append followed back

/-- The shadow of a machine behind the loop as it was falls on the one behind the tapered loop. -/
theorem shadow_last {here : Machine Exact} (shadow : Machine.Shadow f here run.finish)
    (upright : ∀ c ∈ run.commands, c.Upright) (aloft : w.last.Aloft f) : Machine.Shadow f here w.last := by
  refine ⟨shadow.absolute, fun a => ?_, ?_, .inr aloft.2⟩
  · obtain ⟨l, ahead⟩ := shadow.ahead a
    exact ⟨_, ahead.trans (w.ahead_last ⟨f, rfl⟩ a)⟩
  · have shifted := congrArg Gauge.offset (w.ahead_last ⟨f, rfl⟩ .z).2
    have flush : w.last.offset.z = run.finish.offset.z := by
      refine Eq.trans shifted ?_
      rw [Gauge.ahead, Weave.slip_offset fun c mem => (upright c mem).undeclared]
      exact Exact.add_zero _
    exact flush.trans shadow.offset

end Woven

/-- What is written for the blocks is safe where their lines are. -/
theorem Chain.clears {p : Pass Exact} {f : ℝ} {here finish there last : Machine Exact} {blocks : List (Block Exact)}
    {loops : List (Loop Exact)} (chain : Chain p (.real f) there blocks loops last) (usable : p.tuning.check = .ok ())
    (shadow : Machine.Shadow f here there) (replayed : here.replay (blocks.flatMap Block.source) = .ok finish)
    (bounds : Floor.Bounds f here (blocks.flatMap Block.source))
    (upright : ∀ c ∈ blocks.flatMap Block.source, c.Upright) :
    Clears f there (blocks.flatMap Block.emitted) := by
  induction chain generalizing here with
  | nil => exact shadow.clears upright bounds
  | @untouched _ next _ b _ _ kept followed _ ih =>
    rw [List.flatMap_cons] at replayed bounds upright ⊢
    obtain ⟨mid, source, rest⟩ := Machine.replay_append_eq_ok_iff.mp replayed
    obtain ⟨first, others⟩ := List.forall_mem_append.mp upright
    rw [Block.emitted_of_isUntouched kept]
    exact (shadow.clears first bounds.front).append followed
      (ih (shadow.replay first source followed) rest (bounds.behind source) others)
  | @tapered run segments line commands next _ _ _ _ path woven followed _ ih =>
    rw [List.flatMap_cons] at replayed bounds upright ⊢
    obtain ⟨mid, source, rest⟩ := Machine.replay_append_eq_ok_iff.mp replayed
    obtain ⟨first, others⟩ := List.forall_mem_append.mp upright
    have loop : Clears f run.start run.commands := shadow.clears first bounds.front
    obtain ⟨w, lines⟩ := Weave.exists_woven usable path woven
    obtain ⟨cleared, aloft⟩ := w.clears p.markers loop first
    rw [lines] at cleared
    cases (lines ▸ (w.passage p.markers).replay).symm.trans followed
    have kept := w.shadow_last (shadow.replay first source run.replays) first aloft
    exact cleared.append followed (ih kept rest (bounds.behind source) others)

/-- Wherever the head is known on its way through what is written for a program without displacements, it is not below
    the floor. -/
theorem Pass.cleared_of_rewrite {p : Pass Exact} {commands : List (Command Exact)} {rewritten : Rewritten Exact}
    (written : p.rewrite commands = .ok rewritten)
    (positions : ∀ c ∈ commands, c.code? ≠ some .relativePositioning) :
    ∃ f, rewritten.report.floor = .real f ∧ (∃ last, Machine.powerOn.replay rewritten.commands = .ok last) ∧
      ∀ taken m, taken <+: rewritten.commands → Machine.powerOn.replay taken = .ok m → m.physicalKnown = true →
        ∃ z, m.physical.z = .real z ∧ f ≤ z := by
  obtain ⟨usable, admitted, floor, lowest, blocks, cut, rfl⟩ := rewrite_eq_ok_iff.mp written
  obtain ⟨source, loops, last, chain⟩ := chain_of_blocks cut
  obtain ⟨f, finish, rfl, replayed, bounds⟩ := Floor.bounds_of_ofCommands lowest
  have upright := Command.upright_of_check admitted positions
  rw [← source] at replayed bounds upright
  have clears := chain.clears usable (.refl rfl) replayed bounds upright
  refine ⟨f, rfl, ⟨last, chain.replay⟩, fun taken m began reached known => ?_⟩
  obtain ⟨absolute, above⟩ := clears taken m began reached
  exact above absolute (Bool.and_eq_true_iff.mp known).1

/-- A shuttle along the bed is written above the bed. -/
theorem Pass.cleared_of_shuttle :
    (∀ c ∈ [Lane.home, Lane.draw 3 3, Lane.draw 0 3, Lane.lift 1], c.code? ≠ some .relativePositioning) ∧
      ∃ rewritten, (⟨Lane.tuning 1, true⟩ : Pass Exact).rewrite [Lane.home, Lane.draw 3 3, Lane.draw 0 3, Lane.lift 1] =
          .ok rewritten ∧ rewritten.report.floor = .real 0 ∧ rewritten.report.scarfedLoops = 1 ∧
        ∀ taken m, taken <+: rewritten.commands → Machine.powerOn.replay taken = .ok m → m.physicalKnown = true →
          ∃ z, m.physical.z = .real z ∧ 0 ≤ z := by
  have positions : ∀ c ∈ [Lane.home, Lane.draw 3 3, Lane.draw 0 3, Lane.lift 1],
      c.code? ≠ some .relativePositioning := by
    simp [Lane.home, Lane.draw, Lane.lift, Command.ofWords, Command.code?]
  obtain ⟨commands, _, lowest, cut, rewritten, written⟩ :=
    Lane.rewrite_shuttle (a := 3) (z := 1) (by norm_num) three_pos three_pos zero_le_one true
  obtain ⟨f, floor, _, high⟩ := cleared_of_rewrite written positions
  obtain ⟨_, _, _, lowest', _, cut', rfl⟩ := rewrite_eq_ok_iff.mp written
  cases lowest.symm.trans lowest'
  cases cut.symm.trans cut'
  have bed : f = 0 := Exact.real.inj (floor.symm.trans Exact.zero_eq)
  rw [bed] at high
  exact ⟨positions, _, written, Exact.zero_eq, rfl, high⟩

end Seam
