import Seam.Proofs.Chart

/-!
What declarations leave alone. A declaration gives new names to counts and moves nothing
(`Command.Renames`, `Machine.renames_of_declares`): the filament pushed along a program is
what its motions add to the count, whatever is declared between them
(`Passage.exists_amounts`), and a straight line to the logical coordinates of a
point leads to that point, whatever was declared before (`Machine.physicalPosition_of_toLogical`).
-/
namespace Seam

def Transition.isMotion {α : Type} (t : Transition α) : Bool := t.line.isMotion

/-- By how much the line leads the count of filament on. -/
def Transition.counted {α : Type} [Scalar α] (t : Transition α) : α := t.after.extrusion - t.before.extrusion

namespace Command

variable {α : Type} [Scalar α]

/-- Is the line a declaration of counts? -/
def declares (c : Command α) : Bool := c.code? = some .setPosition || c.code? = some .resetPosition

/-- The line gives the counts that it declares new names, and nothing moves. -/
structure Renames (c : Command α) (before after : Machine α) : Prop where
  physical : after.physical = before.physical
  physicalExtrusion : after.physicalExtrusion = before.physicalExtrusion
  declared : ∀ dial v, c.declared? dial = some v → (after.gauge dial).logical = v
  undeclared : ∀ dial, c.declared? dial = none → after.gauge dial = before.gauge dial

private theorem effect_of_declares {c : Command α} (declares : c.declares = true) (mode : Mode) (dial : Dial) :
    c.effect mode dial = (c.declared? dial).elim .keep .declare := by
  cases c with
  | comment => cases declares
  | verbatim => cases declares
  | instruction i =>
    obtain ⟨code, words, _⟩ := i
    cases code
    case setPosition | resetPosition => cases dial <;> rfl
    all_goals cases declares

/-- What the line does to the count of filament: a motion drives it, and any other line declares it if at all. -/
private theorem effect_filament_of_isMotion {c : Command α} (mode : Mode) :
    c.effect mode .filament =
      if c.isMotion then drive (c.number? .filament) mode else (c.declared? .filament).elim .keep .declare := by
  cases c with
  | comment => rfl
  | verbatim => rfl
  | instruction i =>
    obtain ⟨code, words, _⟩ := i
    cases code <;> rfl

theorem Counted.declared? {c : Command Exact} {v : Exact} (given : c.Counted)
    (named : c.declared? .filament = some v) : v.IsReal := by
  unfold Command.declared? at named
  split at named
  · exact given v named
  · simp_all only [reduceCtorEq]
  · cases named

/-- What a line with reals declares is a real. -/
theorem Finite.declared? {c : Command Exact} {dial : Dial} {v : Exact} (finite : c.Finite)
    (named : c.declared? dial = some v) : v.IsReal := by
  unfold Command.declared? at named
  split at named
  · exact finite _ v named
  · cases named
    exact ⟨0, Exact.zero_eq⟩
  · cases named

end Command

namespace Reading

private theorem physical_gauge (r : Reading) : r.gauge.physical = .ofOption r.physical? := by
  obtain ⟨logical, offset⟩ := r
  cases logical <;> cases offset <;> rfl

/-- A new name for the place leaves it where it is, known or not. -/
private theorem physical?_declare (r : Reading) (value : ℝ) : (r.declare value).physical? = r.physical? := by
  obtain ⟨logical, offset⟩ := r
  cases logical with
  | none => rfl
  | some l =>
    cases offset with
    | none => rfl
    | some o => simp [declare, physical?]

/-- So does the machine's dial stay where it is, whether or not a name is given. -/
private theorem physical_declared (r : Reading) {named : Option Exact} (real : ∀ v, named = some v → v.IsReal) :
    ((named.elim .keep .declare : Effect Exact).apply r.gauge).physical = r.gauge.physical := by
  cases named with
  | none => rfl
  | some v =>
    obtain ⟨v, rfl⟩ := real v rfl
    show ((Effect.declare (Exact.real v)).apply r.gauge).physical = _
    rw [← gauge_declare, physical_gauge, physical_gauge, physical?_declare]

end Reading

/-- A line that neither moves the head nor homes it declares its position if it touches it at all. -/
private theorem Command.effect_axis_of_still {α : Type} [Scalar α] {c : Command α} (still : c.isMotion = false)
    (away : c.code? ≠ some .home) (mode : Mode) (a : Axis) :
    c.effect mode (.axis a) = (c.declared? (.axis a)).elim .keep .declare := by
  cases c with
  | comment => rfl
  | verbatim => rfl
  | instruction i =>
    obtain ⟨code, words, _⟩ := i
    cases code
    case rapidMove | linearMove | clockwiseArc | counterclockwiseArc => cases still
    case home => exact absurd rfl away
    all_goals rfl

/-- A dial that is known before and after it is declared has not moved. -/
private theorem Gauge.Known.physical_declared {g : Gauge Exact} {named : Option Exact} (known : g.Known)
    (still_known : ((named.elim .keep .declare : Effect Exact).apply g).Known) :
    ((named.elim .keep .declare : Effect Exact).apply g).physical = g.physical := by
  obtain ⟨⟨l, logical⟩, o, offset⟩ := known
  have shown : g = (Reading.mk (some l) (some o)).gauge := by
    cases g
    cases logical
    cases offset
    rfl
  rw [shown]
  refine Reading.physical_declared _ fun v given => ?_
  rw [given] at still_known
  exact still_known.1

theorem Machine.physical_eq_of_still {m next : Machine Exact} {c : Command Exact} (known : m.physicalKnown = true)
    (stepped : m.after c = .ok next) (still_known : next.physicalKnown = true) (still : c.isMotion = false)
    (away : c.code? ≠ some .home) : next.physical = m.physical := by
  refine Point.ext_get fun a => ?_
  have shown := after_gauge stepped (.axis a)
  have here := m.known_gauge_iff.mpr known a
  have there := next.known_gauge_iff.mpr still_known a
  rw [Command.effect_axis_of_still still away] at shown
  rw [shown] at there
  rw [get_physical, get_physical]
  exact (congrArg Gauge.physical shown).trans (here.physical_declared there)

namespace Machine

variable {m next last : Machine Exact} {c : Command Exact} {commands : List (Command Exact)}

private theorem Counted.exists_reading (counted : m.Counted) :
    ∃ e o : ℝ, m.gauge .filament = (Reading.mk (some e) (some o)).gauge := by
  obtain ⟨⟨e, count⟩, ⟨o, offset⟩⟩ := counted
  exact ⟨e, o, by rw [gauge, count, offset]; rfl⟩

theorem counted_powerOn : (powerOn : Machine Exact).Counted := ⟨⟨0, Exact.zero_eq⟩, ⟨0, Exact.zero_eq⟩⟩

/-- A machine that has been followed through a program shows on every dial what is known of it. -/
private theorem exists_reading_of_replay (finite : ∀ c ∈ commands, c.Finite) (reached : powerOn.replay commands = .ok m)
    (dial : Dial) : ∃ r : Reading, m.gauge dial = r.gauge := by
  cases dial with
  | filament =>
    have counted : m.Counted := counted_powerOn.replay (fun c mem => (finite c mem).counted) reached
    obtain ⟨e, o, shown⟩ := counted.exists_reading
    exact ⟨_, shown⟩
  | axis a =>
    rcases Chart.describes_powerOn.replay finite with ⟨_, refused, _⟩ | ⟨_, k, same, _, describes⟩
    · cases refused.symm.trans reached
    cases reached.symm.trans same
    exact ⟨_, describes.gauge a⟩

theorem renames_of_declares (shows : ∀ dial, ∃ r : Reading, m.gauge dial = r.gauge) (finite : c.Finite)
    (declares : c.declares = true) : ∃ next, m.after c = .ok next ∧ c.Renames m next := by
  have trusted : c.isUntrusted = false := Command.isUntrusted_of_code fun home => by
    simp [Command.declares, home] at declares
  obtain ⟨next, stepped⟩ := after_isOk_iff.mpr trusted
  have gauge (dial : Dial) :
      next.gauge dial = ((c.declared? dial).elim .keep .declare : Effect Exact).apply (m.gauge dial) := by
    rw [after_gauge stepped, Command.effect_of_declares declares]
  have physical (dial : Dial) : (next.gauge dial).physical = (m.gauge dial).physical := by
    obtain ⟨r, shown⟩ := shows dial
    rw [gauge, shown]
    exact r.physical_declared fun _ => finite.declared?
  refine ⟨next, stepped, ?_, physical .filament, fun dial v named => ?_, fun dial unnamed => ?_⟩
  · refine Point.ext_get fun a => ?_
    rw [get_physical, get_physical]
    exact physical (.axis a)
  · rw [gauge, named]
    rfl
  · rw [gauge, unnamed]
    rfl

/-- A straight line to the logical coordinates of a point leads to the point. -/
theorem physicalPosition_of_toLogical {p : Point ℝ} (absolute : m.positioning = .absolute)
    (fixed : ∀ a, (m.offset.get a).IsReal) (linear : c.isLinear = true)
    (aimed : ∀ a, c.number? (.axis a) = some ((m.toLogical p.exact).get a)) :
    ∃ next, m.after c = .ok next ∧ next.physicalPosition = .ok p.exact := by
  have trusted : c.isUntrusted = false := Command.isUntrusted_of_code fun home => by
    simp [Command.isLinear, home, Code.isLinear] at linear
  obtain ⟨next, stepped⟩ := after_isOk_iff.mpr trusted
  have real (a : Axis) : ∃ r, p.exact.get a = .real r := by cases a <;> exact ⟨_, rfl⟩
  have logical (a : Axis) : (m.toLogical p.exact).get a = p.exact.get a - m.offset.get a := by cases a <;> rfl
  have gauge (a : Axis) : next.gauge (.axis a) = ⟨p.exact.get a - m.offset.get a, m.offset.get a⟩ := by
    rw [after_gauge stepped, (Command.effect_of_isLinear linear _ _).2, aimed a, logical, mode, absolute]
    rfl
  have known : next.physicalKnown = true := next.known_gauge_iff.mp fun a => by
    obtain ⟨r, here⟩ := real a
    obtain ⟨o, offset⟩ := fixed a
    rw [gauge, here, offset, Exact.real_sub]
    exact ⟨⟨_, rfl⟩, ⟨_, rfl⟩⟩
  refine ⟨next, stepped, (next.physicalPosition_eq_ok_iff _).mpr ⟨known, Point.ext_get fun a => ?_⟩⟩
  obtain ⟨o, offset⟩ := fixed a
  obtain ⟨position, shift⟩ := Gauge.mk.inj (gauge a)
  rw [get_physical, position, shift, offset, Exact.sub_add_cancel]

end Machine

/-- What a line pushes is what it adds to the count if it is a motion, and nothing otherwise. -/
theorem Machine.Counted.exists_amount {t : Transition Exact} (counted : t.before.Counted) (given : t.line.Counted)
    (stepped : t.before.after t.line = .ok t.after) :
    ∃ amount : ℝ, t.after.physicalExtrusion = t.before.physicalExtrusion + .real amount ∧
      if t.isMotion then t.counted = .real amount else amount = 0 := by
  obtain ⟨e, o, here⟩ := counted.exists_reading
  obtain ⟨e', o', there⟩ := (counted.after given stepped).exists_reading
  have shown := Machine.after_gauge stepped .filament
  rw [Command.effect_filament_of_isMotion] at shown
  cases motion : t.line.isMotion with
  | true =>
    rw [motion, if_pos rfl, Machine.drive_apply, here, there] at shown
    have offset : o' = o := Exact.real.inj (congrArg Gauge.offset shown)
    have before : t.before.physicalExtrusion = .real (e + o) := congrArg Gauge.physical here
    have after : t.after.physicalExtrusion = .real (e' + o) := by
      rw [← offset]
      exact congrArg Gauge.physical there
    refine ⟨e' - e, ?_, ?_⟩
    · rw [before, after, Exact.real_add, Exact.real.injEq]
      ring
    · rw [Transition.isMotion, motion, if_pos rfl]
      have count : t.before.extrusion = .real e := congrArg Gauge.logical here
      have count' : t.after.extrusion = .real e' := congrArg Gauge.logical there
      rw [Transition.counted, count, count', Exact.real_sub]
  | false =>
    rw [motion, if_neg Bool.false_ne_true] at shown
    refine ⟨0, ?_, ?_⟩
    · show (t.after.gauge .filament).physical = _
      rw [shown, here, Reading.physical_declared _ fun _ => given.declared?, ← here, Exact.add_zero]
      rfl
    · rw [Transition.isMotion, motion, if_neg Bool.false_ne_true]

namespace Passage

variable {m last : Machine Exact} {ts : List (Transition Exact)}

/-- The motions of a program push what they add to the count, and nothing else pushes filament. -/
theorem exists_amounts (passes : Passage m ts last) (counted : m.Counted) (given : ∀ t ∈ ts, t.line.Counted) :
    ∃ amounts : List ℝ, (ts.filter Transition.isMotion).map Transition.counted = amounts.map .real ∧
      last.physicalExtrusion = m.physicalExtrusion + .real amounts.sum ∧
        ∀ t ∈ ts, t.isMotion = false → t.after.physicalExtrusion = t.before.physicalExtrusion := by
  induction passes with
  | nil m => exact ⟨[], rfl, by rw [List.sum_nil, Exact.add_zero], List.forall_mem_nil _⟩
  | @cons m next last c ts stepped rest ih =>
    obtain ⟨here, others⟩ := List.forall_mem_cons.mp given
    obtain ⟨amount, pushed, share⟩ := Machine.Counted.exists_amount (t := ⟨m, c, next⟩) counted here stepped
    obtain ⟨amounts, motions, total, still⟩ := ih (counted.after here stepped) others
    cases motion : Transition.isMotion ⟨m, c, next⟩ with
    | true =>
      rw [motion, if_pos rfl] at share
      refine ⟨amount :: amounts, ?_, ?_, List.forall_mem_cons.mpr ⟨fun other => ?_, still⟩⟩
      · rw [List.filter_cons_of_pos motion, List.map_cons, List.map_cons, share, motions]
      · rw [total, pushed, Exact.add_assoc, Exact.real_add, List.sum_cons]
      · cases motion.symm.trans other
    | false =>
      rw [motion, if_neg Bool.false_ne_true] at share
      rw [share, Exact.add_zero] at pushed
      refine ⟨amounts, ?_, by rw [total, pushed], List.forall_mem_cons.mpr ⟨fun _ => pushed, still⟩⟩
      rw [List.filter_cons_of_neg (Bool.eq_false_iff.mp motion), motions]

end Passage

theorem Machine.Counted.physicalExtrusion {m : Machine Exact} (counted : m.Counted) : m.physicalExtrusion.IsReal := by
  obtain ⟨⟨e, count⟩, ⟨o, offset⟩⟩ := counted
  exact ⟨e + o, by rw [Machine.physicalExtrusion, count, offset, Exact.real_add]⟩

/-- From every machine that a program leads to, and in every program that goes on from there: what is pushed is what the
    motions add to the count; a declaration renames counts and moves nothing; and a straight line to the logical
    coordinates of a point leads to the point, if coordinates are positions and the offset is known. -/
theorem Machine.resets_of_replay {commands : List (Command Exact)} {m : Machine Exact}
    (finite : ∀ c ∈ commands, c.Finite) (reached : powerOn.replay commands = .ok m) :
    (∀ more last, (∀ c ∈ more, c.Finite) → m.replay more = .ok last →
      ∃ ts, Passage m ts last ∧ ts.map (·.line) = more ∧ (last.physicalExtrusion - m.physicalExtrusion).IsReal ∧
        last.physicalExtrusion - m.physicalExtrusion =
          Scalar.sum ((ts.filter Transition.isMotion).map Transition.counted) ∧
        ∀ t ∈ ts, t.isMotion = false → t.after.physicalExtrusion = t.before.physicalExtrusion) ∧
    (∀ c, c.Finite → c.declares = true → ∃ next, m.after c = .ok next ∧ c.Renames m next) ∧
    ∀ c (p : Point ℝ), m.positioning = .absolute → (∀ a, (m.offset.get a).IsReal) → c.isLinear = true →
      (∀ a, c.number? (.axis a) = some ((m.toLogical p.exact).get a)) →
        ∃ next, m.after c = .ok next ∧ next.physicalPosition = .ok p.exact := by
  have counted : m.Counted := counted_powerOn.replay (fun c mem => (finite c mem).counted) reached
  refine ⟨fun more last finite' followed => ?_, fun c finite' declares => ?_, fun c p absolute fixed linear aimed => ?_⟩
  · obtain ⟨ts, passes, rfl⟩ := Passage.of_replay followed
    obtain ⟨amounts, motions, total, still⟩ :=
      passes.exists_amounts counted fun t mem => (finite' t.line (List.mem_map_of_mem mem)).counted
    obtain ⟨e, here⟩ := counted.physicalExtrusion
    have pushed : last.physicalExtrusion - m.physicalExtrusion = .real amounts.sum := by
      rw [total, here, Exact.real_add, Exact.real_sub, add_sub_cancel_left]
    exact ⟨ts, passes, rfl, ⟨_, pushed⟩, by rw [motions, Exact.sum_real, pushed], still⟩
  · exact renames_of_declares (exists_reading_of_replay finite reached) finite' declares
  · exact physicalPosition_of_toLogical absolute fixed linear aimed

/-- The line that declares how far along the lane the machine stands, and its count of filament. -/
noncomputable def Lane.rename (x e : ℝ) : Command Exact := .ofWords .setPosition ⟨[('X', .real x), ('E', .real e)]⟩

/-- The line to a point, by its logical coordinates. -/
noncomputable def Lane.aim (p : Point ℝ) : Command Exact :=
  .ofWords .linearMove ⟨[('X', .real p.x), ('Y', .real p.y), ('Z', .real p.z)]⟩

/-- A homed machine that is five ahead by name pushes what its motions say, can be renamed again, and is led to a point
    by the new names. -/
theorem Machine.resets_of_renamed_start :
    ∃ m last, powerOn.replay [Lane.home, Lane.rename 5 7] = .ok m ∧
      m.replay [Lane.draw 3 3, Lane.rename 5 7, Lane.draw 0 1] = .ok last ∧
      (∃ ts, Passage m ts last ∧ last.physicalExtrusion - m.physicalExtrusion =
        Scalar.sum ((ts.filter Transition.isMotion).map Transition.counted)) ∧
      (∃ next, m.after (Lane.rename 5 7) = .ok next ∧ (Lane.rename 5 7).Renames m next) ∧
      ∃ next, m.after (Lane.aim ⟨6, 2, 3⟩) = .ok next ∧ next.physicalPosition = .ok (Point.mk (1 : ℝ) 2 3).exact := by
  have rename_finite : (Lane.rename 5 7).Finite := Command.finite_of_entries (by simp)
  have draw_finite (x e : ℝ) : (Lane.draw x e).Finite := Command.finite_of_entries (by simp)
  have finite : ∀ c ∈ [Lane.home, Lane.rename 5 7], c.Finite := by
    simp only [List.forall_mem_cons]
    exact ⟨Command.finite_of_entries (by simp), rename_finite, List.forall_mem_nil _⟩
  have finite' : ∀ c ∈ [Lane.draw 3 3, Lane.rename 5 7, Lane.draw 0 1], c.Finite := by
    simp only [List.forall_mem_cons]
    exact ⟨draw_finite 3 3, rename_finite, draw_finite 0 1, List.forall_mem_nil _⟩
  obtain ⟨m, renamed⟩ : ∃ m, (Lane.spot .relative 0 0 0 0 false).after (Lane.rename 5 7) = .ok m := ⟨_, rfl⟩
  obtain ⟨last, followed⟩ : ∃ last, m.replay [Lane.draw 3 3, Lane.rename 5 7, Lane.draw 0 1] = .ok last := ⟨_, rfl⟩
  have reached := replay_cons_eq_ok_iff.mpr ⟨_, Lane.after_home, replay_cons_eq_ok_iff.mpr ⟨m, renamed, replay_nil m⟩⟩
  have offset (a : Axis) : m.offset.get a = .real (if a = .x then -5 else 0) := by
    rw [(Gauge.mk.inj (after_gauge renamed (.axis a))).2]
    cases a
    case x =>
      show Exact.real 0 - (Exact.real 5 - Exact.real 0) = _
      simp
    all_goals rfl
  have aimed (a : Axis) :
      (Lane.aim ⟨6, 2, 3⟩).number? (.axis a) = some ((m.toLogical (Point.mk (1 : ℝ) 2 3).exact).get a) := by
    have logical : (m.toLogical (Point.mk (1 : ℝ) 2 3).exact).get a =
        (Point.mk (1 : ℝ) 2 3).exact.get a - m.offset.get a := by cases a <;> rfl
    rw [logical, offset]
    cases a
    case x => show some (Exact.real 6) = some (Exact.real 1 - Exact.real _); norm_num
    case y => show some (Exact.real 2) = some (Exact.real 2 - Exact.real _); simp
    case z => show some (Exact.real 3) = some (Exact.real 3 - Exact.real _); simp
  obtain ⟨filament, renames, aims⟩ := resets_of_replay finite reached
  obtain ⟨ts, passes, _, _, pushed, _⟩ := filament _ last finite' followed
  exact ⟨m, last, reached, followed, ⟨ts, passes, pushed⟩, renames _ rename_finite rfl,
    aims _ _ (after_mode renamed (.axis .x)) (fun a => ⟨_, offset a⟩) rfl aimed⟩

end Seam
