import Seam.Proofs.Made
import Seam.Proofs.Reading
import Seam.Proofs.Totality

/-!
Numbers of the lines that are written. Where every number of a program is a real, the
machine that meets it counts and feeds by reals, and on a loop it knows where the head is
(`Machine.Certain`). What is made for such a machine gives reals again
(`Weave.numeric_moveTo`), so all numbers that are written are reals
(`Pass.numeric_of_rewrite`), and decimals in writing (`Command.Numeric.plain`).
-/
namespace Seam

private theorem Exact.IsReal.sub_real {x : Exact} (real : x.IsReal) (r : ℝ) : (x - .real r).IsReal := by
  obtain ⟨a, rfl⟩ := real
  exact ⟨a - r, real_sub ..⟩

/-- All numbers of the line are reals. -/
def Command.Numeric (c : Command Exact) : Prop := ∀ w ∈ c.words?, ∀ entry ∈ w.entries, entry.2.IsReal

/-- Filament and feed rate are counted in reals. -/
structure Machine.Metered (m : Machine Exact) : Prop where
  counted : m.Counted
  feedRate : ∀ rate ∈ m.feedRate, rate.IsReal

/-- Nothing about the machine is unknown. -/
structure Machine.Certain (m : Machine Exact) : Prop extends m.Metered where
  known : m.physicalKnown = true

/-- The moves of the path push a real amount of filament at a real rate, if any. -/
structure Segment.Metered (segments : List (Segment Exact)) : Prop where
  fed : Segment.Fed segments
  feedRate : ∀ m, .move m ∈ segments → ∀ rate ∈ m.feedRate, rate.IsReal

private theorem Words.get?_of_mem {α : Type} {w : Words α} (lettered : w.Lettered) {entry : Char × α}
    (mem : entry ∈ w.entries) :
    w.get? entry.1 = some entry.2 := by
  obtain ⟨front, back, split⟩ := List.append_of_mem mem
  rw [get?, toUpper_of_isUpper (lettered.upper entry mem), List.lookup_eq_some_iff]
  refine ⟨front, back, split, fun other before => bne_iff_ne.mpr fun same => ?_⟩
  have nodup := lettered.nodup
  rw [split, List.map_append, List.map_cons] at nodup
  exact (List.nodup_append.mp nodup).2.2 _ (List.mem_map_of_mem before) _ List.mem_cons_self same.symm

private theorem Words.mem_of_get? {α : Type} {w : Words α} {letter : Char} {v : α} (found : w.get? letter = some v) :
    (letter.toUpper, v) ∈ w.entries := by
  obtain ⟨front, back, split, _⟩ := List.lookup_eq_some_iff.mp found
  rw [split]
  exact List.mem_append_cons_self

namespace Command

variable {c : Command Exact}

theorem numeric_of_readLine {line : ℕ} {cs : List Char} (read : readLine line cs = .ok c) : c.Numeric := by
  rcases readLine_eq_ok_iff.mp read with ⟨text, _, rfl⟩ | ⟨_, rfl⟩ | ⟨_, _, _, words, _, _, _, given, rfl⟩
  · intro w none; cases none
  · intro w none; cases none
  · intro w same entry mem
    cases same
    exact isReal_of_readWords given (Words.get?_of_mem (lettered_of_readWords given) mem)

namespace Numeric

/-- A real is written as a decimal. -/
theorem plain (numeric : c.Numeric) : c.Plain := by
  intro w given entry mem
  obtain ⟨r, real⟩ := numeric w given entry mem
  rw [Words.numeral, real]
  show -(Words.places entry.1 : ℤ) ≤ 0
  omega

private theorem isReal_of_get? (numeric : c.Numeric) {w : Words Exact} (given : w ∈ c.words?) {letter : Char} {v : Exact}
    (found : w.get? letter = some v) : v.IsReal :=
  numeric w given _ (Words.mem_of_get? found)

theorem finite (numeric : c.Numeric) : c.Finite := by
  intro dial v given
  obtain ⟨w, words, found⟩ := Option.bind_eq_some_iff.mp given
  cases dial <;> exact numeric.isReal_of_get? words found

theorem feed (numeric : c.Numeric) : ∀ rate ∈ c.feed?, rate.IsReal := by
  intro rate given
  unfold feed? at given
  split at given
  · obtain ⟨w, words, found⟩ := Option.bind_eq_some_iff.mp given
    exact numeric.isReal_of_get? words found
  · cases given

end Numeric

end Command

namespace Machine

variable {m next last : Machine Exact} {c : Command Exact} {cs : List (Command Exact)}

private theorem metered_powerOn : (powerOn : Machine Exact).Metered where
  counted := ⟨⟨0, Exact.zero_eq⟩, ⟨0, Exact.zero_eq⟩⟩
  feedRate := by rintro rate ⟨⟩

theorem Metered.after (metered : m.Metered) (numeric : c.Numeric) (stepped : m.after c = .ok next) : next.Metered where
  counted := metered.counted.after numeric.finite.counted stepped
  feedRate rate given := by
    rw [after_feedRate stepped] at given
    rcases Option.or_eq_some_iff.mp given with fed | ⟨_, kept⟩
    · exact numeric.feed rate fed
    · exact metered.feedRate rate kept

theorem Metered.replay (metered : m.Metered) (numeric : ∀ c ∈ cs, c.Numeric) (replayed : m.replay cs = .ok last) :
    last.Metered := by
  induction cs generalizing m with
  | nil => cases replayed; exact metered
  | cons c cs ih =>
    obtain ⟨here, others⟩ := List.forall_mem_cons.mp numeric
    obtain ⟨next, stepped, rest⟩ := replay_cons_eq_ok_iff.mp replayed
    exact ih (metered.after here stepped) others rest

theorem Certain.after (certain : m.Certain) (sure : c.Sure) (numeric : c.Numeric) (stepped : m.after c = .ok next) :
    next.Certain where
  toMetered := certain.toMetered.after numeric stepped
  known := by
    obtain ⟨_, stepped', known⟩ := exists_after_of_sure certain.known sure
    cases stepped.symm.trans stepped'
    exact known

theorem Certain.replay (certain : m.Certain) (sure : ∀ c ∈ cs, c.Sure) (numeric : ∀ c ∈ cs, c.Numeric)
    (replayed : m.replay cs = .ok last) : last.Certain where
  toMetered := certain.toMetered.replay numeric replayed
  known := by
    obtain ⟨_, replayed', known⟩ := exists_replay_of_sure certain.known sure
    cases replayed.symm.trans replayed'
    exact known

end Machine

private theorem Traced.metered {height : Exact} {m last : Machine Exact} {cs : List (Command Exact)}
    {segments : List (Segment Exact)} (traced : Traced height m cs segments last) (metered : m.Metered)
    (numeric : ∀ c ∈ cs, c.Numeric) : Segment.Metered segments where
  fed := (traced.counted metered.counted fun c mem => (numeric c mem).finite.counted).1
  feedRate := by
    induction traced with
    | nil => intro move mem; cases mem
    | cons stepped drawn _ ih =>
      obtain ⟨here, others⟩ := List.forall_mem_cons.mp numeric
      have behind := metered.after here stepped
      intro move mem
      rcases List.mem_cons.mp mem with rfl | later
      · obtain ⟨_, _, ⟨_, _, same⟩ | ⟨_, _, same⟩⟩ := Segment.ofStep?_eq_some_iff.mp drawn
        · cases same
          exact behind.feedRate
        · cases same
      · exact ih behind others move later

private theorem Segment.Refines.metered {path fine : List (Segment Exact)} (refines : Refines path fine)
    (metered : Segment.Metered path) : Segment.Metered fine where
  fed := refines.fed metered.fed
  feedRate := by
    replace metered := metered.feedRate
    induction refines with
    | nil => exact metered
    | other _ ih =>
      intro m mem
      refine ih (fun m mem => metered m (List.mem_cons_of_mem _ mem)) m ?_
      exact (List.mem_cons.mp mem).resolve_left (by rintro ⟨⟩)
    | move divided _ ih =>
      intro m mem
      rcases List.mem_append.mp mem with here | later
      · obtain ⟨part, listed, same⟩ := List.mem_map.mp here
        cases same
        rw [divided.feedRate m listed]
        exact metered _ List.mem_cons_self
      · exact ih (fun m mem => metered m (List.mem_cons_of_mem _ mem)) m later

namespace Weave

variable {m last : Machine Exact} {tuning : Tuning Exact} {floor : Exact} {markers : Bool} {run : Run Exact}
  {segments : List (Segment Exact)} {commands : List (Command Exact)}

private theorem numeric_total {total : Exact} (real : total.IsReal) : ∀ c ∈ declareTotal m total, c.Numeric := by
  intro c mem
  unfold declareTotal at mem
  split at mem
  · cases List.mem_singleton.mp mem
    intro w given
    cases given
    simpa using real
  · cases mem

/-- A move to a real point is written in reals. -/
theorem numeric_moveTo {point : Point Exact} {share : Exact} {feedRate : Option Exact} {withHeight : Bool}
    (fixed : m.Fixed) (counted : m.Counted) (x : point.x.IsReal) (y : point.y.IsReal)
    (z : withHeight = true → point.z.IsReal) (pushed : share.IsReal) (fed : ∀ rate ∈ feedRate, rate.IsReal) :
    (moveTo m point share feedRate withHeight).Numeric := by
  obtain ⟨o, offset⟩ := fixed
  obtain ⟨e, extrusion⟩ := counted.1
  intro w given
  rw [words?_moveTo] at given
  cases given
  rw [offset, extrusion]
  simp only [List.forall_mem_append, List.forall_mem_cons]
  refine ⟨⟨⟨x.sub_real _, y.sub_real _, List.forall_mem_nil _⟩, ?_⟩, ?_, ?_⟩
  · cases withHeight with
    | false => exact List.forall_mem_nil _
    | true => exact List.forall_mem_cons.mpr ⟨(z rfl).sub_real _, List.forall_mem_nil _⟩
  · obtain ⟨s, rfl⟩ := pushed
    cases m.extrusionMode with
    | absolute => exact ⟨e + s, Exact.real_add ..⟩
    | relative => exact ⟨s, rfl⟩
  · cases feedRate with
    | none => exact List.forall_mem_nil _
    | some rate =>
      simp only
      split
      · exact List.forall_mem_nil _
      · exact List.forall_mem_cons.mpr ⟨fed rate rfl, List.forall_mem_nil _⟩

/-- The moves of the section push real amounts of filament at real rates. -/
private theorem metered_covered (usable : tuning.check = .ok ())
    (path : Segment.path? run.start run.commands = .ok (some segments)) (start : run.start.Metered)
    (numeric : ∀ c ∈ run.commands, c.Numeric) : Segment.Metered (cut tuning segments).covered := by
  obtain ⟨known, traced⟩ := Segment.traced_of_path path
  have whole := traced.metered start numeric
  refine (refines_cut usable (traced.placed known)).metered ⟨fun m mem => ?_, fun m mem => ?_⟩
  · exact whole.fed m (List.mem_of_mem_take mem)
  · exact whole.feedRate m (List.mem_of_mem_take mem)

private theorem metered_taperSection (usable : tuning.check = .ok ())
    (path : Segment.path? run.start run.commands = .ok (some segments)) (start : run.start.Metered)
    (numeric : ∀ c ∈ run.commands, c.Numeric) : Segment.Metered (taperSection tuning segments) := by
  obtain ⟨known, traced⟩ := Segment.traced_of_path path
  have covered := metered_covered usable path start numeric
  refine (refines_taperSection usable (traced.placed known)).metered ⟨fun m mem => ?_, fun m mem => ?_⟩
  · exact covered.fed m (List.mem_append_left _ mem)
  · exact covered.feedRate m (List.mem_append_left _ mem)

/-- A taper keeps the machine certain if every line of it does that is met by a certain machine. -/
private theorem certain_of_emit {line? : Machine Exact → Step Exact → Except (Fault Exact) (Option (Command Exact))}
    {steps : List (Step Exact)} (certain : m.Certain)
    (each : ∀ step ∈ steps, ∀ here : Machine Exact, here.Certain → ∀ c, line? here step = .ok (some c) → c.Sure ∧ c.Numeric)
    (emitted : emit line? m steps = .ok (commands, last)) : (∀ c ∈ commands, c.Numeric) ∧ last.Certain := by
  induction steps generalizing m commands with
  | nil => cases emitted; exact ⟨List.forall_mem_nil _, certain⟩
  | cons step steps ih =>
    obtain ⟨here, others⟩ := List.forall_mem_cons.mp each
    obtain ⟨_, later⟩ | ⟨c, next, rest, line, stepped, later, rfl⟩ := emit_cons_eq_ok_iff.mp emitted
    · exact ih certain others later
    · obtain ⟨sure, numeric⟩ := here m certain c line
      obtain ⟨behind, ends⟩ := ih (certain.after sure numeric stepped) others later
      exact ⟨List.forall_mem_cons.mpr ⟨numeric, behind⟩, ends⟩

section
variable (usable : tuning.check = .ok ()) (path : Segment.path? run.start run.commands = .ok (some segments))
  (start : run.start.Metered) (numeric : ∀ c ∈ run.commands, c.Numeric)

include usable path start numeric

/-- A step with a place on the ramp leads to a real point and pushes a real amount, and its place is a real. -/
private theorem exists_ramped {move : Move Exact} {t : Exact} (mem : .ramped move t ∈ Weave.steps tuning segments) :
    ∃ (q : Point ℝ) (e h : ℝ), move.stop = q.exact ∧ move.extrusion = .real e ∧ t = .real h := by
  obtain ⟨_, q, _, stop⟩ := placed_of_step usable path mem rfl
  obtain ⟨known, traced⟩ := Segment.traced_of_path path
  obtain ⟨_, h, _, _, height⟩ := proper_steps usable (traced.placed known) _ mem
  obtain ⟨e, extrusion⟩ := (metered_taperSection usable path start numeric).fed move (segment_mem_taperSection mem)
  exact ⟨q, e, h, stop, extrusion, height⟩

private theorem numeric_rising (bounded : floor.IsReal) (certain : m.Certain) {step : Step Exact}
    (mem : step ∈ Weave.steps tuning segments) : (rising tuning.layerHeight floor m step).Numeric := by
  have fixed := Machine.fixed_of_physicalKnown certain.known
  have metered := metered_taperSection usable path start numeric
  have listed := segment_mem_taperSection mem
  cases step with
  | other c => exact numeric c (mem_of_other_step path mem)
  | still move =>
    obtain ⟨_, q, _, stop⟩ := placed_of_step usable path mem rfl
    rw [rising, stop]
    exact numeric_moveTo fixed certain.counted ⟨q.x, rfl⟩ ⟨q.y, rfl⟩ (fun _ => ⟨q.z, rfl⟩) (metered.fed move listed)
      (metered.feedRate move listed)
  | ramped move t =>
    obtain ⟨q, e, h, stop, extrusion, height⟩ := exists_ramped usable path start numeric mem
    rw [rising, stop, extrusion, height]
    exact numeric_moveTo fixed certain.counted ⟨q.x, rfl⟩ ⟨q.y, rfl⟩
      (fun _ => isReal_risingHeight usable bounded ⟨h, rfl⟩ q.z) ⟨e * h, Exact.real_mul ..⟩ (metered.feedRate move listed)

private theorem numeric_falling (certain : m.Certain) {step : Step Exact} (mem : step ∈ Weave.steps tuning segments)
    {c : Command Exact} (line : falling m step = .ok (some c)) : c.Numeric := by
  have metered := metered_taperSection usable path start numeric
  have listed := segment_mem_taperSection mem
  cases step with
  | other c => cases line; exact numeric c (mem_of_other_step path mem)
  | still => cases line
  | ramped move t =>
    obtain ⟨q, e, h, stop, extrusion, height⟩ := exists_ramped usable path start numeric mem
    obtain ⟨here, _, same⟩ := Except.map_eq_ok_iff.mp line
    cases same
    rw [stop, extrusion, height]
    refine numeric_moveTo (Machine.fixed_of_physicalKnown certain.known) certain.counted ⟨q.x, rfl⟩ ⟨q.y, rfl⟩ ?_ ?_
      (metered.feedRate move listed)
    · intro withHeight; cases withHeight
    · exact ⟨e * (1 - h), by rw [Exact.one_eq, Exact.real_sub, Exact.real_mul]⟩

/-- The lines between the tapers are written in reals. -/
private theorem numeric_joint (bounded : floor.IsReal) (certain : m.Certain) {total : Exact} (real : total.IsReal)
    {joining : List (Command Exact)} (joins : joint floor total (cut tuning segments).tail m = .ok joining) :
    ∀ c ∈ joining, c.Numeric := by
  have covered := metered_covered usable path start numeric
  have left {move : Move Exact} (mem : move ∈ (cut tuning segments).tail.toList) :
      .move move ∈ (cut tuning segments).covered := List.mem_append_right _ (List.mem_map_of_mem mem)
  have resumed : (resumption total (cut tuning segments).tail).IsReal := by
    cases cut_off : (cut tuning segments).tail with
    | none => exact real
    | some move =>
      obtain ⟨e, extrusion⟩ := covered.fed move (left (by rw [cut_off]; exact List.mem_singleton_self _))
      rw [resumption, Option.elim_some, extrusion]
      exact real.sub_real e
  rw [joint_eq_ok_iff.mp joins]
  refine List.forall_mem_append.mpr ⟨numeric_total resumed, fun c mem => ?_⟩
  obtain ⟨move, cut_off, rfl⟩ := List.mem_map.mp mem
  obtain ⟨known, traced⟩ := Segment.traced_of_path path
  obtain ⟨_, q, _, stop⟩ := (refines_cut usable (traced.placed known)).placed move (left cut_off)
  obtain ⟨f, rfl⟩ := bounded
  have fixed : (declared m (resumption total (cut tuning segments).tail)).Fixed := by
    rw [Machine.Fixed, (declared_frame m _).2.1]
    exact Machine.fixed_of_physicalKnown certain.known
  rw [tailLine, stop]
  exact numeric_moveTo fixed (counted_declared certain.counted resumed) ⟨q.x, rfl⟩ ⟨q.y, rfl⟩
    (fun _ => ⟨max q.z f, Exact.max_real ..⟩) (covered.fed move (left cut_off)) (covered.feedRate move (left cut_off))

/-- A tapered loop is written in reals where the loop is. -/
private theorem numeric_of_tapered (bounded : floor.IsReal)
    (woven : weave tuning floor markers run segments = .ok (.tapered commands)) : ∀ c ∈ commands, c.Numeric := by
  obtain ⟨known, traced⟩ := Segment.traced_of_path path
  have sure := traced.sure
  obtain ⟨starting, risen, boundary, joining, joined, ending, fallen, _, rises, replayed, joins, followed, falls, rfl⟩ :=
    weave_eq_tapered_iff.mp woven
  have certain : run.start.Certain := ⟨start, known⟩
  obtain ⟨rising_numeric, risen_certain⟩ := certain_of_emit certain (fun step mem here certain c line => by
    cases line
    exact ⟨sure_rising usable bounded path certain.known mem, numeric_rising usable path start numeric bounded certain mem⟩) rises
  have boundary_metered : boundary.Metered := start.replay (fun c mem => numeric c (List.mem_of_mem_take mem)) replayed
  have joint_numeric := numeric_joint usable path start numeric bounded risen_certain boundary_metered.counted.1 joins
  obtain ⟨_, joins', joint_sure⟩ := exists_joint usable bounded path risen_certain.known boundary.extrusion
  cases joins.symm.trans joins'
  have rest_numeric : ∀ c ∈ remainder tuning segments run, c.Numeric := fun c mem => numeric c (List.mem_of_mem_drop mem)
  have joined_certain := risen_certain.replay
    (List.forall_mem_append.mpr ⟨joint_sure, fun c mem => sure c (List.mem_of_mem_drop mem)⟩)
    (List.forall_mem_append.mpr ⟨joint_numeric, rest_numeric⟩) followed
  obtain ⟨falling_numeric, _⟩ := certain_of_emit joined_certain (fun step mem here certain c line => by
    obtain ⟨_, line', sure⟩ := sure_falling usable path certain.known mem
    cases line.symm.trans line'
    exact ⟨sure c rfl, numeric_falling usable path start numeric certain mem line⟩) falls
  have finish : run.finish.Metered := start.replay numeric run.replays
  have written : ∀ c ∈ starting ++ joining ++ remainder tuning segments run ++ ending ++
      declareTotal fallen run.finish.extrusion, c.Numeric := by
    simp only [List.forall_mem_append]
    exact ⟨⟨⟨⟨rising_numeric, joint_numeric⟩, rest_numeric⟩, falling_numeric⟩, numeric_total finish.counted.1⟩
  have marker (text : String) : (.comment text : Command Exact).Numeric := by rintro w ⟨⟩
  cases markers with
  | false => exact written
  | true =>
    refine List.forall_mem_cons.mpr ⟨marker _, List.forall_mem_append.mpr ⟨written, fun c mem => ?_⟩⟩
    exact List.mem_singleton.mp mem ▸ marker _

end

end Weave

private theorem Walk.numeric {p : Pass Exact} {floor : Exact} {m last : Machine Exact} {line : ℕ} {cs : List (Command Exact)}
    {blocks : List (Block Exact)} (walk : Walk p floor m line cs blocks last) (usable : p.tuning.check = .ok ())
    (bounded : floor.IsReal) (metered : m.Metered) (numeric : ∀ c ∈ cs, c.Numeric) :
    ∀ c ∈ blocks.flatMap Block.emitted, c.Numeric := by
  induction walk with
  | nil => exact List.forall_mem_nil _
  | @cons m next _ line b rest blocks slice replayed _ ih =>
    obtain ⟨here, others⟩ := List.forall_mem_append.mp numeric
    have emitted : ∀ c ∈ b.emitted, c.Numeric := by
      cases replaced : b.isReplaced with
      | false =>
        rw [Block.emitted_of_isUntouched (Block.isUntouched_of_not_isReplaced replaced)]
        exact here
      | true =>
        obtain ⟨run, segments, rfl, source, _, path, woven⟩ := slice.tapered replaced
        rw [← source] at path here
        exact Weave.numeric_of_tapered usable path metered here bounded woven
    rw [List.flatMap_cons]
    exact List.forall_mem_append.mpr ⟨emitted, ih (metered.replay emitted replayed) others⟩

/-- What is written for a program in reals is written in reals. -/
theorem Pass.numeric_of_rewrite {p : Pass Exact} {commands : List (Command Exact)} {rewritten : Rewritten Exact}
    (written : p.rewrite commands = .ok rewritten) (numeric : ∀ c ∈ commands, c.Numeric) :
    ∀ c ∈ rewritten.commands, c.Numeric := by
  obtain ⟨usable, admitted, floor, lowest, blocks, cut, rfl⟩ := rewrite_eq_ok_iff.mp written
  obtain ⟨f, lowest', _⟩ := exists_blocks usable admitted
  cases lowest.symm.trans lowest'
  obtain ⟨last, walk⟩ := blocks_eq_ok_iff.mp cut
  exact walk.numeric usable ⟨f, rfl⟩ Machine.metered_powerOn numeric

end Seam
