import Seam.Proofs.Depth

/-!
The floor of what is written. A line that is written and read does to every axis what it
did, with its number rounded (`Command.effect_of_echo`). So a machine that follows what is
read knows its position where the one does that follows what was written, and stands at the
rounded height (`Clears.exists_blurs`). Rounding never lets one height overtake another.
What is read therefore has the rounded floor, which may be below the floor
(`Pass.floor_of_rewriteText`, `Pass.not_floored`).
-/
namespace Seam

open Exact (roundTo)

namespace Exact

/-- The number as it is read where it is written for a letter. -/
noncomputable def reread (letter : Char) (v : Exact) : Exact := Scalar.ofNumeral (Words.numeral letter v)

@[simp] theorem reread_real (letter : Char) (r : ℝ) : reread letter (real r) = real (roundTo (Words.places letter) r) :=
  ofNumeral_numeral letter r

@[simp] theorem isReal_reread {letter : Char} {v : Exact} : (reread letter v).IsReal ↔ v.IsReal := by
  cases v with
  | real r => simp
  | infinite negative => cases negative <;> exact iff_of_false (by rintro ⟨_, ⟨⟩⟩) (by rintro ⟨_, ⟨⟩⟩)
  | undefined => exact iff_of_false (by rintro ⟨_, ⟨⟩⟩) (by rintro ⟨_, ⟨⟩⟩)

end Exact

namespace Effect

/-- The effect with its number read back. -/
noncomputable def reread (letter : Char) : Effect Exact → Effect Exact
  | keep => keep
  | reach value => reach (value.reread letter)
  | advance value => advance (value.reread letter)
  | lose => lose
  | home => home
  | declare value => declare (value.reread letter)

variable {e : Effect Exact} {g g' : Gauge Exact}

/-- A count is as well known for its number having been written and read. -/
private theorem isReal_reread {letter : Char} (known : g'.logical.IsReal ↔ g.logical.IsReal) :
    ((e.reread letter).apply g').logical.IsReal ↔ (e.apply g).logical.IsReal := by
  cases e with
  | keep => exact known
  | reach v => exact Exact.isReal_reread
  | advance v => exact Exact.isReal_add.trans ((and_congr known Exact.isReal_reread).trans Exact.isReal_add.symm)
  | lose => exact Iff.rfl
  | home => exact Iff.rfl
  | declare v => exact Exact.isReal_reread

/-- Where counts are not added up, one that is rounded stays so. -/
private theorem logical_reread {letter : Char} {places : ℕ} (written : Words.places letter = places)
    (still : ∀ v, e ≠ advance v)
    (blurred : ∀ r, g.logical = .real r → g'.logical = .real (roundTo places r)) {r : ℝ}
    (shown : (e.apply g).logical = .real r) : ((e.reread letter).apply g').logical = .real (roundTo places r) := by
  have number {v : Exact} (real : v = .real r) : v.reread letter = .real (roundTo places r) := by
    rw [real, Exact.reread_real, written]
  cases e with
  | keep => exact blurred r shown
  | reach v => exact number shown
  | advance v => exact absurd rfl (still v)
  | lose => cases shown
  | home =>
    have bed : r = 0 := Exact.real.inj (shown.symm.trans Exact.zero_eq)
    rw [bed, Exact.roundTo_zero]
    exact Exact.zero_eq
  | declare v => exact number shown

end Effect

namespace Command

variable {c c' : Command Exact}

private theorem code?_of_echo (echo : c.Echoes c') : c'.code? = c.code? := by
  rcases echo with rfl | rfl <;> simp

private theorem mode?_of_echo (echo : c.Echoes c') (dial : Dial) : c'.mode? dial = c.mode? dial := by
  cases dial <;> simp only [mode?, code?_of_echo echo]

private theorem words?_of_echo (echo : c.Echoes c') : c'.words? = c.words?.map Words.rounded := by
  rcases echo with rfl | rfl <;> simp

private theorem number?_of_echo (echo : c.Echoes c') (a : Axis) :
    c'.number? (.axis a) = (c.number? (.axis a)).map (Exact.reread a.letter) := by
  rw [number?, number?, words?_of_echo echo]
  cases c.words? with
  | none => rfl
  | some w =>
    have upper : a.letter.toUpper = a.letter := by cases a <;> rfl
    show w.rounded.get? a.letter = (w.get? a.letter).map _
    rw [Words.get?_rounded, upper]
    rfl

private theorem hasAxis_of_echo (echo : c.Echoes c') : c'.words?.any Words.hasAxis = c.words?.any Words.hasAxis := by
  rw [words?_of_echo echo]
  cases c.words? with
  | none => rfl
  | some w => simp [Words.hasAxis, Words.contains_rounded]

/-- A line that is read back does to an axis what it did when it was written, with its number rounded. -/
theorem effect_of_echo (echo : c.Echoes c') (mode : Mode) (a : Axis) :
    c'.effect mode (.axis a) = (c.effect mode (.axis a)).reread a.letter := by
  have driven : drive (c'.number? (.axis a)) mode = (drive (c.number? (.axis a)) mode).reread a.letter := by
    rw [number?_of_echo echo]
    cases mode <;> cases c.number? (.axis a) <;> simp [drive, Effect.reread]
  have homed : (c'.number? (.axis a)).isSome = (c.number? (.axis a)).isSome := by
    rw [number?_of_echo echo, Option.isSome_map]
  unfold effect
  rw [code?_of_echo echo, hasAxis_of_echo echo, homed]
  cases c.code? with
  | none => rfl
  | some code =>
    cases code
    case rapidMove | linearMove => exact driven
    case clockwiseArc | counterclockwiseArc => cases a <;> rfl
    case home => simp only; split <;> rfl
    case setPosition =>
      rw [number?_of_echo echo]
      cases c.number? (.axis a) <;> rfl
    case resetPosition => simp [Effect.reread]
    all_goals rfl

private theorem height_ne_advance (c : Command Exact) (v : Exact) : c.effect .absolute (.axis .z) ≠ .advance v := by
  rcases c.effect_height with kept | ⟨_, reached⟩ | homed | ⟨_, declared⟩
  · rw [kept]; rintro ⟨⟩
  · rw [reached]; rintro ⟨⟩
  · rw [homed]; rintro ⟨⟩
  · rw [declared]; rintro ⟨⟩

end Command

namespace Machine

/-- The second machine knows its position where the first does, and its height is the rounded one; coordinates are
    positions to both, and heights are counted from the bed. -/
structure Blurs (m m' : Machine Exact) : Prop where
  absolute : m.positioning = .absolute
  absolute' : m'.positioning = .absolute
  grounded : m.Grounded
  grounded' : m'.Grounded
  known : ∀ a, (m'.position.get a).IsReal ↔ (m.position.get a).IsReal
  height : ∀ z, m.position.z = .real z → m'.position.z = .real (roundTo 3 z)

namespace Blurs

variable {m m' next next' : Machine Exact} {c c' : Command Exact} {f z : ℝ}

private theorem refl_powerOn : Blurs powerOn powerOn where
  absolute := rfl
  absolute' := rfl
  grounded := grounded_powerOn
  grounded' := grounded_powerOn
  known _ := Iff.rfl
  height z known := by cases known

theorem positionKnown (blurs : Blurs m m') : m'.positionKnown = m.positionKnown := by
  rw [Bool.eq_iff_iff]
  simp only [Machine.positionKnown, Point.isKnown, Bool.and_eq_true, Exact.isFinite_iff]
  exact and_congr (and_congr (blurs.known .x) (blurs.known .y)) (blurs.known .z)

theorem physical (blurs : Blurs m m') (height : m.physical.z = .real z) : m'.physical.z = .real (roundTo 3 z) := by
  rw [blurs.grounded'.physical_z]
  exact blurs.height z (blurs.grounded.physical_z ▸ height)

theorem counts (blurs : Blurs m m') (counts : Floor.Counts m) : Floor.Counts m' :=
  ⟨blurs.absolute', blurs.positionKnown.trans counts.known⟩

/-- The second machine is above the rounded bound where the first is above the bound. -/
theorem above (blurs : Blurs m m') (above : m.Above f) : m'.Above (roundTo 3 f) := by
  intro _ known
  obtain ⟨z, height, le⟩ := above blurs.absolute (blurs.positionKnown ▸ known)
  exact ⟨roundTo 3 z, blurs.physical height, Exact.roundTo_mono 3 le⟩

theorem after (blurs : Blurs m m') (admitted : c.Admitted) (echo : c.Echoes c') (stepped : m.after c = .ok next)
    (stepped' : m'.after c' = .ok next') (absolute : next.positioning = .absolute) : Blurs next next' := by
  have mode : next.positioning = (c.mode? (.axis .z)).getD m.positioning := after_mode stepped (.axis .z)
  have mode' : next'.positioning = (c'.mode? (.axis .z)).getD m'.positioning := after_mode stepped' (.axis .z)
  have shown (a : Axis) : next.position.get a = ((c.effect .absolute (.axis a)).apply (m.gauge (.axis a))).logical := by
    rw [← blurs.absolute]
    exact congrArg Gauge.logical (after_gauge stepped (.axis a))
  have shown' (a : Axis) : next'.position.get a =
      (((c.effect .absolute (.axis a)).reread a.letter).apply (m'.gauge (.axis a))).logical := by
    rw [← Command.effect_of_echo echo, ← blurs.absolute']
    exact congrArg Gauge.logical (after_gauge stepped' (.axis a))
  refine ⟨absolute, ?_, blurs.grounded.after admitted.not_declares stepped,
    blurs.grounded'.after (admitted.of_echo echo).not_declares stepped', fun a => ?_, fun z height => ?_⟩
  · rw [blurs.absolute] at mode
    rw [mode', Command.mode?_of_echo echo, blurs.absolute', ← mode]
    exact absolute
  · rw [shown a, shown' a]
    exact Effect.isReal_reread (blurs.known a)
  · have here : next.position.z = _ := shown .z
    have here' : next'.position.z = _ := shown' .z
    rw [here] at height
    rw [here']
    exact Effect.logical_reread rfl c.height_ne_advance blurs.height height

end Blurs

end Machine

namespace Clears

variable {f z : ℝ} {m m' : Machine Exact} {cs cs' : List (Command Exact)}

/-- Behind as many lines the machine that follows what is read back stands where the other one does, but for rounding. -/
theorem exists_blurs (clears : Clears f m cs) (echoes : List.Forall₂ Command.Echoes cs cs')
    (admitted : ∀ c ∈ cs, c.Admitted) (blurs : m.Blurs m') (n : ℕ) :
    ∃ here here', m.replay (cs.take n) = .ok here ∧ m'.replay (cs'.take n) = .ok here' ∧ here.Blurs here' := by
  induction echoes generalizing m m' n with
  | nil => exact ⟨m, m', by simp, by simp, blurs⟩
  | @cons c c' cs cs' echo _ ih =>
    cases n with
    | zero => exact ⟨m, m', rfl, rfl, blurs⟩
    | succ n =>
      obtain ⟨fine, others⟩ := List.forall_mem_cons.mp admitted
      obtain ⟨next, stepped⟩ := Machine.after_isOk_iff.mpr fine.trusted
      obtain ⟨next', stepped'⟩ := Machine.after_isOk_iff.mpr (fine.of_echo echo).trusted
      have behind := clears.behind stepped
      -- what is safe commands positions, so no rounded numbers are added up
      have later := blurs.after fine echo stepped stepped' (behind [] next List.nil_prefix rfl).1
      obtain ⟨here, here', reached, reached', same⟩ := ih behind others later n
      exact ⟨here, here', Machine.replay_cons_eq_ok_iff.mpr ⟨next, stepped, reached⟩,
        Machine.replay_cons_eq_ok_iff.mpr ⟨next', stepped', reached'⟩, same⟩

/-- What is read back for lines that are safe above a bound is above the rounded bound. -/
private theorem bounds_of_echoes (clears : Clears f m cs) (echoes : List.Forall₂ Command.Echoes cs cs')
    (admitted : ∀ c ∈ cs, c.Admitted) (blurs : m.Blurs m') : Floor.Bounds (roundTo 3 f) m' cs' := by
  intro taken here' began reached'
  obtain ⟨here, there, reached, followed, same⟩ := clears.exists_blurs echoes admitted blurs taken.length
  rw [← List.prefix_iff_eq_take.mp began] at followed
  cases reached'.symm.trans followed
  exact same.above (clears _ here (List.take_prefix ..) reached).2

/-- What is read back for lines that come down to a height comes down to the rounded height. -/
private theorem reaches_of_echoes (clears : Clears f m cs) (echoes : List.Forall₂ Command.Echoes cs cs')
    (admitted : ∀ c ∈ cs, c.Admitted) (blurs : m.Blurs m') (reaches : Floor.Reaches z m cs) :
    Floor.Reaches (roundTo 3 z) m' cs' := by
  obtain ⟨taken, here, began, reached, counts, height⟩ := reaches
  obtain ⟨there, here', followed, reached', same⟩ := clears.exists_blurs echoes admitted blurs taken.length
  rw [← List.prefix_iff_eq_take.mp began] at followed
  cases reached.symm.trans followed
  exact ⟨_, here', List.take_prefix .., reached', same.counts counts, same.physical height⟩

end Clears

namespace Program

variable {m here : Machine Exact} {cs kept : List (Command Exact)}

/-- An empty line is nothing to the machine. -/
private theorem reached_append_empty : (∃ taken, taken <+: cs ++ [.verbatim ""] ∧ m.replay taken = .ok here) ↔
    ∃ taken, taken <+: cs ∧ m.replay taken = .ok here := by
  constructor
  · rintro ⟨taken, began, reached⟩
    rcases List.prefix_concat_iff.mp began with rfl | began
    · obtain ⟨mid, replayed, rest⟩ := Machine.replay_append_eq_ok_iff.mp reached
      cases rest
      exact ⟨cs, List.prefix_rfl, replayed⟩
    · exact ⟨taken, began, reached⟩
  · rintro ⟨taken, began, reached⟩
    exact ⟨taken, began.trans (List.prefix_append ..), reached⟩

private theorem reached_shown : (∃ taken, taken <+: shown cs ∧ m.replay taken = .ok here) ↔
    ∃ taken, taken <+: cs ∧ m.replay taken = .ok here := by
  unfold shown
  split
  · next none =>
    subst none
    exact @reached_append_empty m here []
  · exact Iff.rfl

/-- The machine comes by the same states where a last empty line is not read back. -/
private theorem reached_kept (all : shown cs = kept ∨ shown cs = kept ++ [.verbatim ""]) :
    (∃ taken, taken <+: kept ∧ m.replay taken = .ok here) ↔ ∃ taken, taken <+: cs ∧ m.replay taken = .ok here := by
  rw [← @reached_shown m here cs]
  rcases all with all | all
  · rw [all]
  · rw [all, reached_append_empty]

end Program

namespace Lane

private theorem lower_spot_of_neg {mode : Mode} {x z e o : ℝ} {extruded : Bool} (negative : z < 0) :
    Floor.lower 0 (spot mode x z e o extruded) = .ok (.real z) := by
  rw [Floor.lower, height?_spot, Exact.zero_eq]
  simp only [Exact.isFinite_real, ↓reduceIte, Exact.real_lt, if_pos negative]

variable {z : ℝ}

private theorem floor_lift (negative : z < 0) : Floor.ofCommands [home, lift z] = .ok (.real z) := by
  refine Except.bind_eq_ok_iff.mpr ⟨(spot .relative 0 z 0 0 false, .real z), ?_, rfl⟩
  rw [List.foldlM_cons]
  refine Except.bind_eq_ok_iff.mpr ⟨(spot .relative 0 0 0 0 false, 0), ?_, ?_⟩
  · exact Except.bind_eq_ok_iff.mpr ⟨_, after_home, Except.bind_eq_ok_iff.mpr ⟨_, lower_spot le_rfl, rfl⟩⟩
  · refine Except.bind_eq_ok_iff.mpr ⟨_, ?_, rfl⟩
    exact Except.bind_eq_ok_iff.mpr ⟨_, after_lift z, Except.bind_eq_ok_iff.mpr ⟨_, lower_spot_of_neg negative, rfl⟩⟩

/-- A program that only goes below the bed is written as it stands. -/
private theorem rewrite_lift (negative : z < 0) :
    ∃ rewritten, (⟨tuning 1, false⟩ : Pass Exact).rewrite [home, lift z] = .ok rewritten ∧
    rewritten.commands = [home, lift z] ∧ rewritten.report.floor = .real z := by
  have admitted : Admission.check [home, lift z] = .ok () := by
    simp [Admission.check, Admission.objection?, home, lift, Command.ofWords, Command.leadingToken?,
      Words.contains, Words.get?]
  have passes : Passage Machine.powerOn [⟨_, home, _⟩, ⟨_, lift z, _⟩] (spot .relative 0 z 0 0 false) :=
    .cons after_home (.cons (after_lift z) (.nil _))
  have blocks : (⟨tuning 1, false⟩ : Pass Exact).blocks (.real z) [home, lift z] = .ok [.single home, .single (lift z)] :=
    Pass.walk_of_silent passes (by simpa using ⟨rfl, wouldExtrude_lift z⟩)
  exact ⟨_, Pass.rewrite_eq_ok_iff.mpr ⟨check_tuning one_pos, admitted, _, floor_lift negative, _, blocks, rfl⟩, rfl, rfl⟩

private theorem parse_lift (text : String) (number : List Char) (d : Decimal)
    (lines : Program.numbered text = [(['G', '2', '8'], 1), ('G' :: '1' :: ' ' :: 'Z' :: number, 2)])
    (whole : Text.cutAt ';' ('G' :: '1' :: ' ' :: 'Z' :: number) = ('G' :: '1' :: ' ' :: 'Z' :: number, none) ∧
      Text.tokens ('G' :: '1' :: ' ' :: 'Z' :: number) = [['G', '1'], 'Z' :: number])
    (spelled : RawWord.ofToken? ('Z' :: number) = some ⟨'Z', some number⟩)
    (read : Numeral.read? number = some (.finite d)) :
    Program.parse text = .ok ⟨[home, lift d.value], LineEnding.detect text, text.toList.getLast? == some '\n'⟩ := by
  refine Program.parse_eq_ok_iff.mpr ⟨?_, rfl⟩
  rw [lines]
  have word := @Command.readWord_of_number Exact _ .linearMove 2 'Z' number _ spelled read
  refine .cons (Command.readLine_of_tokens ['G', '2', '8'] [] (by decide +kernel) (by decide +kernel) rfl) (.cons ?_ .nil)
  refine Command.readLine_of_tokens ['G', '1'] ['Z' :: number] whole (by decide +kernel) ?_
  simp only [Command.readWords, List.foldlM_cons, word]
  rfl

/-- The program that goes to a height between two thousandths. -/
private theorem parse_dip :
    Program.parse "G28\nG1 Z-0.0006\n" = .ok (⟨[home, lift (-6 / 10000)], .lf, true⟩ : Program Exact) := by
  have deep : Decimal.value ⟨true, 6, -4⟩ = -6 / 10000 := by norm_num [Decimal.value]
  have lf : LineEnding.detect "G28\nG1 Z-0.0006\n" = .lf := by decide +kernel
  have ends : ("G28\nG1 Z-0.0006\n".toList.getLast? == some '\n') = true := by decide +kernel
  have read := parse_lift "G28\nG1 Z-0.0006\n" ['-', '0', '.', '0', '0', '0', '6'] ⟨true, 6, -4⟩ (by decide +kernel)
    (by decide +kernel) (by decide +kernel) (by decide +kernel)
  rwa [deep, lf, ends] at read

private theorem numeral_dip : Words.numeral 'Z' (Exact.real (-6 / 10000)) = .finite ⟨true, 1, -3⟩ := by
  have three : Words.places 'Z' = 3 := rfl
  have none : ⌊(3 / 5 : ℝ)⌋₊ = 0 := Nat.floor_eq_zero.mpr (by norm_num)
  have up : Exact.nearest (|(-6 / 10000 : ℝ)| * 10 ^ Words.places 'Z') = 1 := by
    have scaled : |(-6 / 10000 : ℝ)| * 10 ^ Words.places 'Z' = 3 / 5 := by
      rw [three, abs_of_neg (by norm_num)]
      norm_num
    rw [scaled, Exact.nearest, none]
    norm_num
  have negative : decide ((-6 / 10000 : ℝ) < 0) = true := decide_eq_true (by norm_num)
  show Numeral.unsignedZero (.finite ⟨decide ((-6 / 10000 : ℝ) < 0), Exact.nearest _, _⟩) = _
  rw [up, negative]
  rfl

/-- The height is written as the thousandth below it. -/
private theorem rewriteText_dip : ∃ report, (⟨tuning 1, false⟩ : Pass Exact).rewriteText id "G28\nG1 Z-0.0006\n" =
    .ok ("G28\nG1 Z-0.001\n", report) ∧ report.floor = .real (-6 / 10000) := by
  obtain ⟨rewritten, passed, lines, lowest⟩ := @rewrite_lift (-6 / 10000) (by norm_num)
  refine ⟨rewritten.report, Pass.rewriteText_eq_ok_iff.mpr ⟨_, rewritten, parse_dip, passed, rfl, ?_⟩, lowest⟩
  have homed : home.render = "G28" := by decide +kernel
  have word : Command.wordText 'Z' (Exact.real (-6 / 10000)) = ['Z', '-', '0', '.', '0', '0', '1'] := by
    show 'Z' :: (Words.numeral 'Z' (Exact.real (-6 / 10000))).text = _
    rw [numeral_dip]
    decide +kernel
  have lifted : (lift (-6 / 10000)).render = "G1 Z-0.001" := by
    show String.ofList (['G', '1'] ++ ((' ' :: Command.wordText 'Z' (Exact.real (-6 / 10000))) ++ []) ++ []) = _
    rw [word]
    decide +kernel
  rw [lines, Program.renderCommands, List.map_cons, List.map_singleton, homed, lifted]
  decide +kernel

end Lane

namespace Pass

variable {p : Pass Exact}

/-- Of a text without displacements a text is written whose own floor is the one that is reported, rounded to thousandths.
    It is not below the one that is reported if and only if that is not lowered by rounding. -/
theorem floor_of_rewriteText {ending : LineEnding → LineEnding} {text written : String} {report : Report Exact}
    (rewrote : p.rewriteText ending text = .ok (written, report))
    (positions : ∀ program : Program Exact, Program.parse text = .ok program →
      ∀ c ∈ program.commands, c.code? ≠ some .relativePositioning) :
    ∃ f g : ℝ, ∃ program : Program Exact, report.floor = .real f ∧ Program.parse written = .ok program ∧
      Floor.ofCommands program.commands = .ok (.real g) ∧ g = roundTo 3 f ∧ |g - f| ≤ 1 / 2000 ∧
        (f ≤ g ↔ Int.fract (-f * 1000) < 1 / 2 ∨ Int.fract (-f * 1000) = 1 / 2 ∧ Even ⌊-f * 1000⌋) := by
  obtain ⟨program, rewritten, read, written, rfl, rfl⟩ := rewriteText_eq_ok_iff.mp rewrote
  obtain ⟨f, floor, clears, lowest⟩ := floored_of_rewrite written (positions program read)
  obtain ⟨kept, again, all, reread, echoes, admitted⟩ :=
    Program.parse_of_rewrite read written { program with lineEnding := ending program.lineEnding }
  have clears_kept : Clears f Machine.powerOn kept := fun taken here began reached => by
    obtain ⟨taken', began', reached'⟩ := (Program.reached_kept all).mp ⟨taken, began, reached⟩
    exact clears taken' here began' reached'
  have nonpos := Floor.le_zero_of_ofCommands lowest
  have down : f = 0 ∨ Floor.Reaches f Machine.powerOn kept := by
    refine (Floor.reaches_of_ofCommands lowest).imp_right fun ⟨taken, here, began, reached, down⟩ => ?_
    obtain ⟨taken', began', reached'⟩ := (Program.reached_kept all).mpr ⟨taken, began, reached⟩
    exact ⟨taken', here, began', reached', down⟩
  have rounded : Floor.ofCommands again.commands = .ok (.real (roundTo 3 f)) := by
    refine Floor.ofCommands_of_reaches (Command.Admitted.of_echoes echoes admitted)
      (clears_kept.bounds_of_echoes echoes admitted .refl_powerOn) ?_ ?_
    · exact (Exact.roundTo_mono 3 nonpos).trans_eq (Exact.roundTo_zero 3)
    · exact down.imp (by rintro rfl; exact Exact.roundTo_zero 3) (clears_kept.reaches_of_echoes echoes admitted .refl_powerOn)
  refine ⟨f, roundTo 3 f, again, floor, reread, rounded, rfl, ?_, ?_⟩
  · exact (Exact.abs_roundTo_sub_le 3 f).trans_eq (by norm_num)
  · rw [Exact.le_roundTo_iff nonpos]
    norm_num

/-- What is written for the shuttle stays on the bed when it is read back. -/
theorem floor_of_shuttle :
    ∃ written report, ∃ (program : Program Exact) (g : ℝ),
      (⟨Lane.tuning 1, true⟩ : Pass Exact).rewriteText id Lane.shuttleText = .ok (written, report) ∧
        (∀ program : Program Exact, Program.parse Lane.shuttleText = .ok program →
          ∀ c ∈ program.commands, c.code? ≠ some .relativePositioning) ∧
        report.scarfedLoops = 1 ∧ report.floor = .real 0 ∧ Program.parse written = .ok program ∧
          Floor.ofCommands program.commands = .ok (.real g) ∧ g = 0 := by
  obtain ⟨written, report, rewrote, tapered, bed⟩ := Lane.rewriteText_shuttleText id
  have positions : ∀ program : Program Exact, Program.parse Lane.shuttleText = .ok program →
      ∀ c ∈ program.commands, c.code? ≠ some .relativePositioning := by
    obtain ⟨shuttle, read, lines⟩ := Lane.parse_shuttleText
    intro program again
    cases read.symm.trans again
    simp [lines, Lane.home, Lane.draw, Lane.lift, Command.ofWords, Command.code?]
  obtain ⟨f, g, program, floor, reread, lowest, rounded, _⟩ := floor_of_rewriteText rewrote positions
  have zero : f = 0 := Exact.real.inj (floor.symm.trans bed)
  rw [zero, Exact.roundTo_zero] at rounded
  exact ⟨written, report, program, g, rewrote, positions, tapered, bed, reread, lowest, rounded⟩

/-- A height between two thousandths may be written below the floor. -/
theorem not_floored :
    ¬ ∀ (p : Pass Exact) (ending : LineEnding → LineEnding) (text written : String) (report : Report Exact) (f : ℝ),
      p.rewriteText ending text = .ok (written, report) →
        (∀ program : Program Exact, Program.parse text = .ok program →
          ∀ c ∈ program.commands, c.code? ≠ some .relativePositioning) → report.floor = .real f →
          ∃ (program : Program Exact) (g : ℝ), Program.parse written = .ok program ∧
            Floor.ofCommands program.commands = .ok (.real g) ∧ f ≤ g := by
  intro floored
  obtain ⟨report, rewrote, floor⟩ := Lane.rewriteText_dip
  obtain ⟨program, g, reread, lowest, le⟩ := floored _ id _ _ _ (-6 / 10000) rewrote (fun program read c mem => by
    cases Lane.parse_dip.symm.trans read
    simp only [List.mem_cons, List.not_mem_nil, or_false] at mem
    rcases mem with rfl | rfl <;> exact (by decide)) floor
  have deeper : Decimal.value ⟨true, 1, -3⟩ = -1 / 1000 := by norm_num [Decimal.value]
  have result := Lane.parse_lift "G28\nG1 Z-0.001\n" ['-', '0', '.', '0', '0', '1'] ⟨true, 1, -3⟩ (by decide +kernel)
    (by decide +kernel) (by decide +kernel) (by decide +kernel)
  rw [deeper] at result
  cases result.symm.trans reread
  have low := lowest.symm.trans (Lane.floor_lift (by norm_num))
  cases low
  norm_num at le

end Pass

end Seam
