import Seam.Proofs.Slope

/-!
The longest run. A machine extrudes along lines if its flag is up behind each of them
(`Machine.Extrudes`), and the run that is taken is what lies before the first line that
takes the flag down (`Machine.extrudes_iff_prefix`, `Machine.exists_halt`). Only motions
set the flag, and each by itself (`Passage.extruded_last`), so behind any history it tells
whether the last motion pushed filament, and a run that starts with a motion is one along
which every motion does (`Machine.extrudes_iff_advances`). Declarations come between the
flag and what is pushed, as the flag looks at the count that they rename: in exact
arithmetic the two agree (`Machine.Counted.pushes_iff`).
-/
namespace Seam

section
variable {α : Type} [Scalar α] {m next last : Machine α} {c : Command α} {cs taken : List (Command α)}
  {ts : List (Transition α)}

namespace Machine

/-- The machine can follow the lines and is still extruding behind each of them. -/
def Extrudes (m : Machine α) (cs : List (Command α)) : Prop :=
  ∃ ts last, Passage m ts last ∧ ts.map (·.line) = cs ∧ ∀ t ∈ ts, t.after.extruded = true

/-- The machine can follow the lines, and the count is higher behind each motion among them than before. -/
def Advances (count : Machine α → α) (m : Machine α) (cs : List (Command α)) : Prop :=
  ∃ ts last, Passage m ts last ∧ ts.map (·.line) = cs ∧ ∀ t ∈ ts, t.isMotion = true → count t.before < count t.after

private theorem extrudes_nil (m : Machine α) : m.Extrudes [] := ⟨[], m, .nil m, rfl, List.forall_mem_nil _⟩

private theorem extrudes_cons_iff (stepped : m.after c = .ok next) :
    m.Extrudes (c :: cs) ↔ next.extruded = true ∧ next.Extrudes cs := by
  constructor
  · rintro ⟨ts, last, passes, lines, all⟩
    cases passes with
    | nil => cases lines
    | cons stepped' rest =>
      obtain ⟨rfl, rfl⟩ := List.cons.inj lines
      cases stepped.symm.trans stepped'
      obtain ⟨here, others⟩ := List.forall_mem_cons.mp all
      exact ⟨here, _, _, rest, rfl, others⟩
  · rintro ⟨here, ts, last, rest, rfl, others⟩
    exact ⟨_, last, .cons stepped rest, rfl, List.forall_mem_cons.mpr ⟨here, others⟩⟩

private theorem extruding_cons_eq_ok_iff :
    m.extruding (c :: cs) = .ok (taken, last) ↔ ∃ next, m.after c = .ok next ∧
      (next.extruded = true ∧ (∃ rest, next.extruding cs = .ok (rest, last) ∧ taken = c :: rest) ∨
        next.extruded = false ∧ taken = [] ∧ last = m) := by
  rw [extruding]
  cases stepped : m.after c with
  | error => simp
  | ok next =>
    cases flag : next.extruded with
    | false =>
      simp only [flag, Bool.false_eq_true, ↓reduceIte, Except.ok.injEq, Prod.mk.injEq, exists_eq_left', false_and,
        true_and, false_or, eq_comm]
    | true =>
      rcases continued : next.extruding cs with fault | ⟨rest, ends⟩ <;>
        simp only [flag, continued, ↓reduceIte, Except.ok.injEq, Prod.mk.injEq, exists_eq_left', reduceCtorEq, true_and,
          false_and, or_false, exists_false]
      grind

/-- The lines that are taken are the longest beginning along which the machine extrudes. -/
theorem extrudes_iff_prefix (run : m.extruding cs = .ok (taken, last)) {front : List (Command α)} (begins : front <+: cs) :
    m.Extrudes front ↔ front <+: taken := by
  induction cs generalizing m taken front with
  | nil =>
    cases List.prefix_nil.mp begins
    exact iff_of_true m.extrudes_nil List.nil_prefix
  | cons c cs ih =>
    cases front with
    | nil => exact iff_of_true m.extrudes_nil List.nil_prefix
    | cons d front =>
      obtain ⟨rfl, further⟩ := List.cons_prefix_cons.mp begins
      obtain ⟨next, stepped, ⟨up, rest, continued, rfl⟩ | ⟨down, rfl, _⟩⟩ := extruding_cons_eq_ok_iff.mp run
      · rw [extrudes_cons_iff stepped, List.cons_prefix_cons, ih continued further]
        simp only [up, true_and]
      · rw [extrudes_cons_iff stepped, down]
        exact iff_of_false (fun both => Bool.false_ne_true both.1) (by simp)

/-- The line behind those that are taken takes the flag down. -/
theorem exists_halt {rest : List (Command α)} (run : m.extruding (taken ++ c :: rest) = .ok (taken, last)) :
    ∃ next, last.after c = .ok next ∧ next.extruded = false := by
  induction taken generalizing m with
  | nil =>
    obtain ⟨next, stepped, ⟨_, _, _, none⟩ | ⟨down, _, rfl⟩⟩ := extruding_cons_eq_ok_iff.mp run
    · cases none
    · exact ⟨next, stepped, down⟩
  | cons d taken ih =>
    obtain ⟨next, _, ⟨_, more, continued, same⟩ | ⟨_, none, _⟩⟩ := extruding_cons_eq_ok_iff.mp run
    · obtain ⟨_, rfl⟩ := List.cons.inj same
      exact ih continued
    · cases none

end Machine

/-- The motion that the machine met last. -/
def Transition.lastMotion? (ts : List (Transition α)) : Option (Transition α) := (ts.filter isMotion).getLast?

omit [Scalar α] in
private theorem Transition.lastMotion?_cons (t : Transition α) (ts : List (Transition α)) :
    lastMotion? (t :: ts) = (lastMotion? ts).or (if t.isMotion then some t else none) := by
  rw [lastMotion?, ← List.singleton_append, List.filter_append, List.getLast?_append]
  cases motion : t.isMotion <;> simp [lastMotion?, motion]

omit [Scalar α] in
private theorem Transition.isMotion_of_lastMotion? {t : Transition α} (met : lastMotion? ts = some t) :
    t ∈ ts ∧ t.isMotion = true :=
  List.mem_filter.mp (List.mem_of_getLast? met)

/-- The flag is set by the last motion, by the count before and behind it. -/
theorem Passage.extruded_last (passes : Passage m ts last) :
    last.extruded = (Transition.lastMotion? ts).elim m.extruded fun t => decide (t.before.extrusion < t.after.extrusion) := by
  induction passes with
  | nil => rfl
  | @cons m next _ c ts stepped _ ih =>
    have flag := Machine.after_extruded stepped
    rw [ih, Transition.lastMotion?_cons]
    cases met : Transition.lastMotion? ts with
    | some t => rfl
    | none =>
      rw [Option.none_or, Option.elim_none, flag]
      cases motion : c.isMotion <;> simp [Transition.isMotion, motion]

/-- Where the flag is up, it stays up exactly if each motion finds the count higher behind it than before. -/
private theorem Passage.extruding_iff (passes : Passage m ts last) (up : m.extruded = true) :
    (∀ t ∈ ts, t.after.extruded = true) ↔
      ∀ t ∈ ts, t.isMotion = true → t.before.extrusion < t.after.extrusion := by
  induction passes with
  | nil => simp
  | @cons m next _ c ts stepped _ ih =>
    have flag := Machine.after_extruded stepped
    have here : next.extruded = true ↔ (c.isMotion = true → m.extrusion < next.extrusion) := by
      rw [flag]
      cases motion : c.isMotion with
      | true => simp
      | false => simp [up]
    simp only [List.forall_mem_cons, Transition.isMotion]
    constructor
    · rintro ⟨raised, others⟩
      exact ⟨here.mp raised, (ih raised).mp others⟩
    · rintro ⟨grows, others⟩
      have raised := here.mpr grows
      exact ⟨raised, (ih raised).mpr others⟩

/-- Along lines that begin with a motion the machine extrudes exactly if each motion makes the count higher. -/
theorem Machine.extrudes_iff_advances (first : ∀ d, cs.head? = some d → d.isMotion = true) :
    m.Extrudes cs ↔ Advances (·.extrusion) m cs := by
  refine exists₂_congr fun ts last => and_congr_right fun passes => and_congr_right fun lines => ?_
  cases passes with
  | nil => simp
  | @cons _ next _ c ts stepped rest =>
    have motion : c.isMotion = true := first c (lines ▸ rfl)
    have flag := after_extruded stepped
    rw [motion, if_pos rfl] at flag
    simp only [List.forall_mem_cons, Transition.isMotion, motion, true_imp_iff, flag, decide_eq_true_eq]
    refine and_congr_right fun grows => rest.extruding_iff ?_
    rw [flag, decide_eq_true grows]

private theorem Machine.isMotion_of_wouldExtrude (would : m.wouldExtrude c = .ok true) : c.isMotion = true := by
  unfold wouldExtrude at would
  split at would
  · next motion => exact motion
  · cases would

/-- The run is the longest beginning of the lines along which its machine extrudes. -/
structure Run.IsLongest (run : Run α) (cs : List (Command α)) : Prop where
  nonempty : run.commands ≠ []
  begins : run.commands <+: cs
  /-- The machine extrudes along those beginnings of the lines that the run has for a beginning, and no others. -/
  longest : ∀ front, front <+: cs → (run.start.Extrudes front ↔ front <+: run.commands)
  /-- To extrude along lines is to raise the count at each motion among them, whatever stands between. -/
  advances : ∀ front, front <+: cs → (run.start.Extrudes front ↔ Machine.Advances (·.extrusion) run.start front)
  finish : run.start.replay run.commands = .ok run.finish
  /-- The line behind the run is a motion that does not raise the count. -/
  halts : ∀ c rest, cs = run.commands ++ c :: rest → c.isMotion = true ∧
    ∃ next, run.finish.after c = .ok next ∧ ¬ run.finish.extrusion < next.extrusion

/-- Behind the last of some lines along which the flag is up, it is up. -/
private theorem Passage.extruded_of_forall (passes : Passage m ts last) (all : ∀ t ∈ ts, t.after.extruded = true)
    (nonempty : ts ≠ []) : last.extruded = true := by
  induction passes with
  | nil => exact absurd rfl nonempty
  | cons _ rest ih =>
    obtain ⟨here, others⟩ := List.forall_mem_cons.mp all
    cases rest with
    | nil => exact here
    | cons => exact ih others (List.cons_ne_nil _ _)

/-- A run that takes any line is the longest of its lines along which the machine extrudes. -/
private theorem Run.isLongest_of_extract {run : Run α} (extracted : Run.extract m (c :: cs) = .ok run)
    (would : m.wouldExtrude c = .ok true) : run.IsLongest (c :: cs) := by
  have motion := Machine.isMotion_of_wouldExtrude would
  have nonempty := commands_ne_nil would extracted
  obtain ⟨rfl, taken⟩ := extract_eq_ok_iff.mp extracted
  obtain ⟨ts, rest, passes, lines, split, all⟩ := Machine.extruding_passage taken
  have flag := passes.extruded_of_forall all fun none => nonempty (by rw [← lines, none, List.map_nil])
  refine ⟨nonempty, ⟨rest, split.symm⟩, fun front begins => Machine.extrudes_iff_prefix taken begins,
    fun front begins => Machine.extrudes_iff_advances ?_, run.replays, ?_⟩
  · intro d leads
    cases front with
    | nil => cases leads
    | cons e front =>
      obtain ⟨rfl, _⟩ := List.cons_prefix_cons.mp begins
      cases leads
      exact motion
  · intro d behind same
    rw [same] at taken
    obtain ⟨next, stepped, down⟩ := Machine.exists_halt taken
    have sets := Machine.after_extruded stepped
    rw [down, flag] at sets
    -- a line that is no motion would have left the flag up
    cases moves : d.isMotion with
    | false => rw [moves] at sets; cases sets
    | true =>
      rw [moves, if_pos rfl] at sets
      exact ⟨rfl, next, stepped, of_decide_eq_false sets.symm⟩

end

/-- A motion pushes filament exactly if the count is higher behind it, whatever the counts are called. -/
theorem Machine.Counted.pushes_iff {t : Transition Exact} (counted : t.before.Counted) (given : t.line.Counted)
    (stepped : t.before.after t.line = .ok t.after) (motion : t.isMotion = true) :
    t.before.extrusion < t.after.extrusion ↔ t.before.physicalExtrusion < t.after.physicalExtrusion := by
  obtain ⟨amount, pushed, share⟩ := counted.exists_amount given stepped
  obtain ⟨e, count⟩ := counted.1
  obtain ⟨e', count'⟩ := (counted.after given stepped).1
  obtain ⟨p, physical⟩ := counted.physicalExtrusion
  rw [motion, if_pos rfl, Transition.counted, count, count', Exact.real_sub, Exact.real.injEq] at share
  rw [pushed, physical, count, count', Exact.real_add, Exact.real_lt, Exact.real_lt, ← share]
  constructor <;> intro less <;> linarith

section
variable {m last : Machine Exact} {c : Command Exact} {cs : List (Command Exact)} {ts : List (Transition Exact)}

/-- The counts are reals all along the way. -/
private theorem Passage.counted_before (passes : Passage m ts last) (counted : m.Counted) (given : ∀ t ∈ ts, t.line.Counted) :
    ∀ t ∈ ts, t.before.Counted := by
  induction passes with
  | nil => exact List.forall_mem_nil _
  | cons stepped _ ih =>
    obtain ⟨here, others⟩ := List.forall_mem_cons.mp given
    exact List.forall_mem_cons.mpr ⟨counted, ih (counted.after here stepped) others⟩

theorem Passage.pushes_iff (passes : Passage m ts last) (counted : m.Counted) (given : ∀ t ∈ ts, t.line.Counted)
    {t : Transition Exact} (mem : t ∈ ts) (motion : t.isMotion = true) :
    t.before.extrusion < t.after.extrusion ↔ t.before.physicalExtrusion < t.after.physicalExtrusion :=
  (passes.counted_before counted given t mem).pushes_iff (given t mem) (passes.step_of_mem mem) motion

/-- In exact arithmetic to raise the count at each motion is to push filament at each. -/
private theorem Machine.Counted.advances_iff (counted : m.Counted) (given : ∀ d ∈ cs, d.Counted) :
    Machine.Advances (·.extrusion) m cs ↔ Machine.Advances (·.physicalExtrusion) m cs := by
  refine exists₂_congr fun ts last => and_congr_right fun passes => and_congr_right fun lines => ?_
  have sound : ∀ t ∈ ts, t.line.Counted := fun t mem => given t.line (lines ▸ List.mem_map_of_mem mem)
  exact forall₃_congr fun t mem motion => passes.pushes_iff counted sound mem motion

end

/-- From lines of which the first would extrude, the longest run is taken that there is. In exact arithmetic it raises
    the count where filament is pushed, and behind every program the flag of the machine tells whether the last motion
    pushed any. -/
theorem Run.longest_of_extract :
    (∀ (α : Type) [Scalar α] (start whole : Machine α) (c : Command α) (rest : List (Command α)),
      start.replay (c :: rest) = .ok whole → start.wouldExtrude c = .ok true →
        ∃ run, extract start (c :: rest) = .ok run ∧ run.start = start ∧ run.IsLongest (c :: rest)) ∧
    (∀ (start : Machine Exact) (front : List (Command Exact)), start.Counted → (∀ d ∈ front, d.Counted) →
      (Machine.Advances (·.extrusion) start front ↔ Machine.Advances (·.physicalExtrusion) start front)) ∧
    ∀ (commands : List (Command Exact)) (m : Machine Exact), (∀ d ∈ commands, d.Counted) →
      Machine.powerOn.replay commands = .ok m → ∃ ts, Passage Machine.powerOn ts m ∧ ts.map (·.line) = commands ∧
        (m.extruded = true ↔
          ∃ t, Transition.lastMotion? ts = some t ∧ t.before.physicalExtrusion < t.after.physicalExtrusion) := by
  refine ⟨?_, fun _ _ counted given => counted.advances_iff given, ?_⟩
  · intro α _ start whole c rest follows would
    obtain ⟨ts, passes, lines⟩ := Passage.of_replay follows
    have trusted : ∀ d ∈ c :: rest, d.isUntrusted = false := by
      rw [← lines, List.forall_mem_map]
      exact fun t mem => Machine.after_isOk_iff.mp ⟨_, passes.step_of_mem mem⟩
    obtain ⟨run, extracted⟩ := exists_extract (m := start) trusted
    exact ⟨run, extracted, (extract_eq_ok_iff.mp extracted).1, isLongest_of_extract extracted would⟩
  · intro commands m given follows
    obtain ⟨ts, passes, lines⟩ := Passage.of_replay follows
    have sound : ∀ t ∈ ts, t.line.Counted := fun t mem => given t.line (lines ▸ List.mem_map_of_mem mem)
    refine ⟨ts, passes, lines, ?_⟩
    rw [passes.extruded_last]
    cases met : Transition.lastMotion? ts with
    | none => simp [Machine.powerOn]
    | some t =>
      obtain ⟨mem, motion⟩ := Transition.isMotion_of_lastMotion? met
      simp [passes.pushes_iff Machine.counted_powerOn sound mem motion]

/-- The loop that goes out by totals and back by amounts is the longest run of a program that goes on with a lift, it
    pushes filament at each of its moves, and a machine that switches behind a draw remembers that the draw pushed. -/
theorem Run.longest_of_mixed :
    Lane.mixed.IsLongest (Lane.mixed.commands ++ [Lane.lift 1]) ∧
      Machine.Advances (·.physicalExtrusion) Lane.mixed.start Lane.mixed.commands ∧
        ∃ ts, Passage Machine.powerOn ts (Lane.spot .absolute 3 0 3 0 true) ∧
          ∃ t, Transition.lastMotion? ts = some t ∧ t.before.physicalExtrusion < t.after.physicalExtrusion := by
  have given : ∀ d ∈ Lane.mixed.commands, d.Counted := by
    simp only [Lane.mixed, List.forall_mem_cons]
    exact ⟨Lane.counted_draw 1 1, .of_bare rfl, Lane.counted_draw 3 3, .of_bare rfl, Lane.counted_draw 0 3,
      List.forall_mem_nil _⟩
  have follows : Lane.mixed.start.replay (Lane.mixed.commands ++ [Lane.lift 1]) = .ok (Lane.spot .relative 0 1 6 0 false) :=
    Machine.replay_append_eq_ok_iff.mpr ⟨_, Lane.mixed.replays,
      Machine.replay_cons_eq_ok_iff.mpr ⟨_, Lane.after_lift 1, rfl⟩⟩
  have would : Lane.mixed.start.wouldExtrude (Lane.draw 1 1) = .ok true :=
    Lane.wouldExtrude_draw 1 (zero_add 1) (iff_of_true one_pos rfl)
  obtain ⟨run, extracted, _, isLongest⟩ := longest_of_extract.1 Exact Lane.mixed.start _ (Lane.draw 1 1) _ follows would
  cases extracted.symm.trans Lane.extract_mixed
  have pushes := longest_of_extract.2.1 Lane.mixed.start _ ⟨⟨0, rfl⟩, ⟨0, rfl⟩⟩ given
  have along := (isLongest.longest _ isLongest.begins).mpr (List.prefix_refl _)
  refine ⟨isLongest, pushes.mp ((isLongest.advances _ isLongest.begins).mp along), ?_⟩
  have sound : ∀ d ∈ [Lane.home, Lane.draw 3 3, Lane.switch .absolute], d.Counted := by
    simp only [List.forall_mem_cons]
    exact ⟨.of_bare rfl, Lane.counted_draw 3 3, .of_bare rfl, List.forall_mem_nil _⟩
  have drawn : (Lane.spot .relative 0 0 0 0 false).after (Lane.draw 3 3) = .ok (Lane.spot .relative 3 0 3 0 true) :=
    Lane.after_draw 3 (zero_add 3) (iff_of_true three_pos rfl)
  have switched : Machine.powerOn.replay [Lane.home, Lane.draw 3 3, Lane.switch .absolute] =
      .ok (Lane.spot .absolute 3 0 3 0 true) :=
    Machine.replay_cons_eq_ok_iff.mpr ⟨_, Lane.after_home, Machine.replay_cons_eq_ok_iff.mpr ⟨_, drawn,
      Machine.replay_cons_eq_ok_iff.mpr ⟨_, Lane.after_switch .absolute, rfl⟩⟩⟩
  obtain ⟨ts, passes, _, flag⟩ := longest_of_extract.2.2 _ _ sound switched
  exact ⟨ts, passes, flag.mp rfl⟩

end Seam
