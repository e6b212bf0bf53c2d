import Seam.Proofs.Legible
import Seam.Proofs.Ordered

/-!
The floor of every program. The search for it ends at the first line behind which it is
spoiled, because axes are homed that are not trusted or because a height that counts is no
finite number (`Floor.SpoiledAt`); where nothing spoils it, the floor is the least of the
bed and of all heights that count (`Floor.heights`). An admitted line never declares the
height, so along an admitted program the head is plumb: its height is counted from the bed
and is a number (`Machine.Plumb.replay`). Such a height is finite wherever it counts, and
nothing spoils the search. None of it needs exact numbers.
-/
namespace Seam

namespace Command

variable {α : Type} [Scalar α] {c : Command α}

theorem FiniteWords.number? (finite : c.FiniteWords) {dial : Dial} {v : α} (given : c.number? dial = some v) :
    Scalar.isFinite v = true := by
  obtain ⟨w, words, value⟩ := Option.bind_eq_some_iff.mp given
  have listed (letter : Char) (found : w.get? letter = some v) : Scalar.isFinite v = true := by
    obtain ⟨front, back, split, _⟩ := List.lookup_eq_some_iff.mp found
    exact finite w words (letter.toUpper, v) (by rw [split]; simp)
  cases dial with
  | axis a => exact listed _ value
  | filament => exact listed _ value

/-- What a line can do to the height. -/
private theorem effect_z_cases (c : Command α) (mode : Mode) :
    c.effect mode (.axis .z) = .keep ∨ c.effect mode (.axis .z) = .home ∨
      (∃ v, c.effect mode (.axis .z) = .declare v) ∨
      c.effect mode (.axis .z) = drive (c.number? (.axis .z)) mode := by
  cases c with
  | comment => exact .inl rfl
  | verbatim => exact .inl rfl
  | instruction i =>
    obtain ⟨code, words, comment⟩ := i
    cases code
    case rapidMove | linearMove => exact .inr (.inr (.inr rfl))
    case resetPosition => exact .inr (.inr (.inl ⟨0, rfl⟩))
    case setPosition =>
      cases given : (instruction ⟨.setPosition, words, comment⟩).number? (.axis .z) with
      | none => left; simp [effect, code?, given]
      | some v => right; right; left; exact ⟨v, by simp [effect, code?, given]⟩
    case home =>
      simp only [effect, code?]
      split
      · exact .inr (.inl rfl)
      · exact .inl rfl
    all_goals exact .inl rfl

end Command

namespace Machine

variable {α : Type} [Scalar α] {m next : Machine α} {c : Command α} {cs : List (Command α)}

/-- The height is counted from the bed, and is a number. -/
structure Plumb (m : Machine α) : Prop where
  offset : m.offset.z = 0
  defined : Scalar.isUndefined m.position.z = false

variable [Scalar.Ordered α]

private theorem plumb_powerOn : (powerOn : Machine α).Plumb := ⟨rfl, Scalar.Ordered.isUndefined_infinity⟩

theorem Plumb.after (plumb : m.Plumb) (admitted : c.Admitted) (finite : c.FiniteWords) (stepped : m.after c = .ok next) :
    next.Plumb := by
  have gauge : next.gauge (.axis .z) = (c.effect (m.mode (.axis .z)) (.axis .z)).apply (m.gauge (.axis .z)) :=
    after_gauge stepped (.axis .z)
  have defined {v : α} (finite : Scalar.isFinite v = true) := Scalar.Ordered.isUndefined_of_isFinite finite
  have plumb_of {g : Gauge α} (same : next.gauge (.axis .z) = g) (offset : g.offset = 0)
      (logical : Scalar.isUndefined g.logical = false) : next.Plumb := by
    subst same
    exact ⟨offset, logical⟩
  rcases c.effect_z_cases (m.mode (.axis .z)) with keep | home | ⟨v, declare⟩ | driven
  · rw [keep] at gauge
    exact plumb_of gauge plumb.offset plumb.defined
  · rw [home] at gauge
    exact plumb_of gauge rfl (defined Scalar.Ordered.isFinite_zero)
  · exact absurd declare (admitted.effect_ne_declare _ v)
  · rw [driven, drive_apply] at gauge
    refine plumb_of gauge plumb.offset ?_
    cases number : c.number? (.axis .z) with
    | none =>
      cases m.mode (.axis .z) with
      | absolute => exact plumb.defined
      | relative => exact Scalar.Ordered.isUndefined_add plumb.defined Scalar.Ordered.isFinite_zero
    | some v =>
      have v_finite := finite.number? number
      cases m.mode (.axis .z) with
      | absolute => exact defined v_finite
      | relative => exact Scalar.Ordered.isUndefined_add plumb.defined v_finite

theorem Plumb.replay (plumb : m.Plumb) (admitted : ∀ c ∈ cs, c.Admitted) (finite : ∀ c ∈ cs, c.FiniteWords) :
    ∃ last, m.replay cs = .ok last ∧ last.Plumb := by
  induction cs generalizing m with
  | nil => exact ⟨m, rfl, plumb⟩
  | cons c cs ih =>
    obtain ⟨here, others⟩ := List.forall_mem_cons.mp admitted
    obtain ⟨here_finite, others_finite⟩ := List.forall_mem_cons.mp finite
    obtain ⟨next, stepped⟩ := (after_isOk_iff (m := m)).mpr here.trusted
    obtain ⟨last, replayed, last_plumb⟩ := ih (plumb.after here here_finite stepped) others others_finite
    exact ⟨last, replay_cons_eq_ok_iff.mpr ⟨next, stepped, replayed⟩, last_plumb⟩

private theorem Plumb.physical_beq (plumb : m.Plumb) : (m.physical.z == m.position.z) = true := by
  show (m.position.z + m.offset.z == m.position.z) = true
  rw [plumb.offset]
  exact Scalar.Ordered.add_zero_beq plumb.defined

/-- Where the position is known, a height that is counted from the bed is finite. -/
private theorem Plumb.isFinite_physical (plumb : m.Plumb) (known : m.positionKnown = true) :
    Scalar.isFinite m.physical.z = true := by
  rw [positionKnown, Point.isKnown, Bool.and_eq_true] at known
  show Scalar.isFinite (m.position.z + m.offset.z) = true
  rw [plumb.offset]
  exact Scalar.Ordered.isFinite_add_zero known.2

end Machine

namespace Floor

variable {α : Type} [Scalar α] {m : Machine α} {commands lines : List (Command α)} {fault : Fault α}

/-- The height of the machine counts for the floor. -/
structure Counts (m : Machine α) : Prop where
  absolute : m.positioning = .absolute
  known : m.positionKnown = true

private theorem lower_cases (f : α) (m : Machine α) :
    ¬ Counts m ∧ lower f m = .ok f ∨
      Counts m ∧ Scalar.isFinite m.physical.z = true ∧ lower f m = .ok (if m.physical.z < f then m.physical.z else f) ∨
      Counts m ∧ Scalar.isFinite m.physical.z = false ∧ lower f m = .error (.floorUndetermined m.physical.z) := by
  have physical : m.physical.z = m.position.z + m.offset.z := rfl
  by_cases counts : (m.positioning = .absolute && m.positionKnown) = true
  · obtain ⟨absolute, known⟩ := Bool.and_eq_true_iff.mp counts
    right
    rw [lower, height?, if_pos counts, ← physical]
    cases finite : Scalar.isFinite m.physical.z with
    | true => exact .inl ⟨⟨of_decide_eq_true absolute, known⟩, rfl, if_pos finite⟩
    | false => exact .inr ⟨⟨of_decide_eq_true absolute, known⟩, rfl, if_neg (by simp [finite])⟩
  · left
    refine ⟨fun here => counts (by simp [here.absolute, here.known]), ?_⟩
    rw [lower, height?, if_neg counts]

/-- The last of the lines spoils the search: it homes axes that are not trusted, or the
    height behind it counts and is no finite number. -/
inductive Spoils : List (Command α) → Fault α → Prop
  | homing {lines : List (Command α)} {c : Command α} (last : lines.getLast? = some c) (untrusted : c.isUntrusted = true) :
      Spoils lines (.trustedHoming 0)
  | height {lines : List (Command α)} {m : Machine α} (replayed : Machine.powerOn.replay lines = .ok m)
      (counts : Counts m) (endless : Scalar.isFinite m.physical.z = false) :
      Spoils lines (.floorUndetermined m.physical.z)

/-- The lines are the first of the commands behind which the search is spoiled. -/
structure SpoiledAt (commands lines : List (Command α)) (fault : Fault α) : Prop where
  began : lines <+: commands
  spoils : Spoils lines fault
  first (shorter : List (Command α)) (other : Fault α) (before : shorter <+: lines) (spoiled : Spoils shorter other) :
    shorter = lines

/-- The heights that count, behind any of the first lines of a program. -/
def heights (commands : List (Command α)) : Set α :=
  {z | ∃ lines m, lines <+: commands ∧ Machine.powerOn.replay lines = .ok m ∧ Counts m ∧ z = m.physical.z}

private theorem heights_mono {more : List (Command α)} (began : lines <+: more) : heights lines ⊆ heights more := by
  rintro z ⟨front, m, before, replayed, counts, same⟩
  exact ⟨front, m, before.trans began, replayed, counts, same⟩

/-- The machine and the floor behind the lines. -/
def scan (commands : List (Command α)) : Except (Fault α) (Machine α × α) :=
  commands.foldlM (fun (m, floor) c => do
    let next ← m.after c
    return (next, ← lower floor next)) (Machine.powerOn, 0)

private theorem ofCommands_eq (commands : List (Command α)) :
    ofCommands commands = scan commands >>= fun last => pure last.2 := rfl

private theorem scan_append_singleton (commands : List (Command α)) (c : Command α) :
    scan (commands ++ [c]) = scan commands >>= fun last => do
      let next ← last.1.after c
      return (next, ← lower last.2 next) := by
  rw [scan, List.foldlM_append]
  congr 1
  funext last
  rw [List.foldlM_cons]
  simp only [List.foldlM_nil, bind_pure]

/-- What spoils the search behind lines that have been followed is a height that counts. -/
private theorem spoils_iff (replayed : Machine.powerOn.replay lines = .ok m) :
    Spoils lines fault ↔ Counts m ∧ Scalar.isFinite m.physical.z = false ∧ fault = .floorUndetermined m.physical.z := by
  constructor
  · intro spoils
    cases spoils with
    | homing last untrusted =>
      obtain ⟨before, rfl⟩ := List.getLast?_eq_some_iff.mp last
      obtain ⟨mid, _, last⟩ := Machine.replay_append_eq_ok_iff.mp replayed
      obtain ⟨next, stepped, _⟩ := Machine.replay_cons_eq_ok_iff.mp last
      have trusted := Machine.after_isOk_iff.mp ⟨next, stepped⟩
      rw [untrusted] at trusted
      cases trusted
    | height again counts endless =>
      cases replayed.symm.trans again
      exact ⟨counts, endless, rfl⟩
  · rintro ⟨counts, endless, rfl⟩
    exact .height replayed counts endless

/-- Lines spoil the search with one fault. -/
theorem Spoils.unique {other : Fault α} (spoils : Spoils lines fault) (again : Spoils lines other) : fault = other := by
  cases spoils with
  | height replayed counts endless => exact ((spoils_iff replayed).mp again).2.2.symm
  | homing last untrusted =>
    cases again with
    | homing => rfl
    | height replayed counts endless => exact ((spoils_iff replayed).mp (.homing last untrusted)).2.2

/-- Only one fault can be the first. -/
theorem SpoiledAt.unique {others : List (Command α)} {other : Fault α} (first : SpoiledAt commands lines fault)
    (again : SpoiledAt commands others other) : fault = other := by
  have same : lines = others := by
    rcases List.prefix_or_prefix_of_prefix first.began again.began with before | before
    · exact again.first _ _ before first.spoils
    · exact (first.first _ _ before again.spoils).symm
  subst same
  exact first.spoils.unique again.spoils

/-- What the search has come to behind the lines. -/
inductive Outcome (commands : List (Command α)) : Except (Fault α) (Machine α × α) → Prop
  | found {m : Machine α} {f : α} (replayed : Machine.powerOn.replay commands = .ok m)
      (clear : ∀ lines fault, lines <+: commands → ¬ Spoils lines fault) (mem : f ∈ insert 0 (heights commands))
      (least : ∀ z ∈ insert 0 (heights commands), ¬ z < f) : Outcome commands (.ok (m, f))
  | spoiled {lines : List (Command α)} {fault : Fault α} (first : SpoiledAt commands lines fault) :
      Outcome commands (.error fault)

private theorem mem_heights_append_singleton {c : Command α} (replayed : Machine.powerOn.replay (commands ++ [c]) = .ok m)
    {z : α} :
    z ∈ heights (commands ++ [c]) ↔ z ∈ heights commands ∨ Counts m ∧ z = m.physical.z := by
  constructor
  · rintro ⟨lines, here, began, reached, counts, rfl⟩
    rcases List.prefix_concat_iff.mp began with rfl | before
    · cases replayed.symm.trans reached
      exact .inr ⟨counts, rfl⟩
    · exact .inl ⟨lines, here, before, reached, counts, rfl⟩
  · rintro (earlier | ⟨counts, rfl⟩)
    · exact heights_mono (List.prefix_append ..) earlier
    · exact ⟨_, m, List.prefix_rfl, replayed, counts, rfl⟩

/-- What has not spoiled the search before the last line does so behind it. -/
private theorem spoiledAt_append_singleton {c : Command α} (clear : ∀ lines fault, lines <+: commands → ¬ Spoils lines fault)
    (spoils : Spoils (commands ++ [c]) fault) : SpoiledAt (commands ++ [c]) (commands ++ [c]) fault := by
  refine ⟨List.prefix_rfl, spoils, fun shorter other before earlier => ?_⟩
  rcases List.prefix_concat_iff.mp before with same | before
  · exact same
  · exact absurd earlier (clear _ _ before)

private theorem not_spoils_append_singleton {c : Command α} (clear : ∀ lines fault, lines <+: commands → ¬ Spoils lines fault)
    (reached : Machine.powerOn.replay (commands ++ [c]) = .ok m)
    (unspoiled : ¬ (Counts m ∧ Scalar.isFinite m.physical.z = false)) :
    ∀ lines fault, lines <+: commands ++ [c] → ¬ Spoils lines fault := by
  intro lines fault began spoils
  rcases List.prefix_concat_iff.mp began with rfl | before
  · obtain ⟨counts, endless, _⟩ := (spoils_iff reached).mp spoils
    exact unspoiled ⟨counts, endless⟩
  · exact clear _ _ before spoils

variable [Scalar.Ordered α]

private theorem not_counts_powerOn : ¬ Counts (Machine.powerOn : Machine α) := by
  rintro ⟨_, known⟩
  have unknown : (Machine.powerOn : Machine α).positionKnown = false := by
    show (Scalar.isFinite (Scalar.infinity : α) && _ && _) = false
    rw [Scalar.Lawful.isFinite_infinity]
    rfl
  rw [unknown] at known
  cases known

private theorem outcome_nil : Outcome [] (scan ([] : List (Command α))) := by
  have none (z : α) : z ∉ heights ([] : List (Command α)) := by
    rintro ⟨lines, m, began, reached, counts, _⟩
    rw [List.prefix_nil.mp began] at reached
    cases reached
    exact not_counts_powerOn counts
  refine .found rfl (fun lines fault began spoils => ?_) (Set.mem_insert ..) fun z mem => ?_
  · rw [List.prefix_nil.mp began, spoils_iff rfl] at spoils
    exact not_counts_powerOn spoils.1
  · rcases mem with rfl | earlier
    · exact Scalar.Lawful.lt_irrefl 0
    · exact absurd earlier (none z)

/-- The outcome behind a line that is followed, from the floor before it. -/
private theorem outcome_lower {c : Command α} {next : Machine α} {f : α}
    (clear : ∀ lines fault, lines <+: commands → ¬ Spoils lines fault) (mem : f ∈ insert 0 (heights commands))
    (least : ∀ z ∈ insert 0 (heights commands), ¬ z < f) (reached : Machine.powerOn.replay (commands ++ [c]) = .ok next) :
    Outcome (commands ++ [c]) ((lower f next).map fun g => (next, g)) := by
  have insert_iff (z : α) : z ∈ insert 0 (heights (commands ++ [c])) ↔
      z ∈ insert 0 (heights commands) ∨ Counts next ∧ z = next.physical.z := by
    rw [Set.mem_insert_iff, mem_heights_append_singleton reached, Set.mem_insert_iff, or_assoc]
  rcases lower_cases f next with ⟨apart, lowered⟩ | ⟨counts, finite, lowered⟩ | ⟨counts, endless, lowered⟩
  · rw [lowered]
    have still_clear := not_spoils_append_singleton clear reached fun both => apart both.1
    refine .found reached still_clear ((insert_iff f).mpr (.inl mem)) fun z here => ?_
    rcases (insert_iff z).mp here with earlier | ⟨counts, _⟩
    · exact least z earlier
    · exact absurd counts apart
  · rw [lowered]
    have still_clear := not_spoils_append_singleton clear reached (by simp [finite])
    by_cases below : next.physical.z < f
    · rw [if_pos below]
      refine .found reached still_clear ((insert_iff _).mpr (.inr ⟨counts, rfl⟩)) fun z here less => ?_
      rcases (insert_iff z).mp here with earlier | ⟨_, rfl⟩
      · exact least z earlier (Scalar.Ordered.lt_trans less below)
      · exact Scalar.Lawful.lt_irrefl _ less
    · rw [if_neg below]
      refine .found reached still_clear ((insert_iff f).mpr (.inl mem)) fun z here => ?_
      rcases (insert_iff z).mp here with earlier | ⟨_, rfl⟩
      · exact least z earlier
      · exact below
  · rw [lowered]
    exact .spoiled (spoiledAt_append_singleton clear (.height reached counts endless))

private theorem Outcome.snoc {r : Except (Fault α) (Machine α × α)} (outcome : Outcome commands r) (c : Command α) :
    Outcome (commands ++ [c]) (r >>= fun last => do
      let next ← last.1.after c
      return (next, ← lower last.2 next)) := by
  cases outcome with
  | spoiled first => exact .spoiled ⟨first.began.trans (List.prefix_append ..), first.spoils, first.first⟩
  | @found m f replayed clear mem least =>
    cases stepped : m.after c with
    | error fault =>
      obtain ⟨untrusted, rfl⟩ := Machine.after_eq_error_iff.mp stepped
      have failed : (Except.ok (m, f) : Except (Fault α) (Machine α × α)) >>= (fun last => do
          let next ← last.1.after c
          return (next, ← lower last.2 next)) = .error (.trustedHoming 0) := by
        rw [Except.bind_eq_error_iff]
        exact .inr ⟨_, rfl, Except.bind_eq_error_iff.mpr (.inl stepped)⟩
      rw [failed]
      exact .spoiled (spoiledAt_append_singleton clear (.homing (List.getLast?_concat ..) untrusted))
    | ok next =>
      have reached : Machine.powerOn.replay (commands ++ [c]) = .ok next :=
        Machine.replay_append_eq_ok_iff.mpr ⟨m, replayed, Machine.replay_cons_eq_ok_iff.mpr ⟨next, stepped, rfl⟩⟩
      have followed : (Except.ok (m, f) : Except (Fault α) (Machine α × α)) >>= (fun last => do
          let next ← last.1.after c
          return (next, ← lower last.2 next)) = (lower f next).map fun g => (next, g) := by
        simp only [bind, Except.bind, stepped, pure, Except.pure]
        cases lower f next <;> rfl
      rw [followed]
      exact outcome_lower clear mem least reached

theorem outcome (commands : List (Command α)) : Outcome commands (scan commands) := by
  induction commands using List.reverseRecOn with
  | nil => exact outcome_nil
  | append_singleton commands c ih =>
    rw [scan_append_singleton]
    exact ih.snoc c

private theorem isFinite_of_clear (clear : ∀ lines fault, lines <+: commands → ¬ Spoils lines fault) {z : α}
    (mem : z ∈ insert 0 (heights commands)) : Scalar.isFinite z = true := by
  rcases mem with rfl | ⟨lines, m, began, replayed, counts, rfl⟩
  · exact Scalar.Ordered.isFinite_zero
  · by_contra endless
    exact clear _ _ began (.height replayed counts (Bool.not_eq_true _ ▸ endless))

/-- The floor that is found is the least of the bed and of all heights that count. -/
theorem isLeast_of_ofCommands {f : α} (lowest : ofCommands commands = .ok f) :
    IsLeast (insert 0 (heights commands)) f := by
  rw [ofCommands_eq, Except.bind_eq_ok_iff] at lowest
  obtain ⟨last, found, same⟩ := lowest
  cases same
  have outcome := outcome commands
  rw [found] at outcome
  cases outcome with
  | found _ clear mem least =>
    refine ⟨mem, fun z here => ?_⟩
    exact Scalar.Ordered.le_of_not_lt (isFinite_of_clear clear here) (isFinite_of_clear clear mem) (least z here)

/-- The search fails with what spoils it first. -/
private theorem ofCommands_eq_error_iff : ofCommands commands = .error fault ↔ ∃ lines, SpoiledAt commands lines fault := by
  have outcome := outcome commands
  rw [ofCommands_eq]
  cases scanned : scan commands with
  | ok last =>
    rw [scanned] at outcome
    cases outcome with
    | found _ clear =>
      refine iff_of_false nofun ?_
      rintro ⟨lines, first⟩
      exact clear _ _ first.began first.spoils
  | error other =>
    rw [scanned] at outcome
    cases outcome with
    | spoiled first =>
      constructor
      · intro failed
        cases failed
        exact ⟨_, first⟩
      · rintro ⟨lines, again⟩
        rw [first.unique again]
        rfl

/-- The search fails if anything spoils it, and only then. -/
private theorem exists_ofCommands_eq_error_iff :
    (∃ fault, ofCommands commands = .error fault) ↔ ∃ lines fault, lines <+: commands ∧ Spoils lines fault := by
  constructor
  · rintro ⟨fault, failed⟩
    obtain ⟨lines, first⟩ := ofCommands_eq_error_iff.mp failed
    exact ⟨lines, fault, first.began, first.spoils⟩
  · rintro ⟨lines, fault, began, spoils⟩
    have outcome := outcome commands
    rw [ofCommands_eq]
    cases scanned : scan commands with
    | error other => exact ⟨other, rfl⟩
    | ok last =>
      rw [scanned] at outcome
      cases outcome with
      | found _ clear => exact absurd spoils (clear _ _ began)

/-- More lines never raise the floor. -/
private theorem le_of_append {more : List (Command α)} {f g : α} (lowest : ofCommands commands = .ok f)
    (longer : ofCommands (commands ++ more) = .ok g) : g ≤ f := by
  have mem := (isLeast_of_ofCommands lowest).1
  exact (isLeast_of_ofCommands longer).2 (Set.insert_subset_insert (heights_mono (List.prefix_append ..)) mem)

/-- Behind all first lines of an admitted program the head is plumb. -/
private theorem exists_plumb (admitted : ∀ c ∈ commands, c.Admitted) (finite : ∀ c ∈ commands, c.FiniteWords)
    (began : lines <+: commands) : ∃ m, Machine.powerOn.replay lines = .ok m ∧ m.Plumb :=
  Machine.plumb_powerOn.replay (fun c mem => admitted c (began.mem mem)) fun c mem => finite c (began.mem mem)

/-- Nothing spoils the search along an admitted program. -/
private theorem not_spoils (admitted : ∀ c ∈ commands, c.Admitted) (finite : ∀ c ∈ commands, c.FiniteWords)
    (began : lines <+: commands) : ¬ Spoils lines fault := by
  intro spoils
  obtain ⟨m, replayed, plumb⟩ := exists_plumb admitted finite began
  obtain ⟨counts, endless, _⟩ := (spoils_iff replayed).mp spoils
  rw [plumb.isFinite_physical counts.known] at endless
  cases endless

/-- Along an admitted program of finite numbers, heights are counted from the bed, and the
    floor is the least of the bed and of the heights that count. The search fails for a
    program, admitted or not, with what spoils it first. -/
theorem least_or_spoiled (commands : List (Command α)) :
    ((∀ c ∈ commands, c.FiniteWords) → Admission.check commands = .ok () →
      (∀ lines, lines <+: commands → ∃ m, Machine.powerOn.replay lines = .ok m ∧ m.offset.z = 0 ∧
        (m.physical.z == m.position.z) = true) ∧
      ∃ f, ofCommands commands = .ok f ∧ IsLeast (insert 0 (heights commands)) f ∧
        ∀ more g, ofCommands (commands ++ more) = .ok g → g ≤ f) ∧
    ((∃ fault, ofCommands commands = .error fault) ↔ ∃ lines fault, lines <+: commands ∧ Spoils lines fault) ∧
    ∀ fault, ofCommands commands = .error fault ↔ ∃ lines, SpoiledAt commands lines fault := by
  refine ⟨fun finite checked => ?_, exists_ofCommands_eq_error_iff, fun fault => ofCommands_eq_error_iff⟩
  have admitted := Admission.check_eq_ok_iff.mp checked
  constructor
  · intro lines began
    obtain ⟨m, replayed, plumb⟩ := exists_plumb admitted finite began
    exact ⟨m, replayed, plumb.offset, plumb.physical_beq⟩
  · cases lowest : ofCommands commands with
    | ok f => exact ⟨f, rfl, isLeast_of_ofCommands lowest, fun more g longer => le_of_append lowest longer⟩
    | error fault =>
      obtain ⟨lines, _, began, spoils⟩ := exists_ofCommands_eq_error_iff.mp ⟨fault, lowest⟩
      exact absurd spoils (not_spoils admitted finite began)

/-- A dip on the way of a program in numbers of 64 bits: the declaration before homing
    moves no height, the arc loses the way, and the last move counts from where the head is. -/
def dipping : List (Command Float) :=
  [.ofWords .setPosition ⟨[('X', 5)]⟩, .ofWords .home .empty, .ofWords .linearMove ⟨[('X', 10), ('Y', 10), ('Z', -0.25)]⟩,
    .ofWords .clockwiseArc ⟨[('X', 20), ('I', 5)]⟩, .ofWords .rapidMove ⟨[('X', 0), ('Y', 0), ('Z', 0.3)]⟩,
    .ofWords .relativePositioning .empty, .ofWords .linearMove ⟨[('Z', -0.8)]⟩]

/-- The floor of the dip. The head ends further down, but there its coordinates are displacements. -/
theorem least_or_spoiled_dipping :
    (∀ c ∈ dipping, c.FiniteWords) ∧ Admission.check dipping = .ok () ∧
      IsLeast (insert 0 (heights dipping)) (-0.25 : Float) ∧
      ∃ m, Machine.powerOn.replay dipping = .ok m ∧ m.offset.z = 0 ∧ (m.physical.z == m.position.z) = true := by
  have finite : ∀ c ∈ dipping, c.FiniteWords := by
    intro c mem w words entry listed
    simp only [dipping, List.mem_cons, List.not_mem_nil, or_false] at mem
    rcases mem with rfl | rfl | rfl | rfl | rfl | rfl | rfl <;> cases words <;>
      simp only [Words.empty, List.mem_cons, List.not_mem_nil, or_false] at listed
    all_goals rcases listed with rfl | rfl | rfl <;> decide +kernel
  have checked : Admission.check dipping = .ok () := by decide +kernel
  have lowest : ofCommands dipping = .ok (-0.25 : Float) := by decide +kernel
  obtain ⟨⟨plumb, f, found, least, _⟩, _⟩ := (least_or_spoiled dipping).imp_left fun whole => whole finite checked
  cases lowest.symm.trans found
  exact ⟨finite, checked, least, plumb dipping List.prefix_rfl⟩

end Floor

end Seam
