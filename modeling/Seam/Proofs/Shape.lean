import Seam.Proofs.Eligible
import Seam.Proofs.Sketch

/-!
The shape of a tapered loop. Whatever the numbers are, the section is written segment by
segment, each move as a line that names the plane, the height and the filament; then comes
what joins it to the rest of the loop, the rest as it stands, and the section again, this
time without heights and without the moves that stand still (`Weave.Shape`). The section
holds the lines of the loop before the boundary that draw nothing, each once
(`Weave.others_taperSection`, `Traced.others_eq`), so a tapered loop has each of them twice
and every line behind the boundary once (`Weave.Shape.perm`).
-/
namespace Seam

namespace Segment

section
variable {α : Type} {path more : List (Segment α)}

def other? : Segment α → Option (Command α)
  | .move _ => none
  | .other c => some c

/-- The lines of a path that are no moves, in order. -/
def others (path : List (Segment α)) : List (Command α) := path.filterMap other?

private theorem others_append : others (path ++ more) = others path ++ others more := List.filterMap_append

private theorem others_map_move (ms : List (Move α)) : others (ms.map .move) = [] := by
  induction ms with
  | nil => rfl
  | cons m ms ih => exact ih

variable [Scalar α]

private theorem others_filter_isStill : others (path.filter (!·.isStill)) = others path := by
  induction path with
  | nil => rfl
  | cons s path ih =>
    cases s with
    | other c => exact congrArg (c :: ·) ih
    | move m =>
      by_cases still : m.length ≤ leastLength
      · rw [List.filter_cons_of_neg (by simp [isStill, still])]
        exact ih
      · rw [List.filter_cons_of_pos (by simp [isStill, still])]
        exact ih

/-- Taking moves in steps leaves the other lines where they are. -/
theorem others_resample (resolution : α) : others (resample resolution path) = others path := by
  induction path with
  | nil => rfl
  | cons s path ih =>
    rw [resample, List.flatMap_cons, others_append]
    cases s with
    | other c => exact congrArg (c :: ·) ih
    | move m =>
      rw [steps, others_map_move]
      exact ih

end

end Segment

section
variable {α : Type} [Scalar α]

/-- A cut takes the other lines of what it cuts off along. -/
private theorem Cut.others_resume (length travelled : α) (path : List (Segment α)) :
    Segment.others (Cut.resume length travelled path).taper =
      Segment.others (path.take (Cut.resume length travelled path).remainder) := by
  induction path generalizing travelled with
  | nil => rfl
  | cons s path ih =>
    cases s with
    | other c =>
      rw [Cut.resume]
      exact congrArg (c :: ·) (ih travelled)
    | move m =>
      rw [Cut.resume]
      split
      · rfl
      · exact ih _

/-- The other lines of a path are those of its lines that draw nothing. -/
theorem Traced.others_eq {height : α} {m last : Machine α} {cs : List (Command α)} {segments : List (Segment α)}
    (traced : Traced height m cs segments last) : Segment.others segments = cs.filter (!·.isLinear) := by
  induction traced with
  | nil => rfl
  | cons _ drawn _ ih =>
    obtain ⟨_, _, ⟨linear, _, rfl⟩ | ⟨motionless, _, rfl⟩⟩ := Segment.ofStep?_eq_some_iff.mp drawn
    · rw [List.filter_cons_of_neg (by simp [linear])]
      exact ih
    · rw [List.filter_cons_of_pos (by simp [(Command.isMotion_eq_false_iff.mp motionless).2])]
      exact congrArg (_ :: ·) ih

/-- The steps on a ramp that do not stand still are the segments of the section that do not. -/
private theorem Ramp.segment_place_filter (r : Ramp α) (travelled : α) (path : List (Segment α)) :
    ((r.place travelled path).filter (!·.isStill)).map Step.segment = path.filter (!·.isStill) := by
  induction path generalizing travelled with
  | nil => rfl
  | cons s path ih =>
    cases s with
    | other c => exact congrArg (_ :: ·) (ih travelled)
    | move m =>
      by_cases still : m.length ≤ Segment.leastLength
      · rw [place, if_pos still, List.filter_cons_of_neg (by simp [Step.isStill]),
          List.filter_cons_of_neg (by simp [Segment.isStill, still])]
        exact ih travelled
      · rw [place, if_neg still, List.filter_cons_of_pos (by simp [Step.isStill]),
          List.filter_cons_of_pos (by simp [Segment.isStill, still])]
        exact congrArg (_ :: ·) (ih _)

end

namespace Weave

/-- The letters of a synthesized move: a height only if it is wanted, and a feed rate or none. -/
def letters (withHeight feeds : Bool) : List Char :=
  ['X', 'Y'] ++ (if withHeight then ['Z'] else []) ++ 'E' :: if feeds then ['F'] else []

section
variable {α : Type}

/-- The line is a straight motion without a comment that names what a synthesized move names. -/
def Drawing (withHeight : Bool) (c : Command α) : Prop :=
  ∃ (w : Words α) (feeds : Bool), c = .ofWords .linearMove w ∧ w.entries.map Prod.fst = letters withHeight feeds

/-- The line is the one that is written for a segment: a synthesized move, or the line itself. -/
def Shows (withHeight : Bool) : Segment α → Command α → Prop
  | .move _, c => Drawing withHeight c
  | .other d, c => c = d

/-- The lines, if there are any, declare a total of extrusion and nothing else, where extrusion is given as a total. -/
def Declares (m : Machine α) (lines : List (Command α)) : Prop :=
  lines = [] ∨ m.extrusionMode = .absolute ∧ ∃ total, lines = [.ofWords .setPosition ⟨[('E', total)]⟩]

/-- The line was not in the loop before. -/
def IsMade (c : Command α) : Prop :=
  (∃ withHeight, Drawing withHeight c) ∨ ∃ total, c = .ofWords .setPosition ⟨[('E', total)]⟩

theorem Drawing.isLinear {withHeight : Bool} {c : Command α} (drawing : Drawing withHeight c) : c.isLinear = true := by
  obtain ⟨w, _, rfl, _⟩ := drawing
  rfl

private theorem Declares.isMade {m : Machine α} {lines : List (Command α)} (declares : Declares m lines) :
    ∀ c ∈ lines, IsMade c := by
  rcases declares with rfl | ⟨_, total, rfl⟩
  · exact List.forall_mem_nil _
  · exact List.forall_mem_singleton.mpr (.inr ⟨total, rfl⟩)

private theorem isMade_of_drawing {withHeight : Bool} {moves : List (Move α)} {lines : List (Command α)}
    (drawn : List.Forall₂ (fun _ => Drawing withHeight) moves lines) : ∀ c ∈ lines, IsMade c := by
  induction drawn with
  | nil => exact List.forall_mem_nil _
  | cons here _ ih => exact List.forall_mem_cons.mpr ⟨.inl ⟨_, here⟩, ih⟩

/-- Of the lines that show a path, those that draw nothing are the other lines of the path, and the rest is made. -/
private theorem filter_of_shows {withHeight : Bool} {path : List (Segment α)} {lines : List (Command α)}
    (shows : List.Forall₂ (Shows withHeight) path lines) (still : ∀ c ∈ Segment.others path, c.isLinear = false) :
    lines.filter (!·.isLinear) = Segment.others path ∧ ∀ c ∈ lines.filter (·.isLinear), IsMade c := by
  induction shows with
  | nil => exact ⟨rfl, List.forall_mem_nil _⟩
  | @cons s c path lines here _ ih =>
    cases s with
    | other d =>
      cases here
      obtain ⟨silent, others⟩ := List.forall_mem_cons.mp still
      rw [List.filter_cons_of_pos (by simp [silent]), List.filter_cons_of_neg (by simp [silent]), (ih others).1]
      exact ⟨rfl, (ih others).2⟩
    | move m =>
      have linear := Drawing.isLinear here
      rw [List.filter_cons_of_neg (by simp [linear]), List.filter_cons_of_pos linear]
      exact ⟨(ih still).1, List.forall_mem_cons.mpr ⟨.inl ⟨_, here⟩, (ih still).2⟩⟩

end

section
variable {α : Type} [Scalar α] {m last : Machine α} {steps : List (Step α)} {commands : List (Command α)}

private theorem drawing_moveTo (m : Machine α) (point : Point α) (share : α) (feedRate : Option α) (withHeight : Bool) :
    Drawing withHeight (moveTo m point share feedRate withHeight) := by
  cases feedRate with
  | none => exact ⟨_, false, rfl, by cases withHeight <;> rfl⟩
  | some feed =>
    by_cases same : (m.feedRate == some feed) = true
    · exact ⟨_, false, rfl, by cases withHeight <;> simp [same, letters]⟩
    · exact ⟨_, true, rfl, by cases withHeight <;> simp [same, letters]⟩

private theorem declares_declareTotal (m : Machine α) (total : α) : Declares m (declareTotal m total) := by
  unfold declareTotal
  split
  · next needed => exact .inr ⟨needed.1, total, rfl⟩
  · exact .inl rfl

private theorem shows_rising (layerHeight floor : α) (m : Machine α) (step : Step α) :
    Shows true step.segment (rising layerHeight floor m step) := by
  cases step with
  | other c => rfl
  | still => exact drawing_moveTo ..
  | ramped => exact drawing_moveTo ..

private theorem shows_falling {step : Step α} {c : Command α} (line : falling m step = .ok (some c)) :
    step.isStill = false ∧ Shows false step.segment c := by
  cases step with
  | other d => cases line; exact ⟨rfl, rfl⟩
  | still => cases line
  | ramped move t =>
    obtain ⟨_, _, same⟩ := Except.map_eq_ok_iff.mp line
    cases same
    exact ⟨rfl, drawing_moveTo ..⟩

private theorem isStill_of_falling {step : Step α} (omitted : falling m step = .ok none) : step.isStill = true := by
  cases step with
  | other d => cases omitted
  | still => rfl
  | ramped move t =>
    obtain ⟨_, _, same⟩ := Except.map_eq_ok_iff.mp omitted
    cases same

/-- What joins the starting taper to the rest of the loop is a declared total, if one is needed, and what draws the tail. -/
private theorem exists_of_joint {floor total : α} {tail : Option (Move α)} (joins : joint floor total tail m = .ok commands) :
    ∃ resumption bridge, commands = resumption ++ bridge ∧ Declares m resumption ∧
      List.Forall₂ (fun _ => Drawing true) tail.toList bridge :=
  ⟨_, _, joint_eq_ok_iff.mp joins, declares_declareTotal ..,
    List.forall₂_map_right_iff.mpr (List.forall₂_same.mpr fun _ _ => drawing_moveTo ..)⟩

/-- If every line of a taper shows the segment of its step, the taper shows the segments of the steps that it keeps. -/
private theorem shows_of_emit {line? : Machine α → Step α → Except (Fault α) (Option (Command α))}
    {relates : Segment α → Command α → Prop} {kept : Step α → Bool}
    (drawn : ∀ here step c, line? here step = .ok (some c) → kept step = true ∧ relates step.segment c)
    (omitted : ∀ here step, line? here step = .ok none → kept step = false)
    (emitted : emit line? m steps = .ok (commands, last)) :
    List.Forall₂ relates ((steps.filter kept).map Step.segment) commands := by
  induction steps generalizing m commands with
  | nil => cases emitted; exact .nil
  | cons step steps ih =>
    obtain ⟨none, later⟩ | ⟨c, next, rest, line, _, later, rfl⟩ := emit_cons_eq_ok_iff.mp emitted
    · rw [List.filter_cons_of_neg (by simp [omitted m step none])]
      exact ih later
    · obtain ⟨keeps, related⟩ := drawn m step c line
      rw [List.filter_cons_of_pos keeps]
      exact .cons related (ih later)

end

section
variable {α : Type} [Scalar α]

/-- A tapered loop without its markers: its pieces, with the machine where a total may be declared. -/
structure Shape (tuning : Tuning α) (run : Run α) (segments : List (Segment α)) where
  /-- One line for each segment of the section, with heights. -/
  starting : List (Command α)
  starts : List.Forall₂ (Shows true) (taperSection tuning segments) starting
  risen : Machine α
  rises : run.start.replay starting = .ok risen
  resumption : List (Command α)
  resumes : Declares risen resumption
  /-- The line to the end of the cut move, if anything is left of it. -/
  bridge : List (Command α)
  bridges : List.Forall₂ (fun _ => Drawing true) (cut tuning segments).tail.toList bridge
  /-- One line, without a height, for each segment of the section that does not stand still. -/
  ending : List (Command α)
  ends : List.Forall₂ (Shows false) ((taperSection tuning segments).filter (!·.isStill)) ending
  fallen : Machine α
  falls : run.start.replay (starting ++ resumption ++ bridge ++ remainder tuning segments run ++ ending) = .ok fallen
  recount : List (Command α)
  recounts : Declares fallen recount

variable {tuning : Tuning α} {floor : α} {markers : Bool} {run : Run α} {segments : List (Segment α)}
  {commands : List (Command α)}

def Shape.lines (s : Shape tuning run segments) : List (Command α) :=
  s.starting ++ s.resumption ++ s.bridge ++ remainder tuning segments run ++ s.ending ++ s.recount

/-- The lines of the loop before the boundary that draw nothing. -/
def repeats (tuning : Tuning α) (segments : List (Segment α)) (run : Run α) : List (Command α) :=
  (run.commands.take (cut tuning segments).remainder).filter (!·.isLinear)

/-- The section has the lines before the boundary that draw nothing. -/
theorem others_taperSection (path : Segment.path? run.start run.commands = .ok (some segments)) :
    Segment.others (taperSection tuning segments) = repeats tuning segments run := by
  obtain ⟨_, traced⟩ := Segment.traced_of_path path
  obtain ⟨_, front, _⟩ := traced.split (cut tuning segments).remainder
  rw [taperSection, Segment.others_resample, repeats, ← front.others_eq, cut, Cut.ofLength, Cut.others_resume]

private theorem not_isLinear_of_mem_others (path : Segment.path? run.start run.commands = .ok (some segments)) {c : Command α}
    (mem : c ∈ Segment.others (taperSection tuning segments)) : c.isLinear = false := by
  rw [others_taperSection path, repeats, List.mem_filter] at mem
  simpa using mem.2

private theorem Shape.filter_starting (s : Shape tuning run segments)
    (path : Segment.path? run.start run.commands = .ok (some segments)) :
    s.starting.filter (!·.isLinear) = repeats tuning segments run ∧ ∀ c ∈ s.starting.filter (·.isLinear), IsMade c := by
  rw [← others_taperSection path]
  exact filter_of_shows s.starts fun c mem => not_isLinear_of_mem_others path mem

private theorem Shape.filter_ending (s : Shape tuning run segments)
    (path : Segment.path? run.start run.commands = .ok (some segments)) :
    s.ending.filter (!·.isLinear) = repeats tuning segments run ∧ ∀ c ∈ s.ending.filter (·.isLinear), IsMade c := by
  have same : Segment.others ((taperSection tuning segments).filter (!·.isStill)) =
      Segment.others (taperSection tuning segments) := Segment.others_filter_isStill
  rw [← others_taperSection path, ← same]
  exact filter_of_shows s.ends fun c mem => not_isLinear_of_mem_others path (same ▸ mem)

/-- The lines before the boundary that draw nothing are there twice, those behind it once, and all others are made. -/
theorem Shape.perm (s : Shape tuning run segments)
    (path : Segment.path? run.start run.commands = .ok (some segments)) :
    ∃ made, (∀ c ∈ made, IsMade c) ∧ s.lines.Perm
      (made ++ (repeats tuning segments run ++ repeats tuning segments run ++ remainder tuning segments run)) := by
  obtain ⟨up, drawn_up⟩ := s.filter_starting path
  obtain ⟨down, drawn_down⟩ := s.filter_ending path
  refine ⟨s.starting.filter (·.isLinear) ++ s.resumption ++ s.bridge ++ s.ending.filter (·.isLinear) ++ s.recount, ?_, ?_⟩
  · simp only [List.forall_mem_append]
    exact ⟨⟨⟨⟨drawn_up, s.resumes.isMade⟩, isMade_of_drawing s.bridges⟩, drawn_down⟩, s.recounts.isMade⟩
  · -- as multisets, for which the order of the pieces does not matter
    have parts (lines : List (Command α)) :
        (lines : Multiset (Command α)) = lines.filter (·.isLinear) + lines.filter (!·.isLinear) := by
      rw [Multiset.coe_add, Multiset.coe_eq_coe]
      exact (List.filter_append_perm ..).symm
    rw [← Multiset.coe_eq_coe, lines]
    simp only [← Multiset.coe_add]
    rw [parts s.starting, parts s.ending, up, down]
    abel

/-- A tapered loop has its pieces in their order. -/
private theorem exists_shape (tapered : weave tuning floor markers run segments = .ok (.tapered commands)) :
    ∃ s : Shape tuning run segments, commands = bracket markers s.lines := by
  obtain ⟨starting, risen, boundary, joining, joined, ending, fallen, _, rises, _, joins, follows, falls, rfl⟩ :=
    weave_eq_tapered_iff.mp tapered
  obtain ⟨resumption, bridge, rfl, resumes, bridges⟩ := exists_of_joint joins
  have starts : List.Forall₂ (Shows true) (((steps tuning segments).filter fun _ => true).map Step.segment) starting := by
    refine shows_of_emit (fun here step c line => ?_) (fun _ _ none => by cases none) rises
    cases line
    exact ⟨rfl, shows_rising ..⟩
  have ends : List.Forall₂ (Shows false) (((steps tuning segments).filter (!·.isStill)).map Step.segment) ending := by
    refine shows_of_emit (fun here step c line => ?_) (fun _ _ omitted => by rw [isStill_of_falling omitted]; rfl) falls
    obtain ⟨moving, shown⟩ := shows_falling line
    exact ⟨by rw [moving]; rfl, shown⟩
  rw [List.filter_true, segment_steps] at starts
  rw [steps, Ramp.steps, Ramp.segment_place_filter] at ends
  refine ⟨⟨starting, starts, risen, replay_emit rises, resumption, resumes, bridge, bridges, ending, ends, fallen, ?_, _,
    declares_declareTotal fallen run.finish.extrusion⟩, ?_⟩
  · rw [List.append_assoc starting, List.append_assoc starting]
    exact Machine.replay_append_eq_ok_iff.mpr ⟨joined,
      Machine.replay_append_eq_ok_iff.mpr ⟨risen, replay_emit rises, follows⟩, replay_emit falls⟩
  · simp only [Shape.lines, List.append_assoc]

/-- A loop that is a path is tapered in this shape: every line before the boundary that draws nothing is there once in
    each taper, every line behind it once, and nothing is added but synthesized moves and declared totals. -/
theorem shaped_of_tapered (path : Segment.path? run.start run.commands = .ok (some segments))
    (tapered : weave tuning floor markers run segments = .ok (.tapered commands)) :
    ∃ s : Shape tuning run segments, commands = bracket markers s.lines ∧
      s.starting.filter (!·.isLinear) = repeats tuning segments run ∧
      s.ending.filter (!·.isLinear) = repeats tuning segments run ∧
      ∃ made, (∀ c ∈ made, IsMade c) ∧ s.lines.Perm
        (made ++ (repeats tuning segments run ++ repeats tuning segments run ++ remainder tuning segments run)) := by
  obtain ⟨s, written⟩ := exists_shape tapered
  exact ⟨s, written, (s.filter_starting path).1, (s.filter_ending path).1, s.perm path⟩

/-- The loop that goes out by totals and back by amounts switches to totals in both of its tapers, and back to amounts
    between them. -/
theorem shaped_of_mixed :
    ∃ s : Shape (Lane.tuning 2) Lane.mixed Lane.mixedPath,
      weave (Lane.tuning 2) (.real 0) true Lane.mixed Lane.mixedPath = .ok (.tapered (bracket true s.lines)) ∧
        s.starting.filter (!·.isLinear) = [Lane.switch .absolute] ∧
        s.ending.filter (!·.isLinear) = [Lane.switch .absolute] ∧
        ∃ made, (∀ c ∈ made, IsMade c) ∧ s.lines.Perm (made ++ ([Lane.switch .absolute] ++ [Lane.switch .absolute] ++
          [Lane.switch .relative, Lane.draw 0 3])) := by
  obtain ⟨commands, tapered, _⟩ := Lane.weave_mixed true
  obtain ⟨s, rfl, shape⟩ := shaped_of_tapered Lane.path_mixed tapered
  have before : repeats (Lane.tuning 2) Lane.mixedPath Lane.mixed = [Lane.switch .absolute] := by
    rw [repeats, Lane.cut_mixed]
    rfl
  have behind : remainder (Lane.tuning 2) Lane.mixedPath Lane.mixed = [Lane.switch .relative, Lane.draw 0 3] := by
    rw [remainder, Lane.cut_mixed]
    rfl
  rw [before, behind] at shape
  exact ⟨s, tapered, shape⟩

end

end Weave

end Seam
