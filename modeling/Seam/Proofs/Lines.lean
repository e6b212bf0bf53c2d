import Seam.Proofs.Answer
import Seam.Proofs.Legible
import Seam.Proofs.Reading

/-!
Texts as lines. A text is laid out as lines with a newline behind each and what stands
behind the last newline (`Text.exists_lay`); in that layout it is cut into the lines
that are read (`Program.linesOf_of_lay`) and lines are written in the same one
(`Program.toList_renderCommands_of_ends`). So a text of lines that are not tracked comes back
exactly if all of its lines end alike and no carriage return is left behind the last
newline (`Program.returns_of_untracked`).
-/
namespace Seam

private theorem List.map_eq_self_iff {β : Type} {f : β → β} {xs : List β} : xs.map f = xs ↔ ∀ x ∈ xs, f x = x := by
  conv_lhs => rhs; rw [← List.map_id xs]
  exact List.map_inj_left

namespace Text

/-- The text of lines with an ending behind each, and of what stands behind the last ending. -/
def lay (ending : List Char) (closed : List (List Char)) (rest : List Char) : List Char :=
  closed.flatMap (· ++ ending) ++ rest

/-- No newline stands in a line or behind the last one. -/
structure Flat (closed : List (List Char)) (rest : List Char) : Prop where
  closed : ∀ line ∈ closed, '\n' ∉ line
  rest : '\n' ∉ rest

variable {closed front back : List (List Char)} {line rest ending : List Char}

@[simp] theorem lay_nil : lay ending [] rest = rest := rfl

theorem lay_cons : lay ending (line :: closed) rest = line ++ ending ++ lay ending closed rest := by
  rw [lay, List.flatMap_cons, List.append_assoc, ← lay]

private theorem lay_append :
    lay ending (front ++ line :: back) rest = lay ending front line ++ ending ++ lay ending back rest := by
  simp [lay]

/-- Every text is laid out in lines. -/
theorem exists_lay (cs : List Char) : ∃ closed rest, Flat closed rest ∧ cs = lay ['\n'] closed rest := by
  induction cs with
  | nil => exact ⟨[], [], ⟨List.forall_mem_nil _, List.not_mem_nil⟩, rfl⟩
  | cons c cs ih =>
    obtain ⟨closed, rest, flat, rfl⟩ := ih
    by_cases newline : c = '\n'
    · subst newline
      exact ⟨[] :: closed, rest, ⟨List.forall_mem_cons.mpr ⟨List.not_mem_nil, flat.closed⟩, flat.rest⟩, by rw [lay_cons]; rfl⟩
    · have joined {line : List Char} (single : '\n' ∉ line) : '\n' ∉ c :: line :=
        List.not_mem_cons_of_ne_of_not_mem (Ne.symm newline) single
      cases closed with
      | nil => exact ⟨[], c :: rest, ⟨List.forall_mem_nil _, joined flat.rest⟩, rfl⟩
      | cons line closed =>
        obtain ⟨here, others⟩ := List.forall_mem_cons.mp flat.closed
        exact ⟨(c :: line) :: closed, rest, ⟨List.forall_mem_cons.mpr ⟨joined here, others⟩, flat.rest⟩, by
          simp [lay_cons]⟩

private theorem splitOn_append_cons {sep : Char} (absent : sep ∉ line) (cs : List Char) :
    splitOn sep (line ++ sep :: cs) = line :: splitOn sep cs := by
  induction line with
  | nil => simp [splitOn]
  | cons c line ih =>
    rw [List.mem_cons, not_or] at absent
    have later := ih absent.2
    simp only [splitOn, List.cons_append, List.foldr_cons, if_neg (Ne.symm absent.1)] at later ⊢
    rw [List.cons.injEq] at later
    rw [later.1, later.2]

private theorem splitOn_of_notMem {sep : Char} (absent : sep ∉ line) : splitOn sep line = [line] := by
  induction line with
  | nil => rfl
  | cons c line ih =>
    rw [List.mem_cons, not_or] at absent
    have later := ih absent.2
    simp only [splitOn, List.foldr_cons, if_neg (Ne.symm absent.1)] at later ⊢
    rw [List.cons.injEq] at later
    rw [later.1, later.2]

private theorem splitOn_lay (flat : Flat closed rest) : splitOn '\n' (lay ['\n'] closed rest) = closed ++ [rest] := by
  obtain ⟨lines, behind⟩ := flat
  induction closed with
  | nil => exact splitOn_of_notMem behind
  | cons line closed ih =>
    obtain ⟨here, others⟩ := List.forall_mem_cons.mp lines
    rw [lay_cons, List.append_assoc, List.singleton_append, splitOn_append_cons here, ih others, List.cons_append]

/-- A text is laid out in only one way. -/
private theorem lay_inj {rest' : List Char} (flat : Flat front rest) (flat' : Flat back rest')
    (same : lay ['\n'] front rest = lay ['\n'] back rest') : front = back ∧ rest = rest' := by
  have pieces := congrArg (splitOn '\n') same
  rw [splitOn_lay flat, splitOn_lay flat'] at pieces
  exact List.append_singleton_inj.mp pieces

private theorem count_lay (flat : Flat closed rest) : (lay ['\n'] closed rest).count '\n' = closed.length := by
  obtain ⟨lines, behind⟩ := flat
  induction closed with
  | nil => exact List.count_eq_zero.mpr behind
  | cons line closed ih =>
    obtain ⟨here, others⟩ := List.forall_mem_cons.mp lines
    rw [lay_cons, List.count_append, List.count_append, List.count_eq_zero.mpr here, ih others, List.length_cons]
    simp [Nat.add_comm]

/-- The end of the last line is the end of the text, or a newline is. -/
private theorem getLast?_lay (closed : List (List Char)) (rest : List Char) :
    (lay ['\n'] closed rest).getLast? = rest.getLast?.or (if closed = [] then none else some '\n') := by
  rw [lay, List.getLast?_append]
  cases closed using List.reverseRecOn with
  | nil => simp
  | append_singleton front line => simp

theorem getLast?_lay_eq_newline_iff (flat : Flat closed rest) :
    (lay ['\n'] closed rest).getLast? = some '\n' ↔ rest = [] ∧ closed ≠ [] := by
  rw [getLast?_lay]
  cases last : rest.getLast? with
  | none =>
    rw [List.getLast?_eq_none_iff] at last
    simp [last]
  | some c =>
    have mem := List.mem_of_getLast? last
    have some : rest ≠ [] := List.ne_nil_of_mem mem
    have other : c ≠ '\n' := fun newline => flat.rest (newline ▸ mem)
    simp [other, some]

private theorem getLast?_lay_eq_return_iff :
    (lay ['\n'] closed rest).getLast? = some '\r' ↔ rest.getLast? = some '\r' := by
  rw [getLast?_lay]
  cases rest.getLast? with
  | none => cases closed <;> simp
  | some c => simp

/-- A newline in a text stands behind a line. -/
private theorem lay_eq_append_newline_iff (flat : Flat closed rest) {before behind : List Char} :
    lay ['\n'] closed rest = before ++ '\n' :: behind ↔ ∃ front line back, closed = front ++ line :: back ∧
      before = lay ['\n'] front line ∧ behind = lay ['\n'] back rest := by
  constructor
  · intro same
    obtain ⟨front, line, flat_front, rfl⟩ := exists_lay before
    obtain ⟨back, last, flat_back, rfl⟩ := exists_lay behind
    have joined : lay ['\n'] closed rest = lay ['\n'] (front ++ line :: back) last := by
      rw [same, lay_append, List.append_assoc]
      rfl
    have flat' : Flat (front ++ line :: back) last :=
      ⟨List.forall_mem_append.mpr ⟨flat_front.closed, List.forall_mem_cons.mpr ⟨flat_front.rest, flat_back.closed⟩⟩,
        flat_back.rest⟩
    obtain ⟨rfl, rfl⟩ := lay_inj flat flat' joined
    exact ⟨front, line, back, rfl, rfl, rfl⟩
  · rintro ⟨front, line, back, rfl, rfl, rfl⟩
    rw [lay_append, List.append_assoc]
    rfl

theorem hasCrlf_iff (cs : List Char) : hasCrlf cs = true ↔ ∃ before behind, cs = before ++ '\r' :: '\n' :: behind := by
  induction cs with
  | nil => simp [hasCrlf]
  | cons c cs ih =>
    by_cases here : ∃ behind, c :: cs = '\r' :: '\n' :: behind
    · obtain ⟨behind, same⟩ := here
      rw [same]
      exact iff_of_true rfl ⟨[], behind, rfl⟩
    · have later : hasCrlf (c :: cs) = hasCrlf cs := by
        rw [hasCrlf]
        intro behind head tail
        exact here ⟨behind, by rw [head, tail]⟩
      rw [later, ih]
      constructor
      · rintro ⟨before, behind, rfl⟩
        exact ⟨c :: before, behind, rfl⟩
      · rintro ⟨before, behind, same⟩
        cases before with
        | nil => exact absurd ⟨behind, same⟩ here
        | cons d before =>
          cases same
          exact ⟨before, behind, rfl⟩

/-- A carriage return before a newline is the end of a line. -/
private theorem hasCrlf_lay_iff (flat : Flat closed rest) :
    hasCrlf (lay ['\n'] closed rest) = true ↔ ∃ line ∈ closed, line.getLast? = some '\r' := by
  rw [hasCrlf_iff]
  constructor
  · rintro ⟨before, behind, same⟩
    rw [List.append_cons] at same
    obtain ⟨front, line, back, rfl, ends, _⟩ := (lay_eq_append_newline_iff flat).mp same
    refine ⟨line, List.mem_append_cons_self, ?_⟩
    rw [← @getLast?_lay_eq_return_iff front line, ← ends, List.getLast?_concat]
  · rintro ⟨line, mem, last⟩
    obtain ⟨front, back, rfl⟩ := List.append_of_mem mem
    rw [← @getLast?_lay_eq_return_iff front line] at last
    refine ⟨(lay ['\n'] front line).dropLast, lay ['\n'] back rest, ?_⟩
    conv_lhs => rw [lay_append, ← List.dropLast_append_getLast? _ last]
    simp

private theorem intercalate_append_singleton (sep : List Char) (front : List (List Char)) (line : List Char) :
    sep.intercalate (front ++ [line]) = lay sep front line := by
  induction front with
  | nil => exact List.intercalate_singleton
  | cons first front ih =>
    rw [List.cons_append, List.intercalate_cons_of_ne_nil (by simp), ih, lay_cons]

/-- A carriage return before a newline may be taken for a part of the line. -/
theorem lay_return (closed : List (List Char)) (rest : List Char) :
    lay ['\r', '\n'] closed rest = lay ['\n'] (closed.map (· ++ ['\r'])) rest := by
  simp [lay, List.flatMap_map]

theorem Flat.map (flat : Flat closed rest) {f : List Char → List Char} (single : ∀ line, '\n' ∉ line → '\n' ∉ f line) :
    Flat (closed.map f) (f rest) := by
  refine ⟨fun line mem => ?_, single rest flat.rest⟩
  obtain ⟨original, listed, rfl⟩ := List.mem_map.mp mem
  exact single original (flat.closed original listed)

private theorem notMem_dropLast? {c d : Char} (absent : d ∉ line) : d ∉ dropLast? c line := by
  rw [dropLast?]
  split
  · exact fun mem => absent (List.mem_of_mem_dropLast mem)
  · exact absent

theorem dropLast?_eq_self_iff {c : Char} : dropLast? c line = line ↔ line.getLast? ≠ some c := by
  rw [dropLast?]
  split_ifs with last
  · refine iff_of_false (fun same => ?_) (not_not.mpr last)
    have shorter := congrArg List.length same
    rw [List.length_dropLast] at shorter
    have := List.length_pos_of_mem (List.mem_of_getLast? last)
    omega
  · exact iff_of_true rfl last

private theorem dropLast?_append_eq_self_iff {c : Char} : dropLast? c line ++ [c] = line ↔ line.getLast? = some c := by
  constructor
  · intro same
    rw [← same, List.getLast?_concat]
  · intro last
    rw [dropLast?, if_pos last, List.dropLast_append_getLast? _ last]

/-- Either no newline stands right behind a carriage return, or all of them do. -/
def Uniform (cs : List Char) : Prop :=
  ¬ ['\r', '\n'] <:+: cs ∨ ∀ before behind, cs = before ++ '\n' :: behind → before.getLast? = some '\r'

private theorem uniform_lay_iff (flat : Flat closed rest) :
    Uniform (lay ['\n'] closed rest) ↔
      hasCrlf (lay ['\n'] closed rest) = false ∨ ∀ line ∈ closed, line.getLast? = some '\r' := by
  refine or_congr ?_ ?_
  · rw [← Bool.not_eq_true, hasCrlf_iff]
    refine not_congr (exists_congr fun before => exists_congr fun behind => ?_)
    rw [eq_comm, List.append_assoc]
    rfl
  · constructor
    · intro all line mem
      obtain ⟨front, back, rfl⟩ := List.append_of_mem mem
      exact getLast?_lay_eq_return_iff.mp (all _ _ ((lay_eq_append_newline_iff flat).mpr ⟨front, line, back, rfl, rfl, rfl⟩))
    · intro all before behind same
      obtain ⟨front, line, back, rfl, rfl, _⟩ := (lay_eq_append_newline_iff flat).mp same
      exact getLast?_lay_eq_return_iff.mpr (all line List.mem_append_cons_self)

/-- Lines that have lost a carriage return are the same text with the ending that was found if all of them had lost one
    or none of them, and nothing was lost behind the last newline. -/
private theorem lay_dropLast?_eq_iff (flat : Flat closed rest) :
    lay (if hasCrlf (lay ['\n'] closed rest) then ['\r', '\n'] else ['\n']) (closed.map (dropLast? '\r'))
        (dropLast? '\r' rest) = lay ['\n'] closed rest ↔
      Uniform (lay ['\n'] closed rest) ∧ (lay ['\n'] closed rest).getLast? ≠ some '\r' := by
  rw [uniform_lay_iff flat, Ne, getLast?_lay_eq_return_iff, ← Ne, ← dropLast?_eq_self_iff]
  have bare : Flat (closed.map (dropLast? '\r')) (dropLast? '\r' rest) := flat.map fun _ => notMem_dropLast?
  have split {lines : List (List Char)} (flat' : Flat lines (dropLast? '\r' rest)) :
      lay ['\n'] lines (dropLast? '\r' rest) = lay ['\n'] closed rest ↔ lines = closed ∧ dropLast? '\r' rest = rest :=
    ⟨fun same => lay_inj flat' flat same, fun same => by rw [same.1, same.2]⟩
  cases crlf : hasCrlf (lay ['\n'] closed rest) with
  | false =>
    rw [if_neg Bool.false_ne_true, split bare]
    refine and_congr_left fun _ => iff_of_true (List.map_eq_self_iff.mpr fun line mem => ?_) (.inl rfl)
    refine dropLast?_eq_self_iff.mpr fun last => ?_
    rw [(hasCrlf_lay_iff flat).mpr ⟨line, mem, last⟩] at crlf
    cases crlf
  | true =>
    have returned : Flat ((closed.map (dropLast? '\r')).map (· ++ ['\r'])) (dropLast? '\r' rest) := by
      refine ⟨fun line mem => ?_, bare.rest⟩
      obtain ⟨line, listed, rfl⟩ := List.mem_map.mp mem
      simpa using bare.closed line listed
    rw [if_pos rfl, lay_return, split returned, List.map_map, List.map_eq_self_iff]
    refine and_congr_left fun _ => ?_
    simp only [Function.comp_apply, dropLast?_append_eq_self_iff, reduceCtorEq, false_or]

end Text

open Text (lay Flat)

/-- The lines of a text that is laid out. A newline at its end opens no further line. -/
def Text.lines (closed : List (List Char)) (rest : List Char) : List (List Char) :=
  if rest = [] ∧ closed ≠ [] then closed else closed ++ [rest]

private theorem LineEnding.toList_text (ending : LineEnding) :
    ending.text.toList = if ending = .crlf then ['\r', '\n'] else ['\n'] := by
  cases ending <;> rfl

namespace Program

variable {α : Type} [Scalar α] {text : String} {closed : List (List Char)} {rest : List Char} {p : Program α}
  {commands : List (Command α)}

theorem linesOf_of_lay (flat : Flat closed rest) (laid : text.toList = lay ['\n'] closed rest) :
    linesOf text = (Text.lines closed rest).map (Text.dropLast? '\r') := by
  have last := Text.getLast?_lay_eq_newline_iff flat
  rw [linesOf, laid, Text.lines, Text.dropLast?]
  by_cases ended : rest = [] ∧ closed ≠ []
  · rw [if_pos (last.mpr ended), if_pos ended]
    obtain ⟨rfl, some⟩ := ended
    obtain ⟨front, line, rfl⟩ := (List.eq_nil_or_concat' closed).resolve_left some
    obtain ⟨before, here⟩ := List.forall_mem_append.mp flat.closed
    have cut : (lay ['\n'] (front ++ [line]) []).dropLast = lay ['\n'] front line := by
      rw [Text.lay_append, Text.lay_nil, List.append_nil, List.dropLast_concat]
    rw [cut, Text.splitOn_lay ⟨before, here line (List.mem_singleton_self _)⟩]
  · rw [if_neg (mt last.mp ended), if_neg ended, Text.splitOn_lay flat]

private theorem toList_intercalate_render (sep : String) (front : List (Command α)) (last : Command α) :
    (sep.intercalate ((front ++ [last]).map Command.render)).toList =
      lay sep.toList (front.map Command.chars) last.chars := by
  rw [String.toList_intercalate, List.map_map, List.map_append, List.map_singleton, Text.intercalate_append_singleton]
  simp [Function.comp_def, Command.render]

/-- Lines that are written with a newline at the end are all closed. -/
theorem toList_renderCommands_of_ends (ends : p.endsWithNewline = true) (some : commands ≠ []) :
    (p.renderCommands commands).toList = lay p.lineEnding.text.toList (commands.map Command.chars) [] := by
  obtain ⟨front, last, rfl⟩ := (List.eq_nil_or_concat' commands).resolve_left some
  rw [renderCommands, if_pos ends, String.toList_append, toList_intercalate_render, List.map_append, List.map_singleton,
    Text.lay_append, Text.lay_nil, List.append_nil]

/-- The last of the lines that are written without a newline at the end is not closed. -/
theorem toList_renderCommands_of_not_ends (ends : p.endsWithNewline = false) (front : List (Command α))
    (last : Command α) :
    (p.renderCommands (front ++ [last])).toList =
      lay p.lineEnding.text.toList (front.map Command.chars) last.chars := by
  rw [renderCommands, if_neg (by simp [ends]), String.toList_append, toList_intercalate_render]
  exact List.append_nil _

/-- No newline stands in a line of a text. -/
private theorem notMem_of_mem_linesOf {cs : List Char} (mem : cs ∈ linesOf text) : '\n' ∉ cs := by
  obtain ⟨closed, rest, flat, laid⟩ := Text.exists_lay text.toList
  rw [linesOf_of_lay flat laid] at mem
  obtain ⟨line, listed, rfl⟩ := List.mem_map.mp mem
  refine Text.notMem_dropLast? ?_
  rw [Text.lines] at listed
  split at listed
  · exact flat.closed line listed
  · rcases List.mem_append.mp listed with before | last
    · exact flat.closed line before
    · exact List.mem_singleton.mp last ▸ flat.rest

theorem legible_of_parse (read : parse text = .ok p) : ∀ c ∈ p.commands, c.Legible := by
  obtain ⟨commands, lines, same⟩ := Except.bind_eq_ok_iff.mp read
  cases same
  intro c mem
  obtain ⟨⟨cs, line⟩, listed, given⟩ := Except.exists_of_mem_mapM lines mem
  exact Command.legible_of_readLine (notMem_of_mem_linesOf (List.fst_mem_of_mem_zipIdx listed)) given

theorem length_of_parse (read : parse text = .ok p) : p.commands.length = (linesOf text).length := by
  rw [← (parse_eq_ok_iff.mp read).1.length_eq, numbered, List.length_zipIdx]

/-- Lines that are not tracked are kept as they stand. -/
private theorem chars_of_parse (read : parse text = .ok p) (untracked : ∀ c ∈ p.commands, c.code? = none) :
    p.commands.map Command.chars = linesOf text := by
  have lines := (parse_eq_ok_iff.mp read).1
  rw [numbered] at lines
  generalize linesOf text = ls at lines ⊢
  generalize p.commands = cs at lines untracked ⊢
  generalize 1 = n at lines
  induction ls generalizing cs n with
  | nil => cases lines; rfl
  | cons l ls ih =>
    rw [List.zipIdx_cons] at lines
    cases lines with
    | cons here later =>
      obtain ⟨first, others⟩ := List.forall_mem_cons.mp untracked
      rw [List.map_cons, Command.chars_of_readLine here first, ih _ others _ later]

theorem length_linesOf (text : String) :
    (linesOf text).length = text.toList.count '\n' + if text.toList.getLast? = some '\n' then 0 else 1 := by
  obtain ⟨closed, rest, flat, laid⟩ := Text.exists_lay text.toList
  rw [linesOf_of_lay flat laid, List.length_map, laid, Text.count_lay flat, Text.lines]
  have last := Text.getLast?_lay_eq_newline_iff flat
  by_cases ended : rest = [] ∧ closed ≠ []
  · rw [if_pos ended, if_pos (last.mpr ended), Nat.add_zero]
  · rw [if_neg ended, if_neg (mt last.mp ended), List.length_append, List.length_singleton]

/-- A text of lines that are kept as they stand is written in the layout that it was read in. -/
private theorem toList_render_of_untracked (flat : Flat closed rest) (laid : text.toList = lay ['\n'] closed rest)
    (read : parse text = .ok p) (untracked : ∀ c ∈ p.commands, c.code? = none) :
    p.render.toList = lay p.lineEnding.text.toList (closed.map (Text.dropLast? '\r')) (Text.dropLast? '\r' rest) := by
  have chars := chars_of_parse read untracked
  rw [linesOf_of_lay flat laid, Text.lines] at chars
  have ends : p.endsWithNewline = (text.toList.getLast? == some '\n') := by rw [(parse_eq_ok_iff.mp read).2]
  have last := Text.getLast?_lay_eq_newline_iff flat
  rw [laid] at ends
  by_cases ended : rest = [] ∧ closed ≠ []
  · rw [if_pos ended] at chars
    obtain ⟨rfl, some⟩ := ended
    have nonempty : p.commands ≠ [] := fun none => some (by simpa [none] using chars.symm)
    rw [render, toList_renderCommands_of_ends (by rw [ends, last.mpr ⟨rfl, some⟩]; rfl) nonempty, chars]
    rfl
  · rw [if_neg ended, List.map_append, List.map_singleton] at chars
    obtain ⟨front, back, split, before, behind⟩ := List.map_eq_append_iff.mp chars
    obtain ⟨final, rfl, same⟩ := List.map_eq_singleton_iff.mp behind
    rw [render, split, toList_renderCommands_of_not_ends (by rw [ends]; simpa using mt last.mp ended), before, same]

/-- A text comes back from its lines, if none of them is tracked, exactly if either none or all of its newlines stand
    behind a carriage return and none ends it. What is read has a line for every newline and one for what stands behind
    the last, and no newline is written within a line. -/
theorem returns_of_untracked (text : String) :
    ((∀ l ∈ numbered text, ∃ c : Command α, Command.readLine l.2 l.1 = .ok c ∧ c.code? = none) →
      ∃ p : Program α, parse text = .ok p ∧
        (p.render = text ↔ Text.Uniform text.toList ∧ text.toList.getLast? ≠ some '\r')) ∧
    ∀ p : Program α, parse text = .ok p →
      p.commands.length = text.toList.count '\n' + (if text.toList.getLast? = some '\n' then 0 else 1) ∧
        ∀ c ∈ p.commands, '\n' ∉ c.render.toList := by
  refine ⟨fun untracked => ?_, fun p read => ⟨?_, fun c mem => ?_⟩⟩
  · obtain ⟨p, read⟩ := exists_parse_iff.mpr fun l mem => (untracked l mem).imp fun _ => And.left
    have kept : ∀ c ∈ p.commands, c.code? = none := by
      obtain ⟨commands, lines, same⟩ := Except.bind_eq_ok_iff.mp read
      cases same
      intro c mem
      obtain ⟨l, listed, given⟩ := Except.exists_of_mem_mapM lines mem
      obtain ⟨d, given', none⟩ := untracked l listed
      cases given.symm.trans given'
      exact none
    obtain ⟨closed, rest, flat, laid⟩ := Text.exists_lay text.toList
    refine ⟨p, read, ?_⟩
    have ending : p.lineEnding.text.toList = if Text.hasCrlf (lay ['\n'] closed rest) then ['\r', '\n'] else ['\n'] := by
      rw [LineEnding.toList_text, (parse_eq_ok_iff.mp read).2, LineEnding.detect, laid]
      cases Text.hasCrlf (lay ['\n'] closed rest) <;> rfl
    rw [← String.toList_inj, toList_render_of_untracked flat laid read kept, ending, laid]
    exact Text.lay_dropLast?_eq_iff flat
  · exact (length_of_parse read).trans (length_linesOf text)
  · rw [Command.render, String.toList_ofList]
    exact (legible_of_parse read c mem).notMem

/-- Two comments with a carriage return before each newline come back; with one more behind them they do not. -/
theorem returns_of_comments :
    (∃ p : Program Exact, parse ";a\r\n;b\r\n" = .ok p ∧ p.render = ";a\r\n;b\r\n" ∧ p.commands.length = 2) ∧
      ∃ p : Program Exact, parse ";a\r\n;b\r\n\r" = .ok p ∧ p.render ≠ ";a\r\n;b\r\n\r" ∧ p.commands.length = 3 := by
  have comment (line : ℕ) (text : List Char) :
      ∃ c : Command Exact, Command.readLine line (';' :: text) = .ok c ∧ c.code? = none := ⟨_, rfl, rfl⟩
  refine ⟨?_, ?_⟩
  · obtain ⟨returns, counts⟩ := returns_of_untracked (α := Exact) ";a\r\n;b\r\n"
    have lines : numbered ";a\r\n;b\r\n" = [([';', 'a'], 1), ([';', 'b'], 2)] := by decide +kernel
    obtain ⟨p, read, back⟩ := returns (by simpa [lines] using ⟨comment 1 ['a'], comment 2 ['b']⟩)
    have flat : Flat [[';', 'a', '\r'], [';', 'b', '\r']] [] := ⟨by decide +kernel, by decide⟩
    have uniform := (Text.uniform_lay_iff flat).mpr (.inr (by decide +kernel))
    exact ⟨p, read, back.mpr ⟨uniform, by decide +kernel⟩, (counts p read).1.trans (by decide +kernel)⟩
  · obtain ⟨returns, counts⟩ := returns_of_untracked (α := Exact) ";a\r\n;b\r\n\r"
    have lines : numbered ";a\r\n;b\r\n\r" = [([';', 'a'], 1), ([';', 'b'], 2), ([], 3)] := by decide +kernel
    have empty : ∃ c : Command Exact, Command.readLine 3 [] = .ok c ∧ c.code? = none := ⟨_, rfl, rfl⟩
    obtain ⟨p, read, back⟩ := returns (by simpa [lines] using ⟨comment 1 ['a'], comment 2 ['b'], empty⟩)
    exact ⟨p, read, fun same => (back.mp same).2 (by decide +kernel), (counts p read).1.trans (by decide +kernel)⟩

end Program

end Seam
