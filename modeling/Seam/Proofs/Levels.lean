import Seam.Proofs.Json

/-!
Documents of JSON as they are written, each part of a list or a table on its line. A document
is taken from the front of a text as what comes back of it (`Json.takes_chars`), so reading is
the same as `Json.reread` (`Json.read?_render`). Texts, truth values, lists and tables come
back as they were, and a number does if the reader, which rounds twice, restores it.
-/
namespace Seam.Json

open Text (Stops)

variable {α : Type} [Scalar α]

/-- The number that the numeral written for a number is read as. -/
def again? (x : α) : Option α := (Scan.run? Numeral.scan (numberText (Scalar.shortest .even x))).bind Numeral.value?

/-- The document that a number is read as. What is no finite number is written as nothing. -/
def rereadNumber (x : α) : Document α :=
  match Scalar.shortest .even x with
  | .finite _ => (again? x).elim .unusable .number
  | _ => .null

mutual
/-- The document that is read where one was written. -/
def reread : Document α → Document α
  | .number x => rereadNumber x
  | .truth b => .truth b
  | .text s => .text s
  | .list items => .list (rereadItems items)
  | .table entries => .table (rereadEntries entries)
  | .moment | .null | .unusable => .null

def rereadItems : List (Document α) → List (Document α)
  | [] => []
  | d :: rest => reread d :: rereadItems rest

def rereadEntries : List (String × Document α) → List (String × Document α)
  | [] => []
  | (name, d) :: rest => (name, reread d) :: rereadEntries rest
end

private theorem isBlank_of_mem_newline {level : ℕ} : ∀ c ∈ newline level, isBlank c = true := by
  intro c mem
  rcases List.mem_cons.mp mem with rfl | mem
  · rfl
  · rw [List.eq_of_mem_replicate mem]
    rfl

private theorem blanks_append {ws : List Char} (blank : ∀ c ∈ ws, isBlank c = true) (cs : List Char) :
    blanks (ws ++ cs) = blanks cs := by
  rw [blanks, Scan.skipWhile, Scan.skipWhile, List.dropWhile_append_of_pos blank]

theorem blanks_of_stops {cs : List Char} (stops : Stops isBlank cs) : blanks cs = some ((), cs) :=
  Scan.skipWhile_append stops (List.forall_mem_nil _)

/-- What starts with passing over blanks does the same behind more of them. -/
private theorem bind_blanks_append {β : Type} {s : Scan β} {ws : List Char} (blank : ∀ c ∈ ws, isBlank c = true)
    (cs : List Char) : (do blanks; s) (ws ++ cs) = (do blanks; s) cs :=
  Scan.bind_congr (blanks_append blank cs)

private theorem value_append {ws : List Char} (blank : ∀ c ∈ ws, isBlank c = true) (depth : ℕ) (cs : List Char) :
    value (α := α) depth (ws ++ cs) = value depth cs := by
  cases depth with
  | zero => rfl
  | succ depth => exact bind_blanks_append blank cs

private theorem bind_mark {c : Char} {ws cs : List Char} (blank : ∀ d ∈ ws, isBlank d = true) (stops : Stops isBlank cs) :
    mark c (ws ++ cs) = Scan.accept [c] cs := by
  rw [mark, bind_blanks_append blank, Scan.bind_eq (blanks_of_stops stops)]

section Marks

variable {c d : Char} {ws : List Char} (blank : ∀ d ∈ ws, isBlank d = true)

include blank

/-- A separator is taken with the blanks before it. -/
private theorem mark_self (visible : isBlank c = false) (rest : List Char) : mark c (ws ++ c :: rest) = some (true, rest) :=
  (bind_mark blank (.cons visible rest)).trans (Scan.accept_cons c rest)

/-- Where another sign stands than the separator, only the blanks before it are taken. -/
private theorem mark_of_ne (visible : isBlank d = false) (differ : d ≠ c) (rest : List Char) :
    mark c (ws ++ d :: rest) = some (false, d :: rest) := by
  have stops : Stops (· == c) (d :: rest) := fun e first => by
    cases first
    simpa using differ
  exact (bind_mark blank (.cons visible rest)).trans (Scan.accept_of_stops stops [])

end Marks

/-- What closes a list or a table. -/
def isClosing (c : Char) : Bool := c == ']' || c == '\x7d'

private theorem isBlank_of_isClosing {c : Char} (closes : isClosing c = true) :
    isBlank c = false ∧ Numeral.isInside c = false ∧ c ≠ ',' := by
  simp only [isClosing, Bool.or_eq_true, beq_iff_eq] at closes
  rcases closes with rfl | rfl <;> decide

/-- The text starts as values and names do. -/
def Begins (part : List Char) : Prop := ∃ c cs, part = c :: cs ∧ isBlank c = false ∧ isClosing c = false

/-- The scanner takes the text as what it stands for, whatever follows that cannot be part of a numeral. -/
def Takes {β : Type} (element : Scan β) (part : List Char) (x : β) : Prop :=
  ∀ rest, Stops Numeral.isInside rest → element (part ++ rest) = some (x, rest)

section Parts

variable {β : Type} {element : Scan β} {closing : Char} {budget : ℕ} {parts : List (List Char)} {xs : List β}
  (blank : ∀ ws cs, (∀ c ∈ ws, isBlank c = true) → element (ws ++ cs) = element cs) (closes : isClosing closing = true)
  (takes : List.Forall₂ (Takes element) parts xs) (fits : parts.length ≤ budget)

include blank closes takes fits

/-- Parts are taken one after the other, each from its line, up to what closes them. -/
private theorem items_parts (level : ℕ) (nonempty : parts ≠ []) (rest : List Char) :
    Scan.items element (mark ',') (mark closing) budget
      ([','].intercalate (parts.map fun part => newline (level + 1) ++ part) ++ (newline level ++ closing :: rest)) =
    some (xs, rest) := by
  obtain ⟨visible, -, other⟩ := isBlank_of_isClosing closes
  have inside {tail : List Char} {part : List Char} {x : β} {c : Char} (other : Numeral.isInside c = false)
      (takes : Takes element part x) : element (newline (level + 1) ++ part ++ c :: tail) = some (x, c :: tail) := by
    rw [List.append_assoc, blank _ _ isBlank_of_mem_newline]
    exact takes _ (.cons other tail)
  refine Scan.items_intercalate ?_ (by simpa using nonempty) (by simpa using fits) (mark_self (List.forall_mem_nil _) rfl)
    (mark_of_ne isBlank_of_mem_newline visible other rest) (mark_self (List.forall_mem_nil _) visible rest)
  rw [List.forall₂_map_left_iff]
  exact takes.imp fun _ _ takes => ⟨fun tail => inside rfl takes, inside rfl takes⟩

/-- Between brackets there are the parts, or nothing if there are none. -/
private theorem takes_bracketed {γ : Type} (opening : Char) (level : ℕ) (make : List β → γ)
    (begins : ∀ part ∈ parts, Begins part) (rest : List Char) :
    (do
      if ← mark closing then return make []
      else return make (← Scan.items element (mark ',') (mark closing) budget) : Scan γ)
      ((bracketed opening closing level parts).tail ++ rest) = some (make xs, rest) := by
  cases takes with
  | nil => exact Scan.bind_eq (mark_self (List.forall_mem_nil _) (isBlank_of_isClosing closes).1 rest)
  | @cons part x parts xs here others =>
    have taken := items_parts blank closes (.cons here others) fits level (List.cons_ne_nil part parts) rest
    obtain ⟨c, cs, rfl, visible, opens⟩ := begins part List.mem_cons_self
    have differ : c ≠ closing := by
      rintro rfl
      rw [closes] at opens
      cases opens
    obtain ⟨back, text⟩ : ∃ back, [','].intercalate (((c :: cs) :: parts).map fun part => newline (level + 1) ++ part) ++
        (newline level ++ closing :: rest) = newline (level + 1) ++ c :: back := by
      cases parts with
      | nil => exact ⟨_, by simp; rfl⟩
      | cons next parts => exact ⟨_, by simp [List.intercalate_cons_cons]; rfl⟩
    have same : (bracketed opening closing level ((c :: cs) :: parts)).tail ++ rest = newline (level + 1) ++ c :: back := by
      rw [← text]
      simp [bracketed]
    -- the blanks before the first part are gone when it is known that nothing closes here
    rw [text, Scan.items_congr (blank _ _ isBlank_of_mem_newline)] at taken
    rw [same, Scan.bind_eq (mark_of_ne isBlank_of_mem_newline visible differ back), if_neg Bool.false_ne_true,
      Scan.bind_eq taken]
    rfl

end Parts

/-- What stands between brackets is longer than its parts together, and than there are parts. -/
private theorem sum_length_le_bracketed (opening closing : Char) (level : ℕ) (parts : List (List Char)) :
    (parts.map fun part => part.length + 1).sum + 2 ≤ (bracketed opening closing level parts).length := by
  have inside (parts : List (List Char)) : (parts.map fun part => part.length + 1).sum ≤
      ([','].intercalate (parts.map fun part => newline (level + 1) ++ part)).length := by
    induction parts with
    | nil => simp
    | cons part parts ih =>
      have line : 0 < (newline (level + 1)).length := Nat.succ_pos _
      cases parts with
      | nil =>
        simp
        omega
      | cons next parts =>
        simp only [List.map_cons, List.sum_cons, List.intercalate_cons_cons, List.length_append,
          List.length_singleton] at ih ⊢
        omega
  rw [bracketed]
  split
  · next none => simp [List.isEmpty_iff.mp none]
  · have enough := inside parts
    simp only [List.length_append, List.length_cons, List.length_nil]
    omega

private theorem length_le_bracketed {opening closing : Char} {level : ℕ} {parts : List (List Char)} :
    parts.length ≤ (bracketed opening closing level parts).length := by
  have sum := sum_length_le_bracketed opening closing level parts
  have enough : parts.length ≤ (parts.map fun part => part.length + 1).sum := by
    simp [List.sum_map_add]
  omega

private theorem length_lt_bracketed {opening closing : Char} {level : ℕ} {parts : List (List Char)} {part : List Char}
    (mem : part ∈ parts) : part.length < (bracketed opening closing level parts).length := by
  have sum := sum_length_le_bracketed opening closing level parts
  have enough : part.length + 1 ≤ (parts.map fun part => part.length + 1).sum :=
    List.single_le_sum (fun _ _ => Nat.zero_le _) _ (List.mem_map_of_mem mem)
  omega

private theorem bracketed_eq_cons (opening closing : Char) (level : ℕ) (parts : List (List Char)) :
    bracketed opening closing level parts = opening :: (bracketed opening closing level parts).tail := by
  rw [bracketed]
  split <;> rfl

/-- A number is written as a numeral of the format, or as nothing. -/
private theorem numberText_cases (n : Seam.Numeral) :
    (∃ d, n = .finite d ∧ ∃ m : Numeral, m.Regular ∧ numberText n = m.chars) ∨
      (∀ d, n ≠ .finite d) ∧ numberText n = ['n', 'u', 'l', 'l'] := by
  cases n with
  | finite d =>
    obtain ⟨m, regular, text⟩ := exists_numeral d
    exact .inl ⟨d, rfl, m, regular, text⟩
  | infinite negative => exact .inr ⟨nofun, rfl⟩
  | undefined => exact .inr ⟨nofun, rfl⟩

/-- A number comes back from where it was written, or none does. -/
theorem number?_rereadNumber (x : α) : (rereadNumber x).number? = again? x := by
  rw [rereadNumber]
  rcases numberText_cases (Scalar.shortest .even x) with ⟨d, shown, -⟩ | ⟨other, text⟩
  · rw [shown]
    cases again? x <;> rfl
  · have nothing : again? x = none := by
      rw [again?, text]
      rfl
    rw [nothing]
    split
    · next d shown => exact absurd shown (other d)
    · rfl

private theorem visible_of_sign {c : Char} (first : c = '-' ∨ c.isDigit = true) : isBlank c = false ∧ isClosing c = false := by
  simp [isBlank, isClosing, Decimal.ne_of_sign first]

private theorem begins_chars (level : ℕ) (d : Document α) : Begins (chars level d) := by
  cases d with
  | number x =>
    rw [chars]
    rcases numberText_cases (Scalar.shortest .even x) with ⟨_, _, m, regular, text⟩ | ⟨_, text⟩
    · obtain ⟨c, cs, front, first⟩ := regular.exists_cons
      exact ⟨c, cs, text.trans front, visible_of_sign first⟩
    · exact ⟨_, _, text, by decide⟩
  | truth b => cases b <;> exact ⟨_, _, rfl, by decide⟩
  | text s => exact ⟨_, _, rfl, by decide⟩
  | list items => exact ⟨_, _, bracketed_eq_cons .., by decide⟩
  | table entries => exact ⟨_, _, bracketed_eq_cons .., by decide⟩
  | moment => exact ⟨_, _, rfl, by decide⟩
  | null => exact ⟨_, _, rfl, by decide⟩
  | unusable => exact ⟨_, _, rfl, by decide⟩

private theorem begins_itemsChars : ∀ (items : List (Document α)) (level : ℕ), ∀ part ∈ itemsChars level items, Begins part
  | [], _, _, mem => nomatch mem
  | d :: items, level, part, mem => by
    rcases List.mem_cons.mp mem with rfl | mem
    · exact begins_chars level d
    · exact begins_itemsChars items level part mem

private theorem begins_entriesChars : ∀ (entries : List (String × Document α)) (level : ℕ),
    ∀ part ∈ entriesChars level entries, Begins part
  | [], _, _, mem => nomatch mem
  | (name, d) :: entries, level, part, mem => by
    rcases List.mem_cons.mp mem with rfl | mem
    · exact ⟨'"', _, rfl, by decide⟩
    · exact begins_entriesChars entries level part mem

/-- What starts like a numeral is read as one. -/
theorem value_of_sign {c : Char} {cs : List Char} (first : c = '-' ∨ c.isDigit = true) (depth : ℕ) :
    value (depth + 1) (c :: cs) =
      (do return (← Numeral.scan).value?.elim .unusable .number : Scan (Document α)) (c :: cs) := by
  have visible : Stops isBlank (c :: cs) := .cons (visible_of_sign first).1 cs
  rw [value, Scan.bind_eq (blanks_of_stops visible), Scan.bind_eq (Scan.get_apply _), Scan.bind_eq (Scan.peek?_apply _),
    List.head?_cons]
  refine congrFun ?_ (c :: cs)
  split
  case h_7 => rfl
  all_goals
    next same =>
      cases same
      exact absurd first (by decide)

private theorem takes_number (depth : ℕ) (x : α) :
    Takes (value (depth + 1)) (numberText (Scalar.shortest .even x)) (rereadNumber x) := by
  intro rest stops
  rcases numberText_cases (Scalar.shortest .even x) with ⟨d, shown, m, regular, text⟩ | ⟨other, text⟩
  · have whole : Scan.run? Numeral.scan m.chars = some m := by
      have taken := Numeral.scan_chars regular .nil
      rw [List.append_nil] at taken
      rw [Scan.run?, taken]
    have again : again? x = m.value? := by rw [again?, text, whole, Option.bind_some]
    obtain ⟨c, cs, front, first⟩ := regular.exists_cons
    have taken := Numeral.scan_chars regular stops
    rw [text, rereadNumber, shown, again, front, List.cons_append, value_of_sign first, ← List.cons_append, ← front]
    exact Scan.bind_eq taken
  · rw [text, rereadNumber]
    split
    · next d shown => exact absurd shown (other d)
    · rfl

private theorem takes_text (depth : ℕ) (s : String) : Takes (value (α := α) (depth + 1)) (quoted s) (.text s) := by
  intro rest _
  have read : (do return (← string).elim .unusable .text : Scan (Document α))
      (Text.escaped (fun _ => false) s ++ '"' :: rest) = some (.text s, rest) := Scan.bind_eq (string_escaped s rest)
  rw [quoted, Text.quoted_append]
  exact read

private theorem takes_entry {β : Type} {element : Scan (Document β)} {part : List Char} {d : Document β}
    (takes : Takes element part d) (blank : ∀ cs, element (' ' :: cs) = element cs) (name : String) :
    Takes (entry element) (quoted name ++ [':', ' '] ++ part) (some name, d) := by
  intro rest stops
  have taken := string_escaped name (':' :: ' ' :: (part ++ rest))
  have text : quoted name ++ [':', ' '] ++ part ++ rest = quoted name ++ ':' :: ' ' :: (part ++ rest) := by simp
  have behind : element (' ' :: (part ++ rest)) = some (d, rest) := by rw [blank, takes rest stops]
  have colon : mark ':' (':' :: ' ' :: (part ++ rest)) = some (true, ' ' :: (part ++ rest)) :=
    mark_self (List.forall_mem_nil _) rfl _
  rw [text, quoted, Text.quoted_append, entry, Scan.bind_eq (blanks_of_stops (.cons rfl _)),
    Scan.bind_eq (Scan.expect_cons '"' _), Scan.bind_eq taken, Scan.bind_eq colon, if_pos rfl, Scan.bind_eq behind]
  rfl

private theorem tableOf_map_some {β : Type} (entries : List (String × Document β)) :
    tableOf (entries.map (Prod.map some id)) = .table entries := by
  have each : (entries.map (Prod.map some id)).mapM (fun (entry : Option String × Document β) =>
      entry.1.map fun name => (name, entry.2)) = some entries := by
    induction entries with
    | nil => rfl
    | cons entry entries ih =>
      rw [List.map_cons, List.mapM_cons, ih]
      rfl
  simp only [tableOf, each]

private theorem takes_list {depth level : ℕ} {parts : List (List Char)} {ds : List (Document α)}
    (takes : List.Forall₂ (Takes (value depth)) parts ds) (begins : ∀ part ∈ parts, Begins part) :
    Takes (value (depth + 1)) (bracketed '[' ']' level parts) (.list ds) := by
  intro rest _
  have fits : parts.length ≤ (bracketed '[' ']' level parts ++ rest).length := by
    rw [List.length_append]
    exact length_le_bracketed.trans (Nat.le_add_right _ _)
  have blank (ws cs : List Char) (blank : ∀ c ∈ ws, isBlank c = true) := value_append (α := α) blank depth cs
  have closes : isClosing ']' = true := rfl
  have taken := takes_bracketed blank closes takes fits '[' level Document.list begins rest
  rw [bracketed_eq_cons] at taken ⊢
  exact taken

private theorem takes_table {depth level : ℕ} {parts : List (List Char)} {entries : List (String × Document α)}
    (takes : List.Forall₂ (Takes (entry (value depth))) parts (entries.map (Prod.map some id)))
    (begins : ∀ part ∈ parts, Begins part) :
    Takes (value (depth + 1)) (bracketed '\x7b' '\x7d' level parts) (.table entries) := by
  intro rest _
  have fits : parts.length ≤ (bracketed '\x7b' '\x7d' level parts ++ rest).length := by
    rw [List.length_append]
    exact length_le_bracketed.trans (Nat.le_add_right _ _)
  have blank (ws cs : List Char) (blank : ∀ c ∈ ws, isBlank c = true) : entry (value (α := α) depth) (ws ++ cs) =
      entry (value depth) cs := bind_blanks_append blank cs
  have closes : isClosing '\x7d' = true := rfl
  have taken := takes_bracketed blank closes takes fits '\x7b' level tableOf begins rest
  rw [bracketed_eq_cons] at taken ⊢
  rw [tableOf_map_some] at taken
  exact taken

mutual
/-- A document is taken as what comes back of it, if the levels suffice for its text. -/
theorem takes_chars : ∀ (d : Document α) (level depth : ℕ), (chars level d).length < depth →
    Takes (value depth) (chars level d) (reread d)
  | _, _, 0, fits => absurd fits (Nat.not_lt_zero _)
  | .number x, _, depth + 1, _ => takes_number depth x
  | .truth true, _, _ + 1, _ => fun _ _ => rfl
  | .truth false, _, _ + 1, _ => fun _ _ => rfl
  | .text s, _, depth + 1, _ => takes_text depth s
  | .list items, level, depth + 1, fits => by
    refine takes_list (takes_itemsChars items (level + 1) depth fun part mem => ?_) (begins_itemsChars items (level + 1))
    exact (length_lt_bracketed mem).trans_le (Nat.lt_succ_iff.mp fits)
  | .table entries, level, depth + 1, fits => by
    refine takes_table (takes_entriesChars entries (level + 1) depth fun part mem => ?_)
      (begins_entriesChars entries (level + 1))
    exact (length_lt_bracketed mem).trans_le (Nat.lt_succ_iff.mp fits)
  | .moment, _, _ + 1, _ => fun _ _ => rfl
  | .null, _, _ + 1, _ => fun _ _ => rfl
  | .unusable, _, _ + 1, _ => fun _ _ => rfl

private theorem takes_itemsChars : ∀ (items : List (Document α)) (level depth : ℕ),
    (∀ part ∈ itemsChars level items, part.length < depth) →
    List.Forall₂ (Takes (value depth)) (itemsChars level items) (rereadItems items)
  | [], _, _, _ => .nil
  | d :: items, level, depth, fits => .cons (takes_chars d level depth (fits _ List.mem_cons_self))
    (takes_itemsChars items level depth fun part mem => fits part (List.mem_cons_of_mem _ mem))

private theorem takes_entriesChars : ∀ (entries : List (String × Document α)) (level depth : ℕ),
    (∀ part ∈ entriesChars level entries, part.length < depth) →
    List.Forall₂ (Takes (entry (value depth))) (entriesChars level entries)
      ((rereadEntries entries).map (Prod.map some id))
  | [], _, _, _ => .nil
  | (name, d) :: entries, level, depth, fits => by
    have short : (chars level d).length < depth :=
      (List.length_append ▸ Nat.le_add_left _ _).trans_lt (fits _ List.mem_cons_self)
    have blank (cs : List Char) : value (α := α) depth (' ' :: cs) = value depth cs :=
      value_append (List.forall_mem_singleton.mpr rfl) depth cs
    exact .cons (takes_entry (takes_chars d level depth short) blank name)
      (takes_entriesChars entries level depth fun part mem => fits part (List.mem_cons_of_mem _ mem))
end

/-- Whatever document is written, what comes back of it is read. -/
theorem read?_render (d : Document α) : read? (render d) = some (reread d) := by
  have taken := takes_chars d 0 ((chars 0 d).length + 1) (Nat.lt_succ_self _) [] .nil
  rw [List.append_nil] at taken
  rw [read?, render, String.toList_ofList, Scan.run?, Scan.bind_eq taken]
  rfl

end Seam.Json
