import Seam.Proofs.Toml

/-!
Documents of TOML as they are written. Every line of a table puts its value into the table
that the last header has opened (`Toml.line_entry`), and a line of a header opens the next one
(`Toml.line_header`). So a document of tables is read as it was written, line by line, if its
names are different and its values are what their texts stand for (`Toml.read?_render`).
-/
namespace Seam.Toml

open Text (Stops)

variable {α : Type}

namespace Entries

/-- What has another name stays as it is. -/
private theorem alter_append {name : String} {tree : Entries α} (fresh : name ∉ tree.map Prod.fst)
    (change : Option (Node α) → Option (Node α)) (more : Entries α) :
    alter name change (tree ++ more) = (alter name change more).map (tree ++ ·) := by
  induction tree with
  | nil => simp
  | cons entry tree ih =>
    obtain ⟨n, node⟩ := entry
    simp only [List.map_cons, List.mem_cons, not_or] at fresh
    rw [List.cons_append, alter, if_neg (Ne.symm fresh.1), ih fresh.2]
    simp [Option.map_map]
    rfl

private theorem put_singleton {name : String} {entries : Entries α} (fresh : name ∉ entries.map Prod.fst) (d : Document α) :
    put [name] d entries = some (entries ++ [(name, .value d)]) := by
  have added : put [name] d (entries ++ []) = some (entries ++ [(name, .value d)]) := alter_append fresh _ []
  rwa [List.append_nil] at added

private theorem openTable_singleton {name : String} {tree : Entries α} (fresh : name ∉ tree.map Prod.fst) :
    openTable [name] tree = some (tree ++ [(name, .table false false [])]) := by
  have opened : openTable [name] (tree ++ []) = some (tree ++ [(name, .table false false [])]) := alter_append fresh _ []
  rwa [List.append_nil] at opened

private theorem putUnder_singleton {table name : String} {tree entries : Entries α} (last : table ∉ tree.map Prod.fst)
    (fresh : name ∉ entries.map Prod.fst) (d : Document α) :
    putUnder [table] [name] d (tree ++ [(table, .table false false entries)]) =
      some (tree ++ [(table, .table false false (entries ++ [(name, .value d)]))]) := by
  rw [putUnder, descend, alter_append last, alter, if_pos rfl]
  simp [descend, put_singleton fresh]

/-- The tree of values under their names. -/
def ofValues (entries : List (String × Document α)) : Entries α := entries.map fun (name, d) => (name, .value d)

/-- The tree of tables that headers have opened. -/
def ofTables (tables : List (String × List (String × Document α))) : Entries α :=
  tables.map fun (name, entries) => (name, .table false false (ofValues entries))

private theorem map_fst_ofValues (entries : List (String × Document α)) :
    (ofValues entries).map Prod.fst = entries.map Prod.fst := by
  simp [ofValues]

private theorem map_fst_ofTables (tables : List (String × List (String × Document α))) :
    (ofTables tables).map Prod.fst = tables.map Prod.fst := by
  simp [ofTables]

/-- If no name is there twice, a name is not among those before it. -/
private theorem fresh_of_nodup {β : Type} {name : String} {b : β} {before more : List (String × β)}
    (distinct : ((before ++ (name, b) :: more).map Prod.fst).Nodup) : name ∉ before.map Prod.fst := by
  rw [List.map_append, List.map_cons, List.nodup_middle, List.nodup_cons] at distinct
  exact fun mem => distinct.1 (List.mem_append_left _ mem)

private theorem toDocuments_ofValues (entries : List (String × Document α)) : toDocuments (ofValues entries) = entries := by
  induction entries with
  | nil => rfl
  | cons entry entries ih =>
    rw [ofValues, List.map_cons, toDocuments, toDocument, ← ofValues, ih]

private theorem toDocuments_ofTables (tables : List (String × List (String × Document α))) :
    toDocuments (ofTables tables) = tables.map fun (name, entries) => (name, .table entries) := by
  induction tables with
  | nil => rfl
  | cons table tables ih =>
    rw [ofTables, List.map_cons, toDocuments, toDocument, toDocuments_ofValues, ← ofTables, ih, List.map_cons]

end Entries

open Entries (ofValues ofTables map_fst_ofValues map_fst_ofTables fresh_of_nodup)

private theorem lineEnd_newline (rest : List Char) : lineEnd ('\n' :: rest) = some ((), rest) := rfl

variable [Scalar α] {path : List String} {tree tree' result : Entries α} {name : String} {rest : List Char}

/-- The line of a header opens its table. -/
theorem line_header (opened : Entries.openTable [name] tree = some tree') (rest : List Char) :
    line path tree ('[' :: (keyText name ++ ']' :: '\n' :: rest)) = some (([name], tree'), rest) := by
  have single : Scan.accept ['[', '['] ('[' :: (keyText name ++ ']' :: '\n' :: rest)) =
      some (false, '[' :: (keyText name ++ ']' :: '\n' :: rest)) := by
    obtain ⟨c, cs, front, first⟩ := exists_keyText name
    have other : '[' ≠ c := by
      rintro rfl
      exact absurd first (by decide)
    rw [front]
    simp [Scan.accept, List.isPrefixOf?, other]
  have named : key (keyText name ++ ']' :: '\n' :: rest) = some ([name], ']' :: '\n' :: rest) :=
    key_keyText name (List.forall_mem_nil _) (by decide) (.cons rfl _)
  have taken : (do
      Scan.expect ['[']
      let name ← key
      Scan.expect [']']
      lineEnd
      return (name, ← Entries.openTable name tree) : Scan (List String × Entries α))
      ('[' :: (keyText name ++ ']' :: '\n' :: rest)) = some (([name], tree'), rest) := by
    rw [Scan.bind_eq (Scan.expect_cons '[' _), Scan.bind_eq named, Scan.bind_eq (Scan.expect_cons ']' _),
      Scan.bind_eq (lineEnd_newline rest), opened]
    rfl
  rw [line, Scan.bind_eq (Scan.peek?_apply _)]
  exact (Scan.bind_eq single).trans taken

/-- The line of an entry puts its value into the table that is open. -/
theorem line_entry {d : Document α} (stands : Stands d) (put : Entries.putUnder path [name] d tree = some tree')
    (rest : List Char) :
    line path tree (keyText name ++ ([' '] ++ '=' :: ([' '] ++ (chars d ++ '\n' :: rest)))) = some ((path, tree'), rest) := by
  obtain ⟨c, cs, front, first⟩ := exists_keyText name
  have named : key (keyText name ++ ([' '] ++ '=' :: ([' '] ++ (chars d ++ '\n' :: rest)))) =
      some ([name], '=' :: ([' '] ++ (chars d ++ '\n' :: rest))) :=
    key_keyText name (by simp [isBlank]) (by decide) (.cons rfl _)
  have skipped : blanks ([' '] ++ (chars d ++ '\n' :: rest)) = some ((), chars d ++ '\n' :: rest) :=
    Scan.skipWhile_append (stands.visible _) (by simp [isBlank])
  have valued : value depthLimit (chars d ++ '\n' :: rest) = some (d, '\n' :: rest) := stands.taken _ rest
  have taken : (do
      let name ← key
      Scan.expect ['=']
      blanks
      let d ← value depthLimit
      lineEnd
      return (path, ← Entries.putUnder path name d tree) : Scan (List String × Entries α))
      (keyText name ++ ([' '] ++ '=' :: ([' '] ++ (chars d ++ '\n' :: rest)))) = some ((path, tree'), rest) := by
    rw [Scan.bind_eq named, Scan.bind_eq (Scan.expect_cons '=' _), Scan.bind_eq skipped, Scan.bind_eq valued,
      Scan.bind_eq (lineEnd_newline rest), put]
    rfl
  rw [line, Scan.bind_eq (Scan.peek?_apply _), ← taken, front, List.cons_append, List.head?_cons]
  refine congrFun ?_ _
  split
  case h_5 => rfl
  all_goals
    next same =>
      cases same
      exact absurd first (by decide)

/-- The lines of a text make one tree of another. -/
def Makes (path : List String) (tree : Entries α) (cs : List Char) (result : Entries α) : Prop :=
  ∀ budget, cs.length < budget → lines path tree budget cs = some (result, [])

namespace Makes

theorem nil : Makes path tree [] tree := by
  intro budget enough
  cases budget with
  | zero => exact absurd enough (Nat.not_lt_zero _)
  | succ budget => rfl

/-- One line makes a tree of which the others make the result. -/
theorem line {path' : List String} {cs : List Char} (front : Stops isBlank cs)
    (taken : Toml.line path tree cs = some ((path', tree'), rest)) (shorter : rest.length < cs.length)
    (makes : Makes path' tree' rest result) : Makes path tree cs result := by
  intro budget enough
  cases budget with
  | zero => exact absurd enough (Nat.not_lt_zero _)
  | succ budget =>
    have more : Scan.atEnd cs = some (false, cs) := by
      cases cs with
      | nil => exact absurd shorter (Nat.not_lt_zero _)
      | cons c cs => rfl
    rw [lines, Scan.bind_eq (blanks_of_stops front), Scan.bind_eq more, if_neg Bool.false_ne_true, Scan.bind_eq taken]
    exact makes budget (by omega)

/-- The lines of entries put their values into the table that is open. -/
theorem entries {table : String} {done : Entries α} (last : table ∉ done.map Prod.fst)
    (more : List (String × Document α)) (stand : ∀ entry ∈ more, Stands entry.2) :
    ∀ before : List (String × Document α),
    ((before ++ more).map Prod.fst).Nodup →
    Makes [table] (done ++ [(table, .table false false (ofValues (before ++ more)))]) rest result →
    Makes [table] (done ++ [(table, .table false false (ofValues before))]) (linesOf more ++ rest) result := by
  induction more with
  | nil =>
    intro before _ makes
    rwa [List.append_nil] at makes
  | cons entry more ih =>
    intro before distinct makes
    obtain ⟨name, d⟩ := entry
    have fresh : name ∉ (ofValues before).map Prod.fst := by
      rw [map_fst_ofValues]
      exact fresh_of_nodup distinct
    have put := Entries.putUnder_singleton last fresh d
    have others := ih (fun entry mem => stand entry (List.mem_cons_of_mem _ mem)) (before ++ [(name, d)])
      (by simpa using distinct) (by simpa using makes)
    have text : linesOf ((name, d) :: more) ++ rest =
        keyText name ++ ([' '] ++ '=' :: ([' '] ++ (chars d ++ '\n' :: (linesOf more ++ rest)))) := by
      simp [linesOf, entriesChars]
    rw [text]
    refine line ?_ (line_entry (stand _ List.mem_cons_self) put _) ?_ ?_
    · obtain ⟨c, cs, front, first⟩ := exists_keyText name
      rw [front]
      exact .cons (isBlank_of_isBare first) _
    · simp
      omega
    · simpa [ofValues] using others

end Makes

/-- Tables under different names, each with values under different names that are what their texts stand for. -/
structure Regular (tables : List (String × List (String × Document α))) : Prop where
  names : (tables.map Prod.fst).Nodup
  entries : ∀ table ∈ tables, (table.2.map Prod.fst).Nodup ∧ ∀ entry ∈ table.2, Stands entry.2

/-- The lines of tables add the tables to those that are there. -/
theorem Makes.tables (tables : List (String × List (String × Document α))) :
    ∀ (before : List (String × List (String × Document α))) (path : List String), Regular (before ++ tables) →
    Makes path (ofTables before) (['\n'].intercalate (tables.map fun (name, entries) => tableText name entries))
      (ofTables (before ++ tables)) := by
  induction tables with
  | nil =>
    intro before path _
    rw [List.append_nil]
    exact Makes.nil
  | cons table tables ih =>
    intro before path regular
    obtain ⟨name, entries⟩ := table
    obtain ⟨distinct, stand⟩ := regular.entries (name, entries) (by simp)
    have last : name ∉ (ofTables before).map Prod.fst := by
      rw [map_fst_ofTables]
      exact fresh_of_nodup regular.names
    have same : before ++ (name, entries) :: tables = before ++ [(name, entries)] ++ tables := by simp
    obtain ⟨tail, text, makes⟩ : ∃ tail,
        ['\n'].intercalate (((name, entries) :: tables).map fun (name, entries) => tableText name entries) =
        '[' :: (keyText name ++ ']' :: '\n' :: (linesOf entries ++ tail)) ∧
        Makes [name] (ofTables (before ++ [(name, entries)])) tail (ofTables (before ++ (name, entries) :: tables)) := by
      cases tables with
      | nil => exact ⟨[], by simp [tableText], Makes.nil⟩
      | cons next tables =>
        refine ⟨'\n' :: ['\n'].intercalate ((next :: tables).map fun (name, entries) => tableText name entries),
          by simp [List.intercalate_cons_cons, tableText], ?_⟩
        have others := ih (before ++ [(name, entries)]) [name] (same ▸ regular)
        rw [same]
        exact Makes.line (.cons rfl _) rfl (Nat.lt_succ_self _) others
    rw [text]
    refine Makes.line (.cons rfl _) (line_header (Entries.openTable_singleton last) _) (by simp; omega) ?_
    refine Makes.entries last entries stand [] distinct ?_
    simpa [ofTables] using makes

private theorem render_tables (tables : List (String × List (String × Document α))) :
    render (.table (tables.map fun (name, entries) => (name, .table entries))) =
      String.ofList (['\n'].intercalate (tables.map fun (name, entries) => tableText name entries)) := by
  have values : valuesOf (tables.map fun (name, entries) => (name, Document.table entries)) = [] := by
    rw [valuesOf, List.filter_eq_nil_iff]
    intro entry mem
    obtain ⟨table, _, rfl⟩ := List.mem_map.mp mem
    simp
  have inner : tablesOf (tables.map fun (name, entries) => (name, Document.table entries)) = tables := by
    simp [tablesOf, List.filterMap_map]
  rw [render, values, inner]
  simp

/-- A document of tables is read as it was written. -/
theorem read?_render {tables : List (String × List (String × Document α))} (regular : Regular tables) :
    read? (render (.table (tables.map fun (name, entries) => (name, .table entries)))) =
      some (.table (tables.map fun (name, entries) => (name, .table entries))) := by
  have made := Makes.tables tables [] [] regular
  rw [render_tables, read?, String.toList_ofList]
  generalize text : ['\n'].intercalate (tables.map fun (name, entries) => tableText name entries) = cs at made
  have unmarked : cs.head? ≠ some '\ufeff' := by
    rw [← text]
    cases tables with
    | nil => simp
    | cons table tables => cases tables <;> simp [tableText]
  simp only [unmarked, ↓reduceIte]
  have read : lines [] [] (cs.length + 1) cs = some (ofTables tables, []) := made _ (Nat.lt_succ_self _)
  rw [Scan.run?, read]
  simp [Entries.toDocuments_ofTables]

end Seam.Toml
