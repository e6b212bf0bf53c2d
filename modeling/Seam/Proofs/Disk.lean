import Seam.Files.Disk
import Seam.Proofs.Lines

/-!
Paths and the tree of files. A path leads through the names that it is made of
(`Path.names_ofNames`), and what is above it can be followed if it can
(`Path.isFollowable_ofNames`). Directories that were made can be entered
(`Disk.exists_enter?`), so a file can be written where its name allows it and no directory is in
its place (`Disk.Writable.exists_place?`), and there it is found again (`Disk.file?_put`).
-/
namespace Seam

private theorem Text.splitOn_eq (sep : Char) (cs : List Char) : splitOn sep cs = cs.splitOn sep := by
  induction cs with
  | nil => simp [splitOn]
  | cons c cs ih =>
    rw [List.splitOn_cons_eq_if_modifyHead, ← ih]
    by_cases same : c = sep <;> simp [splitOn, same]

private theorem Text.notMem_of_mem_splitOn {sep : Char} {cs : List Char} : ∀ piece ∈ splitOn sep cs, sep ∉ piece := by
  rw [splitOn_eq]
  induction cs with
  | nil => simp
  | cons c cs ih =>
    rw [List.splitOn_cons_eq_if_modifyHead]
    split
    · simpa using ih
    · next other =>
      obtain ⟨piece, pieces, cut⟩ := List.exists_cons_of_ne_nil (List.splitOn_ne_nil sep cs)
      rw [cut] at ih ⊢
      simp at ih other ⊢
      exact ⟨⟨Ne.symm other, ih.1⟩, ih.2⟩

/-- Fewer pieces make less text. -/
private theorem intercalate_sublist {ps qs : List (List Char)} (fewer : ps.Sublist qs) (sep : List Char) :
    (sep.intercalate ps).Sublist (sep.intercalate qs) := by
  induction fewer with
  | slnil => exact .slnil
  | @cons ps qs piece fewer ih =>
    cases qs with
    | nil =>
      rw [List.sublist_nil.mp fewer]
      exact List.nil_sublist _
    | cons next qs =>
      rw [List.intercalate_cons_cons]
      exact ih.trans (List.sublist_append_right _ _)
  | @cons_cons ps qs piece fewer ih =>
    cases ps with
    | nil =>
      rw [List.intercalate_singleton]
      cases qs with
      | nil => rw [List.intercalate_singleton]
      | cons next qs =>
        rw [List.intercalate_cons_cons, List.append_assoc]
        exact List.sublist_append_left _ _
    | cons first ps =>
      cases qs with
      | nil => cases fewer
      | cons next qs =>
        rw [List.intercalate_cons_cons, List.intercalate_cons_cons]
        exact (List.Sublist.refl _).append ih

namespace Path

/-- A name leads somewhere and is not cut. -/
def Proper (name : List Char) : Prop := '/' ∉ name ∧ name ≠ [] ∧ name ≠ ['.']

private theorem proper_of_mem_names {path : String} : ∀ name ∈ names path, Proper name := by
  intro name mem
  obtain ⟨piece, kept⟩ := List.mem_filter.mp mem
  exact ⟨Text.notMem_of_mem_splitOn name piece, by simpa using kept⟩

section OfNames

variable {absolute : Bool} {parents : List (List Char)} (nonempty : parents ≠ []) (proper : ∀ name ∈ parents, Proper name)

include nonempty proper

/-- A path leads through the names that it is made of. -/
theorem names_ofNames : names (ofNames absolute parents) = parents := by
  have pieces : (['/'].intercalate parents).splitOn '/' = parents :=
    List.splitOn_intercalate '/' (fun name mem => (proper name mem).1) nonempty
  have kept : (parents.filter fun name => name != [] && name != ['.']) = parents := by
    rw [List.filter_eq_self]
    intro name mem
    simpa using (proper name mem).2
  rw [names, ofNames, String.toList_ofList, Text.splitOn_eq]
  cases absolute with
  | false => rw [if_neg Bool.false_ne_true, List.nil_append, pieces, kept]
  | true => simp [List.splitOn_cons_eq_if_modifyHead, pieces, kept]

private theorem isAbsolute_ofNames : isAbsolute (ofNames absolute parents) = absolute := by
  rw [isAbsolute, ofNames, String.toList_ofList]
  cases absolute with
  | true => rfl
  | false =>
    obtain ⟨name, parents, rfl⟩ := List.exists_cons_of_ne_nil nonempty
    obtain ⟨uncut, some, -⟩ := proper name List.mem_cons_self
    obtain ⟨c, cs, rfl⟩ := List.exists_cons_of_ne_nil some
    have first : c ≠ '/' := fun same => uncut (same ▸ List.mem_cons_self)
    cases parents <;> simp [List.intercalate_cons_cons, first]

end OfNames

/-- What is above a path can be followed if the path can. -/
theorem isFollowable_ofNames {path : String} (followable : isFollowable path = true) :
    isFollowable (ofNames (isAbsolute path) (names path).dropLast) = true := by
  have inside (cs : List Char) :
      (['/'].intercalate ((Text.splitOn '/' cs).filter fun name => name != [] && name != ['.']).dropLast).Sublist cs := by
    have fewer := intercalate_sublist ((List.dropLast_sublist _).trans
      (List.filter_sublist (p := fun name : List Char => name != [] && name != ['.']) (l := Text.splitOn '/' cs))) ['/']
    rwa [Text.splitOn_eq, List.intercalate_splitOn, ← Text.splitOn_eq] at fewer
  have shorter : (ofNames (isAbsolute path) (names path).dropLast).toList.Sublist path.toList := by
    rw [ofNames, String.toList_ofList, isAbsolute, names]
    generalize path.toList = text
    by_cases absolute : text.head? = some '/'
    · obtain ⟨cs, rfl⟩ := List.head?_eq_some_iff.mp absolute
      have below := (inside cs).cons_cons '/'
      simpa [Text.splitOn_eq, List.splitOn_cons_eq_if_modifyHead] using below
    · simpa [absolute] using inside text
  rw [isFollowable, decide_eq_true_iff] at followable ⊢
  have lengths := String.utf8Len_le_of_sublist shorter
  rw [← String.utf8ByteSize_ofList, ← String.utf8ByteSize_ofList, String.ofList_toList, String.ofList_toList] at lengths
  exact lengths.trans followable

end Path

namespace Disk

variable {d made : Disk} {place : Place} {names : List (List Char)}

/-- A text for a file changes no directory. -/
@[simp] theorem isDirectory_put (d : Disk) (place : Place) (text : String) :
    (d.put place text).isDirectory = d.isDirectory := rfl

@[simp] theorem origin_put (d : Disk) (place : Place) (text : String) : (d.put place text).origin = d.origin := rfl

theorem file?_put (d : Disk) (place : Place) (text : String) : (d.put place text).file? place = some text := by
  have others : (d.files.filter (·.1 != place)).lookup place = none := by
    rw [List.lookup_eq_none_iff]
    intro entry mem
    have differ := (List.mem_filter.mp mem).2
    simpa using Ne.symm (by simpa using differ)
  rw [file?, put, List.lookup_append, others]
  simp

private theorem enter?_put (d : Disk) (place : Place) (text : String) (start : Place) (names : List (List Char)) :
    (d.put place text).enter? start names = d.enter? start names := by
  fun_induction enter? d start names <;> simp_all [enter?]

theorem place?_put (d : Disk) (place : Place) (text path : String) : (d.put place text).place? path = d.place? path := by
  simp only [place?, enter?_put, origin_put]

/-- Directories that are there stay there while others are made. -/
private theorem isDirectory_of_makeDirectories (there : d.makeDirectories place names = some made) {other : Place}
    (directory : d.isDirectory other = true) : made.isDirectory other = true := by
  fun_induction makeDirectories d place names with
  | case1 d place => exact Option.some.inj there ▸ directory
  | case2 d place names ih => exact ih there directory
  | case3 d place name names _ next _ ih => exact ih there directory
  | case4 => cases there
  | case5 d place name names _ next _ _ ih =>
    refine ih there ?_
    simp only [isDirectory, List.contains_append, Bool.or_eq_true] at directory ⊢
    exact directory.imp_right .inl

/-- Where directories were made, they can be entered. -/
theorem exists_enter? (there : d.makeDirectories place names = some made) :
    ∃ directory, made.enter? place names = some directory := by
  fun_induction makeDirectories d place names with
  | case1 d place => exact ⟨place, rfl⟩
  | case2 d place names ih => exact ih there
  | case3 d place name names other next present ih =>
    rw [enter?.eq_3 made place name names other, if_pos (isDirectory_of_makeDirectories there present)]
    exact ih there
  | case4 => cases there
  | case5 d place name names other next _ _ ih =>
    have present : made.isDirectory next = true := isDirectory_of_makeDirectories there (by simp [isDirectory])
    rw [enter?.eq_3 made place name names other, if_pos present]
    exact ih there

private theorem origin_of_makeDirectories (there : d.makeDirectories place names = some made) : made.origin = d.origin := by
  fun_induction makeDirectories d place names with
  | case1 d place => rw [Option.some.inj there]
  | case2 d place names ih => exact ih there
  | case3 d place name names _ next _ ih => exact ih there
  | case4 => cases there
  | case5 d place name names _ next _ _ ih => exact ih there

/-- The directories above a path are made from where the path starts. -/
theorem createDirectories_ofNames {path : String} (nonempty : (Path.names path).dropLast ≠ []) :
    (Files.createDirectories (Path.ofNames (Path.isAbsolute path) (Path.names path).dropLast) : StateM Disk Bool) d =
      if Path.isFollowable (Path.ofNames (Path.isAbsolute path) (Path.names path).dropLast) then
        match d.makeDirectories (d.origin path) (Path.names path).dropLast with
        | none => (false, d)
        | some made => (true, made)
      else (false, d) := by
  have proper : ∀ name ∈ (Path.names path).dropLast, Path.Proper name := fun name mem =>
    Path.proper_of_mem_names name (List.mem_of_mem_dropLast mem)
  have start : d.origin (Path.ofNames (Path.isAbsolute path) (Path.names path).dropLast) = d.origin path := by
    rw [origin, origin, Path.isAbsolute_ofNames nonempty proper]
  simp only [Files.createDirectories, start, Path.names_ofNames nonempty proper]
  rfl

theorem write_eq {path : String} (found : d.place? path = some place) (free : d.isDirectory place = false) (text : String) :
    (Files.write path text : StateM Disk Bool) d = (true, d.put place text) := by
  simp [Files.write, found, free]

/-- A file is only written where there is a place for it. -/
theorem exists_place?_of_write {path : String} (text : String)
    (done : ((Files.write path text : StateM Disk Bool) d).1 = true) :
    ∃ place, d.place? path = some place ∧ d.isDirectory place = false := by
  cases found : d.place? path with
  | none => simp [Files.write, found] at done
  | some place =>
    refine ⟨place, rfl, ?_⟩
    by_contra directory
    rw [Bool.not_eq_false] at directory
    simp [Files.write, found, directory] at done

theorem read?_eq {path : String} (found : d.place? path = some place) :
    (Files.read? path : StateM Disk (Option String)) d = (d.file? place, d) := by
  simp [Files.read?, found]

/-- Something can be written to the path: it ends in the name of a file, the directories above
    are there or can be made, and then no directory is where the file goes. -/
structure Writable (d : Disk) (path : String) : Prop where
  followable : Path.isFollowable path = true
  file : Path.namesDirectory path = false
  name : ∃ name, (Path.names path).getLast? = some name ∧ Path.isName name = true
  above : ∃ made, d.makeDirectories (d.origin path) (Path.names path).dropLast = some made ∧
    ∀ place, made.place? path = some place → made.isDirectory place = false

/-- A path is only found if it can be followed to the name of a file. -/
private theorem followable_of_place? {path : String} (found : d.place? path = some place) :
    Path.isFollowable path = true ∧ Path.namesDirectory path = false ∧
      ∃ name, (Path.names path).getLast? = some name ∧ Path.isName name = true := by
  rw [place?] at found
  split at found
  · cases found
  · next plain =>
    simp only [Option.bind_eq_bind, Option.bind_eq_some_iff] at found
    obtain ⟨name, last, directory, -, proper⟩ := found
    refine ⟨by simp_all, by simp_all, name, last, ?_⟩
    by_contra improper
    simp [improper] at proper

theorem Writable.of_place? {path : String} (there : d.makeDirectories (d.origin path) (Path.names path).dropLast = some made)
    (found : made.place? path = some place) (free : made.isDirectory place = false) : d.Writable path := by
  obtain ⟨followable, file, name⟩ := followable_of_place? found
  refine ⟨followable, file, name, made, there, fun other same => ?_⟩
  cases found.symm.trans same
  exact free

/-- The file has a place below the directories that were made for it. -/
theorem Writable.exists_place? {path : String} (writable : d.Writable path) :
    ∃ made place, d.makeDirectories (d.origin path) (Path.names path).dropLast = some made ∧
      made.place? path = some place ∧ made.isDirectory place = false := by
  obtain ⟨made, there, free⟩ := writable.above
  obtain ⟨directory, entered⟩ := exists_enter? there
  obtain ⟨name, last, proper⟩ := writable.name
  have found : made.place? path = some (directory ++ [name]) := by
    rw [place?, origin_of_makeDirectories there, entered, last, writable.followable, writable.file]
    simp [proper]
  exact ⟨made, directory ++ [name], there, found, free _ found⟩

end Disk

end Seam
