import Seam.Job
import Seam.Proofs.Levels
import Seam.Proofs.Tables

/-!
Settings as texts of a format. They are a document of two tables, from which they are read as
they were (`Config.ofDocument?_toDocument`), so a codec that implements its format gives them
back if their lengths survive its numerals (`Codec.Implements.read_write`). The codecs of JSON
and TOML implement their formats (`Json.implements_codec`, `Toml.implements_codec`), and the
decimals that they write denote the numbers that they are written for
(`Scalar.ofDecimal_decimal`).
-/
namespace Seam

/-- The lengths of an admitted tuning are finite. -/
theorem Tuning.isFinite_of_check {α : Type} [Scalar α] {t : Tuning α} (valid : t.check = .ok ()) :
    ∀ entry ∈ t.entries, Scalar.isFinite entry.2 = true := by
  intro entry mem
  rw [check] at valid
  split at valid
  · cases valid
  · next fine =>
    have unobjected := List.findSome?_eq_none_iff.mp fine entry mem
    by_contra infinite
    rw [Bool.not_eq_true] at infinite
    simp [objection?, infinite] at unobjected

namespace Document

variable {α : Type}

/-- A number that is finite, a truth value or a text. -/
def IsLeaf [Scalar α] : Document α → Prop
  | number x => Scalar.isFinite x = true
  | truth _ | text _ => True
  | _ => False

/-- The document of tables under their names. -/
def ofTables (tables : List (String × List (String × Document α))) : Document α :=
  .table (tables.map fun (name, entries) => (name, .table entries))

/-- Tables under different names, each of leaves under different names. -/
structure Regular [Scalar α] (tables : List (String × List (String × Document α))) : Prop where
  names : (tables.map Prod.fst).Nodup
  entries : ∀ table ∈ tables, (table.2.map Prod.fst).Nodup ∧ ∀ entry ∈ table.2, entry.2.IsLeaf

/-- The numbers in tables. -/
def numbers (tables : List (String × List (String × Document α))) : List α :=
  tables.flatMap fun (_, entries) => entries.filterMap fun (_, d) => d.number?

private theorem eq_of_number? {d : Document α} {x : α} (same : d.number? = some x) : d = .number x := by
  cases d <;> cases same
  rfl

end Document

/-- The codec implements a format in which a number is written as `decimal` gives it, and what is written so is read as
    `number?` gives it. Tables of leaves are written as some text, and they are read from it as they were if all
    their numbers are. -/
def Codec.Implements {α : Type} [Scalar α] (c : Codec α) (decimal : α → Decimal) (number? : Decimal → Option α) : Prop :=
  ∀ tables, Document.Regular tables → ∃ text, c.write? (.ofTables tables) = some text ∧
    ((∀ x ∈ Document.numbers tables, number? (decimal x) = some x) → c.read? text = some (.ofTables tables))

namespace Config

variable {α : Type}

private theorem readOutput?_outputDocument (dialect : Document.Dialect α) (o : Output) :
    readOutput? dialect (outputDocument o) = some o := by
  obtain ⟨lineEnding, markers⟩ := o
  simp [readOutput?, outputDocument, Document.fields?, Document.fieldD, Document.choice?, Document.truth?,
    List.lookup, LineEndingSetting.ofName?_name]

/-- The tables of settings with their values. -/
def tables (config : Config α) : List (String × List (String × Document α)) :=
  [("scarf", config.tuning.entries.map fun (name, x) => (name, .number x)),
    ("output", [("line_ending", .text config.output.lineEnding.name), ("emit_markers", .truth config.output.markers)])]

private theorem numbers_tables (config : Config α) : Document.numbers config.tables = config.tuning.entries.map Prod.snd := rfl

variable [Scalar α]

private theorem readTuning?_tuningDocument (dialect : Document.Dialect α) (t : Tuning α) :
    readTuning? dialect (tuningDocument t) = some t := by
  simp [readTuning?, tuningDocument, Tuning.entries, Document.fields?, Document.fieldD, Document.number?, List.lookup]

/-- Settings are read as they were from the document that they are, every field of it under the name that it was
    written with. -/
theorem ofDocument?_toDocument (dialect : Document.Dialect α) (config : Config α) :
    ofDocument? dialect config.toDocument = some config := by
  simp [ofDocument?, toDocument, Document.fields?, Document.fieldD, List.lookup, readTuning?_tuningDocument,
    readOutput?_outputDocument]

private theorem regular_tables {config : Config α} (finite : ∀ entry ∈ config.tuning.entries, Scalar.isFinite entry.2 = true) :
    Document.Regular config.tables := by
  refine ⟨by simp [tables], ?_⟩
  intro table mem
  simp only [tables, List.mem_cons, List.not_mem_nil, or_false] at mem
  rcases mem with rfl | rfl
  · refine ⟨by simp [Tuning.entries], ?_⟩
    intro entry mem
    obtain ⟨length, listed, rfl⟩ := List.mem_map.mp mem
    exact finite length listed
  · refine ⟨by simp, ?_⟩
    simp only [List.forall_mem_cons]
    exact ⟨trivial, trivial, List.forall_mem_nil _⟩

end Config

/-- Settings with finite lengths are written as a text, and read from it as they were if every length is. -/
theorem Codec.Implements.read_write {α : Type} [Scalar α] {c : Codec α} {decimal : α → Decimal}
    {number? : Decimal → Option α} (implements : c.Implements decimal number?) {config : Config α}
    (finite : ∀ entry ∈ config.tuning.entries, Scalar.isFinite entry.2 = true)
    (restores : ∀ entry ∈ config.tuning.entries, number? (decimal entry.2) = some entry.2) :
    ∃ text, c.write? config.toDocument = some text ∧
      c.read? text >>= Config.ofDocument? c.dialect = some config := by
  obtain ⟨text, written, read⟩ := implements config.tables (Config.regular_tables finite)
  have back : c.read? text = some config.toDocument := by
    refine read fun x mem => ?_
    rw [Config.numbers_tables] at mem
    obtain ⟨entry, listed, rfl⟩ := List.mem_map.mp mem
    exact restores entry listed
  refine ⟨text, written, ?_⟩
  rw [back]
  exact Config.ofDocument?_toDocument c.dialect config

/-- The shortest decimal that denotes a finite number. -/
def Scalar.decimal {α : Type} [Scalar α] (tie : Tie) (x : α) : Decimal :=
  match Scalar.shortest tie x with
  | .finite d => d
  | _ => ⟨false, 0, 0⟩

private theorem Scalar.shortest_eq_decimal {x : Float} (finite : Scalar.isFinite x = true) (tie : Tie) :
    Scalar.shortest tie x = .finite (Scalar.decimal tie x) := by
  obtain ⟨d, shown, -⟩ := Binary64.exists_shortest finite tie
  rw [decimal, shown]

theorem Scalar.ofDecimal_decimal {x : Float} (finite : Scalar.isFinite x = true) (tie : Tie) :
    Scalar.ofDecimal (Scalar.decimal tie x) = x :=
  Binary64.ofDecimal_eq_of_shortest finite (shortest_eq_decimal finite tie) rfl rfl

namespace Json

/-- The number that a decimal is read as where it is written in JSON. -/
def number? {α : Type} [Scalar α] (d : Decimal) : Option α := (Scan.run? Numeral.scan (decimalText d)).bind Numeral.value?

-- The reader rounds the digits and then their product with a power of ten, so some numbers are not restored.
example : number? (Scalar.decimal .even (5.684341886080801e-14 : Float)) ≠ some 5.684341886080801e-14 := by decide +kernel

private theorem rereadEntries_of_restores {entries : List (String × Document Float)}
    (leaves : ∀ entry ∈ entries, entry.2.IsLeaf)
    (restores : ∀ x ∈ entries.filterMap fun (_, d) => d.number?, number? (Scalar.decimal .even x) = some x) :
    rereadEntries entries = entries := by
  induction entries with
  | nil => rfl
  | cons entry entries ih =>
    obtain ⟨name, d⟩ := entry
    obtain ⟨leaf, leaves⟩ := List.forall_mem_cons.mp leaves
    have others := ih leaves fun x mem => restores x (by
      obtain ⟨other, listed, same⟩ := List.mem_filterMap.mp mem
      exact List.mem_filterMap.mpr ⟨other, List.mem_cons_of_mem _ listed, same⟩)
    suffices same : reread d = d by rw [rereadEntries, same, others]
    cases d with
    | number x =>
      have finite : Scalar.isFinite x = true := leaf
      have restored : again? x = some x := by
        rw [again?, Scalar.shortest_eq_decimal finite]
        exact restores x (List.mem_filterMap.mpr ⟨_, List.mem_cons_self, rfl⟩)
      rw [reread]
      exact Document.eq_of_number? ((number?_rereadNumber x).trans restored)
    | truth | text => rfl
    | list | table | moment | null | unusable => cases leaf

/-- The codec of JSON implements its format. -/
theorem implements_codec : (codec : Codec Float).Implements (Scalar.decimal .even) number? := by
  intro tables regular
  refine ⟨render (.ofTables tables), codec_write? _, fun restores => ?_⟩
  rw [codec_read?, read?_render, Document.ofTables, reread]
  refine congrArg (some ∘ Document.table) ?_
  replace regular := regular.entries
  induction tables with
  | nil => rfl
  | cons table tables ih =>
    obtain ⟨name, entries⟩ := table
    obtain ⟨⟨-, leaves⟩, others⟩ := List.forall_mem_cons.mp regular
    rw [Document.numbers, List.flatMap_cons] at restores
    obtain ⟨here, there⟩ := List.forall_mem_append.mp restores
    rw [List.map_cons, rereadEntries, reread, rereadEntries_of_restores leaves here, ih there others]

end Json

namespace Toml

/-- The codec of TOML implements its format, and its reader gives every decimal the number nearest to it. -/
theorem implements_codec : (codec : Codec Float).Implements (Scalar.decimal .away) fun d => some (Scalar.ofDecimal d) := by
  intro tables regular
  refine ⟨render (.ofTables tables), codec_write? _, fun _ => ?_⟩
  rw [codec_read?]
  refine read?_render ⟨regular.names, fun table mem => ?_⟩
  obtain ⟨distinct, leaves⟩ := regular.entries table mem
  refine ⟨distinct, fun entry listed => ?_⟩
  have leaf := leaves entry listed
  obtain ⟨name, d⟩ := entry
  cases d with
  | number x => exact stands_number leaf
  | truth b => exact stands_truth b
  | text s => exact stands_text s
  | list | table | moment | null | unusable => cases leaf

end Toml

namespace Settings.Format

/-- The decimal that the program writes for a number. -/
def decimal : Format → Float → Decimal
  | json => Scalar.decimal .even
  | toml => Scalar.decimal .away

/-- The number that the program reads a decimal as. -/
def number? : Format → Decimal → Option Float
  | json => Json.number?
  | toml => fun d => some (Scalar.ofDecimal d)

theorem implements_codec : ∀ format : Format, (format.codec : Codec Float).Implements format.decimal format.number?
  | json => Json.implements_codec
  | toml => Toml.implements_codec

theorem ofDecimal_decimal : ∀ (format : Format) (x : Float), Scalar.isFinite x = true →
    Scalar.ofDecimal (format.decimal x) = x
  | json, _, finite => Scalar.ofDecimal_decimal finite .even
  | toml, _, finite => Scalar.ofDecimal_decimal finite .away

end Settings.Format

end Seam
