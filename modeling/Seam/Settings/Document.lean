import Seam.Number.Scalar

/-!
What a settings file holds, whatever format it is written in: numbers, truth
values, texts, lists and tables. A record may be written as a table of its
fields or as a list of them in their order.
-/
namespace Seam

/-- The contents of a settings file. -/
inductive Document (α : Type) where
  | number (value : α)
  | truth (value : Bool)
  | text (value : String)
  | list (items : List (Document α))
  | table (entries : List (String × Document α))
  /-- A date or a time. -/
  | moment
  /-- The absence of a value. -/
  | null
  /-- A value that no setting can have. -/
  | unusable

namespace Document

variable {α : Type}

/-- How a format writes records and choices. -/
structure Dialect (α : Type) where
  /-- Are items behind the fields of a record passed over? -/
  surplusItems : Bool
  /-- What may stand behind a choice that is written as a table's only key. -/
  isUnit : Document α → Bool

def number? : Document α → Option α
  | .number value => some value
  | _ => none

def truth? : Document α → Option Bool
  | .truth value => some value
  | _ => none

/-- The word that a choice is written as. -/
def choice? (dialect : Dialect α) : Document α → Option String
  | .text name => some name
  | .table [(name, content)] => if dialect.isUnit content then some name else none
  | _ => none

/-- The values of the named fields of a record, where they are given. No field
    may be given twice, and other fields are passed over. A date or a time
    counts as a record that gives no field. -/
def fields? (dialect : Dialect α) (names : List String) : Document α → Option (List (Option (Document α)))
  | .table entries =>
    if names.any fun name => 1 < entries.countP (·.1 == name) then none
    else some (names.map fun name => entries.lookup name)
  | .list items =>
    if !dialect.surplusItems && names.length < items.length then none
    else some ((List.range names.length).map fun i => items[i]?)
  | .moment => some (names.map fun _ => none)
  | _ => none

/-- The value of a field: the one that is given must be usable, and one that is
    not given has its standard. -/
def fieldD {β : Type} (read? : Document α → Option β) (standard : β) : Option (Document α) → Option β
  | none => some standard
  | some d => read? d

end Document

/-- How documents are written as texts, and read from them. -/
structure Codec (α : Type) where
  dialect : Document.Dialect α
  /-- The text of a document, if it can be written. -/
  write? : Document α → Option String
  read? : String → Option (Document α)

/-- The codecs that settings are written and read with. -/
class Codecs (α : Type) where
  json : Codec α
  toml : Codec α

end Seam
