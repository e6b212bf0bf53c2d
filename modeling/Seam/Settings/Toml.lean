import Seam.Settings.Document
import Seam.Text
import Seam.Settings.Toml.Number

/-!
Settings as TOML. The values of the outermost table are written first, then a header
for every table in it, with an empty line between tables. What is read are lines of
comments, headers of tables, and keys with values. A header names a table once; a
table that was only named on the way to another may still get its header, one that
keys with points made may not. Keys with points reach only into tables that were
named on the way, and lists of tables are reached at their last element.
-/
namespace Seam.Toml

/-- An entry of a table that is built up. -/
inductive Node (α : Type) where
  | value (d : Document α)
  /-- A table: was it only named on the way, and by a key with points? -/
  | table (implicit dotted : Bool) (entries : List (String × Node α))
  /-- A list of tables that headers add to. -/
  | tables (elements : List (List (String × Node α)))

variable {α : Type}

abbrev Entries (α : Type) := List (String × Node α)

namespace Entries

/-- Replaces what stands under a name, or adds it; fails where `change` does. -/
def alter (name : String) (change : Option (Node α) → Option (Node α)) : Entries α → Option (Entries α)
  | [] => (change none).map fun node => [(name, node)]
  | (n, node) :: rest =>
    if n = name then (change (some node)).map fun node => (name, node) :: rest
    else (alter name change rest).map ((n, node) :: ·)

/-- Changes the last table of a list. -/
def alterLast (change : Entries α → Option (Entries α)) : List (Entries α) → Option (List (Entries α))
  | [] => none
  | [last] => (change last).map fun last => [last]
  | first :: rest => (alterLast change rest).map (first :: ·)

/-- Changes the table at the end of a path, and makes the tables on the way.
    `viaKey` says that the path belongs to a key with points; `change` is told
    whether the table it changes was made by one, as `dotted` says of the first. -/
def descend (viaKey : Bool) (change : Bool → Entries α → Option (Entries α)) (dotted : Bool) :
    List String → Entries α → Option (Entries α)
  | [], entries => change dotted entries
  | name :: path, entries =>
    alter name (fun
      | none => (descend viaKey change viaKey path []).map (.table true viaKey)
      | some (.value _) => none
      | some (.tables elements) => (alterLast (descend viaKey change false path) elements).map .tables
      | some (.table implicit dotted entries) =>
        if viaKey && !implicit then none
        else (descend viaKey change dotted path entries).map (.table implicit dotted)) entries

/-- Puts a value under a key of at least one part. -/
def put (key : List String) (d : Document α) (entries : Entries α) : Option (Entries α) :=
  match key.getLast? with
  | none => none
  | some name =>
    let path := key.dropLast
    descend true
      (fun dotted entries =>
        if dotted == path.isEmpty then none
        else alter name (fun node => if node.isSome then none else some (.value d)) entries)
      false path entries

/-- Opens the table that a header names. -/
def openTable (key : List String) (entries : Entries α) : Option (Entries α) :=
  match key.getLast? with
  | none => none
  | some name =>
    descend false
      (fun _ => alter name fun
        | none => some (.table false false [])
        | some (.table true false entries) => some (.table false false entries)
        | _ => none)
      false key.dropLast entries

/-- Adds a table to the list of tables that a header names. -/
def openElement (key : List String) (entries : Entries α) : Option (Entries α) :=
  match key.getLast? with
  | none => none
  | some name =>
    descend false
      (fun _ => alter name fun
        | none => some (.tables [[]])
        | some (.tables elements) => some (.tables (elements ++ [[]]))
        | _ => none)
      false key.dropLast entries

/-- Puts a value under a key of the table that the header at `path` has opened. -/
def putUnder (path key : List String) (d : Document α) (entries : Entries α) : Option (Entries α) :=
  descend false (fun _ => put key d) false path entries

mutual
def toDocuments : List (String × Node α) → List (String × Document α)
  | [] => []
  | (name, node) :: rest => (name, toDocument node) :: toDocuments rest

def toDocument : Node α → Document α
  | .value d => d
  | .table _ _ entries => .table (toDocuments entries)
  | .tables elements => .list (elementsToDocuments elements)

def elementsToDocuments : List (List (String × Node α)) → List (Document α)
  | [] => []
  | entries :: rest => .table (toDocuments entries) :: elementsToDocuments rest
end

end Entries

def numberText : Numeral → List Char
  | .finite d => if 0 ≤ d.exponent then d.text ++ ['.', '0'] else d.text
  | .infinite negative => Decimal.signText negative ++ ['i', 'n', 'f']
  | .undefined => ['n', 'a', 'n']

def quoted (s : String) : List Char := Text.quoted (· == '\x7f') s

def keyText (name : String) : List Char :=
  if !name.isEmpty && name.toList.all fun c => c.isAlphanum || c == '-' || c == '_' then name.toList
  else quoted name

variable [Scalar α]

mutual
/-- The text of a value on one line. -/
def chars : Document α → List Char
  | .number value => numberText (Scalar.shortest .away value)
  | .truth value => (if value then "true" else "false").toList
  | .text value => quoted value
  | .list items => '[' :: [',', ' '].intercalate (itemsChars items) ++ [']']
  | .table entries => '\x7b' :: [',', ' '].intercalate (entriesChars entries) ++ ['\x7d']
  | .moment | .null | .unusable => ['"', '"']

def itemsChars : List (Document α) → List (List Char)
  | [] => []
  | d :: rest => chars d :: itemsChars rest

def entriesChars : List (String × Document α) → List (List Char)
  | [] => []
  | (name, d) :: rest => (keyText name ++ [' ', '=', ' '] ++ chars d) :: entriesChars rest
end

/-- The lines of entries that are no tables of their own. -/
def linesOf (entries : List (String × Document α)) : List Char :=
  (entriesChars entries).flatMap (· ++ ['\n'])

/-- A table with its header. -/
def tableText (name : String) (entries : List (String × Document α)) : List Char :=
  '[' :: keyText name ++ [']', '\n'] ++ linesOf entries

/-- The entries of a table that are tables. -/
def tablesOf (entries : List (String × Document α)) : List (String × List (String × Document α)) :=
  entries.filterMap fun
    | (name, .table inner) => some (name, inner)
    | _ => none

/-- The entries of a table that are no tables. -/
def valuesOf (entries : List (String × Document α)) : List (String × Document α) :=
  entries.filter fun
    | (_, .table _) => false
    | _ => true

def render : Document α → String
  | .table entries =>
    let values := valuesOf entries
    let parts := (if values.isEmpty then [] else [linesOf values]) ++
      (tablesOf entries).map fun (name, inner) => tableText name inner
    String.ofList (['\n'].intercalate parts)
  | d => String.ofList (chars d)

def comment : Scan Unit := do
  if ← Scan.accept ['#'] then Scan.skipWhile isPrintable

/-- Takes the rest of a line, which holds blanks and a comment at most. -/
def lineEnd : Scan Unit := do
  blanks
  comment
  if !(← newline) && !(← Scan.atEnd) then failure

/-- Passes over blanks, ends of lines and comments, at most `budget` lines. -/
def gap : Nat → Scan Unit
  | 0 => return ()
  | budget + 1 => do
    blanks
    if (← Scan.peek?) == some '#' then
      comment
      if ← newline then gap budget else failure
    else if ← newline then gap budget

/-- Passes over all that may stand between the items of a list. -/
def gaps : Scan Unit := do gap ((← get).length + 1)

def numberOrMoment : Scan (Document α) :=
  (do moment; return .moment) <|> (return .number (← float)) <|> (return .number (ofInt (← integer)))

/-- A list behind its bracket. -/
def list (value : Scan (Document α)) : Scan (Document α) := do
  let budget := (← get).length
  gaps
  if ← Scan.accept [']'] then return .list []
  let item : Scan (Document α) := do
    gaps
    let d ← value
    gaps
    return d
  -- A comma may also stand behind the last item.
  let separator : Scan Bool := do
    if ← Scan.accept [','] then
      let rest ← get
      gaps
      if (← Scan.peek?) == some ']' then return false
      set rest
      return true
    else return false
  return .list (← Scan.items item separator (Scan.accept [']']) budget)

/-- A table behind its brace, all on one line. -/
def inlineTable (value : Scan (Document α)) : Scan (Document α) := do
  let budget := (← get).length
  blanks
  if ← Scan.accept ['\x7d'] then return .table []
  let entry : Scan (List String × Document α) := do
    let name ← key
    Scan.expect ['=']
    blanks
    let d ← value
    blanks
    return (name, d)
  let entries ← Scan.items entry (Scan.accept [',']) (Scan.accept ['\x7d']) budget
  let tree ← entries.foldlM (fun tree (name, d) => Entries.put name d tree) ([] : Entries α)
  return .table (Entries.toDocuments tree)

/-- A value with fewer than `depth` lists and tables inside one another. -/
def value : Nat → Scan (Document α)
  | 0 => failure
  | depth + 1 => do
    match ← Scan.peek? with
    | some '"' | some '\'' => return .text (← text)
    | some '[' =>
      if depth = 0 then failure
      Scan.expect ['[']
      list (value depth)
    | some '\x7b' =>
      if depth = 0 then failure
      Scan.expect ['\x7b']
      inlineTable (value depth)
    | some 't' =>
      Scan.expect ['t', 'r', 'u', 'e']
      return .truth true
    | some 'f' =>
      Scan.expect ['f', 'a', 'l', 's', 'e']
      return .truth false
    | some 'i' | some 'n' => return .number (Scalar.ofNumeral (← special))
    | _ => numberOrMoment

/-- A line, or several that belong to one value, added to the tables read so
    far; also the path of the table that keys go into. -/
def line (path : List String) (tree : Entries α) : Scan (List String × Entries α) := do
  match ← Scan.peek? with
  | some '#' | some '\n' | some '\r' =>
    lineEnd
    return (path, tree)
  | some '[' =>
    if ← Scan.accept ['[', '['] then
      let name ← key
      Scan.expect [']', ']']
      lineEnd
      return (name, ← Entries.openElement name tree)
    else
      Scan.expect ['[']
      let name ← key
      Scan.expect [']']
      lineEnd
      return (name, ← Entries.openTable name tree)
  | _ =>
    let name ← key
    Scan.expect ['=']
    blanks
    let d ← value depthLimit
    lineEnd
    return (path, ← Entries.putUnder path name d tree)

/-- At most `budget` lines to the end of the text. -/
def lines (path : List String) (tree : Entries α) : Nat → Scan (Entries α)
  | 0 => failure
  | budget + 1 => do
    blanks
    if ← Scan.atEnd then return tree
    let (path, tree) ← line path tree
    lines path tree budget

/-- The document that a text of TOML is. A mark of the order of bytes may stand
    before it. -/
def read? (source : String) : Option (Document α) :=
  let cs := source.toList
  let body := if cs.head? = some '\ufeff' then cs.drop 1 else cs
  (Scan.run? (lines [] [] (body.length + 1)) body).map fun tree => .table (Entries.toDocuments tree)

/-- Records may have more items than fields, and a choice that is a key stands
    before something empty. -/
def dialect : Document.Dialect α where
  surplusItems := true
  isUnit
    | .table [] | .list [] => true
    | _ => false

def codec : Codec α := ⟨dialect, fun d => some (render d), read?⟩

@[simp] theorem codec_write? (d : Document α) : (codec : Codec α).write? d = some (render d) := rfl

@[simp] theorem codec_read? : (codec : Codec α).read? = read? := rfl

end Seam.Toml
