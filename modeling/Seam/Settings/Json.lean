import Seam.Number.Scalar
import Seam.Text
import Seam.Settings.Document

/-!
Settings as JSON. The whole text must be one value. What is passed over, because
no setting has its name, must be well formed, but its numbers may be too large and
its texts need not denote characters. A numeral is read into a whole number of 64
bits, whose digits are taken as long as they fit, and a power of ten, by which it is
multiplied or divided once. What is written has one entry on a line, and its numbers
have the fewest digits that denote them.
-/
namespace Seam.Json

/-- The positions of the point, counted from before the first digit, that are
    written without a power of ten: above the first bound, up to the second. -/
def positional : Int × Int := (-5, 16)

/-- A decimal in full, with a point even if it is whole. -/
def withPoint (d : Decimal) : List Char :=
  if 0 ≤ d.exponent then d.text ++ ['.', '0'] else d.text

/-- A whole number behind its sign, which stands there even if it is plus. -/
def signed (n : Int) : List Char :=
  (if n < 0 then '-' else '+') :: Nat.toDigits 10 n.natAbs

/-- A decimal with its point behind the first digit and a power of ten, whose
    sign is always written. -/
def scientific (d : Decimal) : List Char :=
  let ds := Nat.toDigits 10 d.digits
  let mantissa := match ds with
    | first :: second :: rest => first :: '.' :: second :: rest
    | single => single
  let power : Int := d.exponent + ds.length - 1
  Decimal.signText d.negative ++ mantissa ++ 'e' :: signed power

def decimalText (d : Decimal) : List Char :=
  let point : Int := (Nat.toDigits 10 d.digits).length + d.exponent
  if d.digits = 0 || (positional.1 < point && point ≤ positional.2) then withPoint d else scientific d

/-- The text of a number; what is no finite number is written as nothing. -/
def numberText : Numeral → List Char
  | .finite d => decimalText d
  | _ => ['n', 'u', 'l', 'l']

def quoted (s : String) : List Char := Text.quoted (fun _ => false) s

/-- A new line so many levels in. -/
def newline (level : Nat) : List Char := '\n' :: List.replicate (2 * level) ' '

/-- Parts between brackets, each on a line of its own. -/
def bracketed (opening closing : Char) (level : Nat) (parts : List (List Char)) : List Char :=
  if parts.isEmpty then [opening, closing]
  else
    opening :: [','].intercalate (parts.map fun part => newline (level + 1) ++ part) ++
      newline level ++ [closing]

variable {α : Type} [Scalar α]

mutual
/-- The text of a document so many levels in. -/
def chars (level : Nat) : Document α → List Char
  | .number value => numberText (Scalar.shortest .even value)
  | .truth value => (if value then "true" else "false").toList
  | .text value => quoted value
  | .list items => bracketed '[' ']' level (itemsChars (level + 1) items)
  | .table entries => bracketed '\x7b' '\x7d' level (entriesChars (level + 1) entries)
  | .moment | .null | .unusable => ['n', 'u', 'l', 'l']

def itemsChars (level : Nat) : List (Document α) → List (List Char)
  | [] => []
  | d :: rest => chars level d :: itemsChars level rest

def entriesChars (level : Nat) : List (String × Document α) → List (List Char)
  | [] => []
  | (name, d) :: rest => (quoted name ++ [':', ' '] ++ chars level d) :: entriesChars level rest
end

def render (d : Document α) : String := String.ofList (chars 0 d)

/-- A numeral as written: sign, digits, and what stands behind the point and
    behind the exponent's letter. -/
structure Numeral where
  negative : Bool
  whole : List Char
  places : List Char
  exponentNegative : Bool
  exponent : List Char
deriving Repr, DecidableEq

namespace Numeral

/-- The exponent behind its letter, if there is one: its sign, `true` for a minus,
    and its digits. -/
def scanExponent : Scan (Bool × List Char) := do
  match ← Scan.peek? with
  | some 'e' | some 'E' =>
    let _ ← Scan.one fun _ => true
    let minus ← Scan.accept ['-']
    if !minus then let _ ← Scan.accept ['+']
    return (minus, ← Scan.takeWhile1 Char.isDigit)
  | _ => return (false, [])

/-- A numeral: no zero before other digits, and digits on both sides of a
    point. -/
def scan : Scan Numeral := do
  let negative ← Scan.accept ['-']
  let whole ← Scan.takeWhile1 Char.isDigit
  if whole.head? == some '0' && whole.length != 1 then failure
  let places ← if ← Scan.accept ['.'] then Scan.takeWhile1 Char.isDigit else pure []
  let (exponentNegative, exponent) ← scanExponent
  return ⟨negative, whole, places, exponentNegative, exponent⟩

/-- Takes digits into a whole number as long as it fits into 64 bits; also the
    digits that are left. -/
def absorb (n : Nat) : List Char → Nat × List Char
  | [] => (n, [])
  | c :: cs =>
    let next := 10 * n + Decimal.ofDigits [c]
    if next < Nat.pow 2 64 then absorb next cs else (n, c :: cs)

/-- A number multiplied by a power of ten, or divided by it in portions that the
    numbers can hold. -/
def scale? (f : α) (e : Int) : Option α :=
  if e < -308 then
    if f == 0 then some f else scale? (f / Scalar.ofDecimal ⟨false, 1, 308⟩) (e + 308)
  else if e < 0 then some (f / Scalar.ofDecimal ⟨false, 1, -e⟩)
  else if 308 < e then if f == 0 then some f else none
  else
    let product := f * Scalar.ofDecimal ⟨false, 1, e⟩
    if Scalar.isFinite product then some product else none
termination_by e.natAbs
decreasing_by omega

/-- What the numeral denotes. -/
def value? (n : Numeral) : Option α :=
  let (w, cutWhole) := absorb 0 n.whole
  let (f, cutPlaces) := absorb w n.places
  let shift : Int := cutWhole.length - (n.places.length - cutPlaces.length : Nat)
  let exponent : Int := Decimal.ofDigits n.exponent
  let magnitude? : Option α :=
    if exponent < Int.pow 2 31 then
      scale? (Scalar.ofNat f) (if n.exponentNegative then shift - exponent else shift + exponent)
    else if f = 0 ∨ n.exponentNegative then some 0
    else none
  magnitude?.map fun m => if n.negative then Scalar.negate m else m

end Numeral

/-- What may stand between the parts of a value. -/
def isBlank (c : Char) : Bool := c == ' ' || c == '\t' || c == '\n' || c == '\r'

def blanks : Scan Unit := Scan.skipWhile isBlank

/-- A piece of a text as written. -/
inductive Piece where
  | char (c : Char)
  /-- A unit of UTF-16 given by its number. -/
  | unit (n : Nat)
deriving Repr, DecidableEq

/-- The character that a sign behind a backslash stands for. -/
def escaped? (c : Char) : Option Char := if c == '/' then some c else Text.ofLetter? c

/-- The pieces of a text up to the quotation mark that ends it, and what follows. -/
def pieces : List Char → Option (List Piece × List Char)
  | [] => none
  | '"' :: rest => some ([], rest)
  | '\\' :: 'u' :: a :: b :: c :: d :: rest => do
    let unit ← Text.ofHex? [a, b, c, d]
    let (more, rest) ← pieces rest
    return (.unit unit :: more, rest)
  | '\\' :: c :: rest => do
    let char ← escaped? c
    let (more, rest) ← pieces rest
    return (.char char :: more, rest)
  | c :: rest =>
    if c.toNat < 0x20 || c == '\\' then none
    else do
      let (more, rest) ← pieces rest
      return (.char c :: more, rest)

/-- The characters that pieces denote: units that are halves of a pair must
    stand together in their order. -/
def characters? : List Piece → Option (List Char)
  | [] => some []
  | .char c :: rest => (characters? rest).map (c :: ·)
  | .unit high :: .unit low :: rest =>
    if 0xD800 ≤ high && high < 0xDC00 then
      if 0xDC00 ≤ low && low < 0xE000 then
        (characters? rest).map (Char.ofNat (0x10000 + (high - 0xD800) * 0x400 + (low - 0xDC00)) :: ·)
      else none
    else if 0xDC00 ≤ high && high < 0xE000 then none
    else (characters? (.unit low :: rest)).map (Char.ofNat high :: ·)
  | .unit n :: rest =>
    if 0xD800 ≤ n && n < 0xE000 then none else (characters? rest).map (Char.ofNat n :: ·)

/-- A text behind its first quotation mark; nothing if it denotes no characters. -/
def string : Scan (Option String) := fun cs =>
  (pieces cs).map fun (ps, rest) => ((characters? ps).map String.ofList, rest)

/-- A separator between values, with the blanks around it. -/
def mark (c : Char) : Scan Bool := do
  blanks
  Scan.accept [c]

/-- A table of its entries; it is not usable if one of the names is no text. -/
def tableOf (entries : List (Option String × Document α)) : Document α :=
  match entries.mapM fun (name, value) => name.map fun name => (name, value) with
  | some entries => .table entries
  | none => .unusable

/-- An entry of a table whose values are scanned by `value`. -/
def entry (value : Scan (Document α)) : Scan (Option String × Document α) := do
  blanks
  Scan.expect ['"']
  let name ← string
  if ← mark ':' then return (name, ← value) else failure

/-- A value nested at most `depth` deep. -/
def value : Nat → Scan (Document α)
  | 0 => failure
  | depth + 1 => do
    blanks
    let budget := (← get).length
    match ← Scan.peek? with
    | some '\x7b' =>
      Scan.expect ['\x7b']
      if ← mark '\x7d' then return .table []
      else return tableOf (← Scan.items (entry (value depth)) (mark ',') (mark '\x7d') budget)
    | some '[' =>
      Scan.expect ['[']
      if ← mark ']' then return .list []
      else return .list (← Scan.items (value depth) (mark ',') (mark ']') budget)
    | some '"' =>
      Scan.expect ['"']
      return (← string).elim .unusable .text
    | some 't' =>
      Scan.expect ['t', 'r', 'u', 'e']
      return .truth true
    | some 'f' =>
      Scan.expect ['f', 'a', 'l', 's', 'e']
      return .truth false
    | some 'n' =>
      Scan.expect ['n', 'u', 'l', 'l']
      return .null
    | _ => return (← Numeral.scan).value?.elim .unusable .number

/-- The document that a text of JSON is. -/
def read? (text : String) : Option (Document α) :=
  let cs := text.toList
  Scan.run? (do let d ← value (cs.length + 1); blanks; return d) cs

/-- Records have no more items than fields, and a choice that is a key stands
    before `null`. -/
def dialect : Document.Dialect α where
  surplusItems := false
  isUnit
    | .null => true
    | _ => false

def codec : Codec α := ⟨dialect, fun d => some (render d), read?⟩

@[simp] theorem codec_write? (d : Document α) : (codec : Codec α).write? d = some (render d) := rfl

@[simp] theorem codec_read? : (codec : Codec α).read? = read? := rfl

end Seam.Json
