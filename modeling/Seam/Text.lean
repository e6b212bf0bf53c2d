/-!
Texts as lists of characters: their lines, the pieces between blanks, the digits of
all scripts, texts between quotation marks, and scanners, which take characters
from the front of a text or fail.
-/
namespace Seam.Text

/-- A text cut at every separator: one piece more than there are separators. -/
def splitOn (sep : Char) (cs : List Char) : List (List Char) :=
  let (line, lines) := cs.foldr
    (fun c (line, lines) => if c = sep then ([], line :: lines) else (c :: line, lines)) ([], [])
  line :: lines

/-- The text before the first `c`, and the text behind it if there is one. -/
def cutAt (c : Char) (cs : List Char) : List Char × Option (List Char) :=
  match cs.dropWhile (· != c) with
  | [] => (cs.takeWhile (· != c), none)
  | _ :: r => (cs.takeWhile (· != c), some r)

/-- Does a carriage return stand right before a newline anywhere? -/
def hasCrlf : List Char → Bool
  | [] => false
  | '\r' :: '\n' :: _ => true
  | _ :: cs => hasCrlf cs

/-- The text without a `c` at its very end. -/
def dropLast? (c : Char) (cs : List Char) : List Char :=
  if cs.getLast? = some c then cs.dropLast else cs

/-- The code points with the property White_Space. -/
def isBlank (c : Char) : Bool :=
  let n := c.toNat
  (0x09 ≤ n && n ≤ 0x0D) || n == 0x20 || n == 0x85 || n == 0xA0 || n == 0x1680 ||
    (0x2000 ≤ n && n ≤ 0x200A) || n == 0x2028 || n == 0x2029 || n == 0x202F || n == 0x205F ||
    n == 0x3000

/-- Puts a token in front of others unless it is empty. -/
def keep (token : List Char) (tokens : List (List Char)) : List (List Char) :=
  if token.isEmpty then tokens else token :: tokens

/-- The token that a text starts with and the tokens after it. -/
def scan (cs : List Char) : List Char × List (List Char) :=
  cs.foldr (fun c (token, tokens) => if isBlank c then ([], keep token tokens) else (c :: token, tokens))
    ([], [])

/-- The pieces of a text between its blanks, none of them empty. -/
def tokens (cs : List Char) : List (List Char) := keep (scan cs).1 (scan cs).2

@[simp] theorem tokens_nil : tokens [] = [] := rfl

theorem scan_cons (c : Char) (cs : List Char) :
    scan (c :: cs) = if isBlank c then ([], tokens cs) else (c :: (scan cs).1, (scan cs).2) := rfl

theorem tokens_blank {c : Char} (cs : List Char) (blank : isBlank c = true) :
    tokens (c :: cs) = tokens cs := by
  simp [tokens, scan_cons, blank, keep]

/-- The code points of the zeros. The digits of the Unicode category Nd come in rows of ten that begin with one. -/
def zeros : List Nat :=
  [0x0030, 0x0660, 0x06F0, 0x07C0, 0x0966, 0x09E6, 0x0A66, 0x0AE6, 0x0B66, 0x0BE6,
   0x0C66, 0x0CE6, 0x0D66, 0x0DE6, 0x0E50, 0x0ED0, 0x0F20, 0x1040, 0x1090, 0x17E0,
   0x1810, 0x1946, 0x19D0, 0x1A80, 0x1A90, 0x1B50, 0x1BB0, 0x1C40, 0x1C50, 0xA620,
   0xA8D0, 0xA900, 0xA9D0, 0xA9F0, 0xAA50, 0xABF0, 0xFF10, 0x104A0, 0x10D30, 0x10D40,
   0x11066, 0x110F0, 0x11136, 0x111D0, 0x112F0, 0x11450, 0x114D0, 0x11650, 0x116C0, 0x116D0,
   0x116DA, 0x11730, 0x118E0, 0x11950, 0x11BF0, 0x11C50, 0x11D50, 0x11DA0, 0x11F50, 0x16130,
   0x16A60, 0x16AC0, 0x16B50, 0x16D70, 0x1CCF0, 0x1D7CE, 0x1D7D8, 0x1D7E2, 0x1D7EC, 0x1D7F6,
   0x1E140, 0x1E2F0, 0x1E4F0, 0x1E5F1, 0x1E950, 0x1FBF0]

/-- A decimal digit of some script. -/
def isDecimalDigit (c : Char) : Bool := zeros.any fun z => z ≤ c.toNat && c.toNat < z + 10

theorem isDecimalDigit_of_isDigit {c : Char} (digit : c.isDigit = true) : isDecimalDigit c = true := by
  simp only [Char.isDigit, Bool.and_eq_true, decide_eq_true_eq] at digit
  have low : 48 ≤ c.toNat := UInt32.le_iff_toNat_le.mp digit.1
  have high : c.toNat ≤ 57 := UInt32.le_iff_toNat_le.mp digit.2
  refine List.any_eq_true.mpr ⟨0x30, List.mem_cons_self, ?_⟩
  simp only [Bool.and_eq_true, decide_eq_true_eq]
  omega

def hexValue? (c : Char) : Option Nat :=
  if c.isDigit then some (c.toNat - '0'.toNat)
  else if 'a' ≤ c && c ≤ 'f' then some (c.toNat - 'a'.toNat + 10)
  else if 'A' ≤ c && c ≤ 'F' then some (c.toNat - 'A'.toNat + 10)
  else none

/-- The number that hexadecimal digits denote. -/
def ofHex? (cs : List Char) : Option Nat :=
  cs.foldlM (fun n c => (hexValue? c).map (16 * n + ·)) 0

def hexDigit (n : Nat) : Char := (Nat.toDigits 16 (n % 16)).headD '0'

/-- The letters that may stand behind a backslash, with their characters. -/
def letters : List (Char × Char) :=
  [('"', '"'), ('\\', '\\'), ('b', '\x08'), ('f', '\x0c'), ('n', '\n'), ('r', '\r'), ('t', '\t')]

/-- The character that a letter behind a backslash stands for. -/
def ofLetter? (letter : Char) : Option Char := letters.lookup letter

/-- The letter that stands for a character behind a backslash. -/
def letter? (c : Char) : Option Char := (letters.find? (·.2 == c)).map (·.1)

/-- A character as it stands in a text: those below the blank, and others that
    are `hidden`, have a letter or a number. -/
def escape (hidden : Char → Bool) (c : Char) : List Char :=
  match letter? c with
  | some letter => ['\\', letter]
  | none =>
    if c.toNat < 0x20 || hidden c then
      ['\\', 'u', '0', '0', hexDigit (c.toNat / 16), hexDigit c.toNat]
    else [c]

/-- A text between quotation marks. -/
def quoted (hidden : Char → Bool) (s : String) : List Char := '"' :: s.toList.flatMap (escape hidden) ++ ['"']

/-- A letter stands for the character that it is written for. -/
theorem ofLetter?_of_letter? {c letter : Char} (written : letter? c = some letter) :
    ofLetter? letter = some c := by
  obtain ⟨entry, found, rfl⟩ := Option.map_eq_some_iff.mp written
  have listed : ∀ entry ∈ letters, letters.lookup entry.1 = some entry.2 := by decide
  have same := List.find?_some found
  rw [← beq_iff_eq.mp same]
  exact listed entry (List.mem_of_find?_eq_some found)

end Seam.Text

namespace Seam

/-- A reader of the front of a text. -/
abbrev Scan := StateT (List Char) Option

namespace Scan

/-- The next character, left where it is. -/
def peek? : Scan (Option Char) := fun cs => some (cs.head?, cs)

/-- The longest run of characters with a property. -/
def takeWhile (p : Char → Bool) : Scan (List Char) := fun cs => some (cs.takeWhile p, cs.dropWhile p)

def skipWhile (p : Char → Bool) : Scan Unit := fun cs => some ((), cs.dropWhile p)

/-- At least one character with a property, and as many as there are. -/
def takeWhile1 (p : Char → Bool) : Scan (List Char) := do
  let taken ← takeWhile p
  if taken.isEmpty then failure else return taken

def expect (text : List Char) : Scan Unit := fun cs => (text.isPrefixOf? cs).map fun rest => ((), rest)

def accept (text : List Char) : Scan Bool := fun cs =>
  match text.isPrefixOf? cs with
  | some rest => some (true, rest)
  | none => some (false, cs)

def one (p : Char → Bool) : Scan Char := fun
  | [] => none
  | c :: cs => if p c then some (c, cs) else none

def atEnd : Scan Bool := fun cs => some (cs.isEmpty, cs)

/-- What the scanner makes of a text, all of which it must take. -/
def run? {β : Type} (s : Scan β) (cs : List Char) : Option β :=
  match s cs with
  | some (result, []) => some result
  | _ => none

/-- The elements of a list of at most `budget` of them, up to a closing
    character: elements with a separator between them, each scanned by
    `element`. -/
def items {β : Type} (element : Scan β) (separator closing : Scan Bool) : Nat → Scan (List β)
  | 0 => failure
  | budget + 1 => do
    let first ← element
    if ← separator then return first :: (← items element separator closing budget)
    else if ← closing then return [first]
    else failure

end Scan

end Seam
