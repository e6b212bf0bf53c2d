import Seam.Command.Basic
import Seam.Text

/-!
Reading a line and writing it. A semicolon at its start makes a comment of it.
Otherwise the first token before any semicolon decides: if it names a tracked
instruction, every further token must be a word, a letter with a number or alone;
if not, the line is kept as it stands. Numbers are written with the places that
the controller resolves, and a zero carries no sign.
-/
namespace Seam

/-- A word as written: the letter and the text of its number, if it has one. -/
structure RawWord where
  letter : Char
  number : Option (List Char)
deriving Repr, DecidableEq

namespace RawWord

/-- Digits of any script with at most one point among them and at least one
    digit on either side of it. -/
def isUnsigned (cs : List Char) : Bool :=
  let whole := cs.takeWhile Text.isDecimalDigit
  match cs.dropWhile Text.isDecimalDigit with
  | [] => !whole.isEmpty
  | '.' :: places => places.all Text.isDecimalDigit && !(whole.isEmpty && places.isEmpty)
  | _ => false

/-- The word that a token is, if it is one. -/
def ofToken? : List Char → Option RawWord
  | [] => none
  | letter :: number =>
    if !letter.isAlpha then none
    else if number.isEmpty then some ⟨letter, none⟩
    else if isUnsigned (Decimal.takeSign number).2 then some ⟨letter, some number⟩
    else none

end RawWord

/-- How many places the number of a letter is written with. -/
def Words.places (letter : Char) : Nat :=
  match letter.toUpper with
  | 'X' | 'Y' | 'Z' | 'I' | 'J' | 'K' | 'R' => 3
  | 'E' => 5
  | _ => 0

namespace Command

variable {α : Type} [Scalar α]

/-- The number of a word: zero if none is written, and none if its digits are
    not those of ASCII. -/
def readNumber? : Option (List Char) → Option α
  | none => some 0
  | some number => Scalar.read? number

/-- The letter and number of a token behind an instruction. -/
def readWord (code : Code) (line : Nat) (token : List Char) : Except (Fault α) (Char × α) :=
  match RawWord.ofToken? token with
  | none =>
    .error (.invalidSyntax line
      ("malformed argument '" ++ String.ofList token ++ "' for " ++ code.name))
  | some word =>
    match readNumber? word.number with
    | some value => .ok (word.letter, value)
    | none =>
      .error (.invalidSyntax line
        ("bad number in '" ++ String.ofList token ++ "': invalid float literal"))

/-- The words behind an instruction. -/
def readWords (code : Code) (line : Nat) (tokens : List (List Char)) : Except (Fault α) (Words α) :=
  tokens.foldlM (fun words token => do
    let (letter, value) ← readWord code line token
    return words.set letter value) Words.empty

/-- Reads the line of the given number. -/
def readLine (line : Nat) (cs : List Char) : Except (Fault α) (Command α) :=
  match cs with
  | ';' :: text => .ok (.comment (String.ofList text))
  | _ =>
    let (head, remark) := Text.cutAt ';' cs
    match Text.tokens head with
    | [] => .ok (.verbatim (String.ofList cs))
    | token :: tokens =>
      match Code.ofToken? token with
      | none => .ok (.verbatim (String.ofList cs))
      | some code => do
        let words ← readWords code line tokens
        return .instruction ⟨code, words, remark.map String.ofList⟩

/-- Reads a text as the line of the given number. -/
def parse (text : String) (line : Nat) : Except (Fault α) (Command α) := readLine line text.toList

def wordText (letter : Char) (value : α) : List Char :=
  letter :: (Scalar.rounded (Words.places letter) value).unsignedZero.text

/-- The text of an instruction: its code, its words and its comment. -/
def instructionText (i : Instruction α) : List Char :=
  i.code.name.toList ++ i.words.entries.flatMap (fun (letter, value) => ' ' :: wordText letter value) ++
    match i.comment with
    | none => []
    | some text => ' ' :: ';' :: text.toList

def chars : Command α → List Char
  | .instruction i => instructionText i
  | .comment text => ';' :: text.toList
  | .verbatim text => text.toList

def render (c : Command α) : String := String.ofList c.chars

end Command

end Seam
