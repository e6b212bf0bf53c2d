import Seam.Text

/-!
The texts of TOML: bare keys, and texts between one or three quotation marks or
apostrophes. Between quotation marks a backslash changes the character behind
it; between apostrophes everything stands for itself.
-/
namespace Seam.Toml

/-- Blanks inside a line. -/
def isBlank (c : Char) : Bool := c == ' ' || c == '\t'

/-- Characters that may stand in a comment. -/
def isPrintable (c : Char) : Bool := c == '\t' || (0x20 ≤ c.toNat && c.toNat != 0x7F)

/-- Characters of keys without quotation marks. -/
def isBare (c : Char) : Bool := c.isAlphanum || c == '-' || c == '_'

def blanks : Scan Unit := Scan.skipWhile isBlank

/-- Takes the end of a line if it is there. -/
def newline : Scan Bool := fun
  | '\n' :: rest => some (true, rest)
  | '\r' :: '\n' :: rest => some (true, rest)
  | cs => some (false, cs)

/-- The character with a number, which must be one of Unicode's characters. -/
def scalar? (n : Nat) : Option Char :=
  if n < 0xD800 || (0xE000 ≤ n && n < 0x110000) then some (Char.ofNat n) else none

def cons (c : Char) (found : Option (List Char × List Char)) : Option (List Char × List Char) :=
  found.map fun (cs, rest) => (c :: cs, rest)

/-- A text behind its quotation mark, on one line. -/
def basic : List Char → Option (List Char × List Char)
  | [] => none
  | '"' :: rest => some ([], rest)
  | '\\' :: 'u' :: a :: b :: c :: d :: rest => do
    cons (← scalar? (← Text.ofHex? [a, b, c, d])) (basic rest)
  | '\\' :: 'U' :: a :: b :: c :: d :: e :: f :: g :: h :: rest => do
    cons (← scalar? (← Text.ofHex? [a, b, c, d, e, f, g, h])) (basic rest)
  | '\\' :: c :: rest => do cons (← Text.ofLetter? c) (basic rest)
  | c :: rest => if isPrintable c && c != '\\' then cons c (basic rest) else none

/-- A text behind its apostrophe, on one line. -/
def literal : List Char → Option (List Char × List Char)
  | [] => none
  | '\'' :: rest => some ([], rest)
  | c :: rest => if isPrintable c then cons c (literal rest) else none

/-- Does a line end here, behind blanks? -/
def endsLine (cs : List Char) : Bool :=
  match cs.dropWhile isBlank with
  | '\n' :: _ | '\r' :: '\n' :: _ => true
  | _ => false

/-- A text behind its three quotation marks, of which two more may stand right
    before the three that end it. Behind a backslash that ends a line, blanks and
    ends of lines are passed over; `skipping` says that this is going on. -/
def multilineBasic (skipping : Bool) : List Char → Option (List Char × List Char)
  | [] => none
  | '"' :: '"' :: '"' :: '"' :: '"' :: rest => some (['"', '"'], rest)
  | '"' :: '"' :: '"' :: '"' :: rest => some (['"'], rest)
  | '"' :: '"' :: '"' :: rest => some ([], rest)
  | '\r' :: '\n' :: rest =>
    if skipping then multilineBasic true rest else cons '\n' (multilineBasic false rest)
  | '\n' :: rest => if skipping then multilineBasic true rest else cons '\n' (multilineBasic false rest)
  | '\\' :: 'u' :: a :: b :: c :: d :: rest => do
    cons (← scalar? (← Text.ofHex? [a, b, c, d])) (multilineBasic false rest)
  | '\\' :: 'U' :: a :: b :: c :: d :: e :: f :: g :: h :: rest => do
    cons (← scalar? (← Text.ofHex? [a, b, c, d, e, f, g, h])) (multilineBasic false rest)
  | '\\' :: c :: rest =>
    if endsLine (c :: rest) then multilineBasic true (c :: rest)
    else do cons (← Text.ofLetter? c) (multilineBasic false rest)
  | c :: rest =>
    if isBlank c && skipping then multilineBasic true rest
    else if isPrintable c && c != '\\' then cons c (multilineBasic false rest)
    else none

/-- A text behind its three apostrophes, of which two more may stand right
    before the three that end it. -/
def multilineLiteral : List Char → Option (List Char × List Char)
  | [] => none
  | '\'' :: '\'' :: '\'' :: '\'' :: '\'' :: rest => some (['\'', '\''], rest)
  | '\'' :: '\'' :: '\'' :: '\'' :: rest => some (['\''], rest)
  | '\'' :: '\'' :: '\'' :: rest => some ([], rest)
  | '\r' :: '\n' :: rest => cons '\n' (multilineLiteral rest)
  | '\n' :: rest => cons '\n' (multilineLiteral rest)
  | c :: rest => if isPrintable c then cons c (multilineLiteral rest) else none

/-- The characters of a text of any kind. An end of line right behind three
    opening marks does not belong to them. -/
def characters : Scan (List Char) := do
  if ← Scan.accept ['"', '"', '"'] then
    let _ ← newline
    multilineBasic false
  else if ← Scan.accept ['\'', '\'', '\''] then
    let _ ← newline
    multilineLiteral
  else if ← Scan.accept ['"'] then basic
  else
    Scan.expect ['\'']
    literal

/-- A text of any kind. -/
def text : Scan String := do return String.ofList (← characters)

def simpleKey : Scan String := do
  match ← Scan.peek? with
  | some '"' =>
    Scan.expect ['"']
    return String.ofList (← basic)
  | some '\'' =>
    Scan.expect ['\'']
    return String.ofList (← literal)
  | _ => return String.ofList (← Scan.takeWhile1 isBare)

/-- How deep values may be nested, and how many parts a key may have. -/
def depthLimit : Nat := 80

/-- A key of parts with points between them. -/
def key : Scan (List String) := do
  let budget := (← get).length
  let part : Scan String := do
    blanks
    let name ← simpleKey
    blanks
    return name
  let parts ← Scan.items part (Scan.accept ['.']) (return true) budget
  if parts.length < depthLimit then return parts else failure

end Seam.Toml
