import Seam.Text

/-!
Files: paths as texts, what a run needs of its surroundings, and a tree of files
as a value, with all that was printed. Paths are names with slashes between them.
Those that start with a slash lead from the root, and all others from the current
directory. Empty names and names of a single point lead nowhere, and two points
lead to the directory above.
-/
namespace Seam.Path

/-- The names that a path leads through. -/
def names (path : String) : List (List Char) :=
  (Text.splitOn '/' path.toList).filter fun name => name != [] && name != ['.']

def isAbsolute (path : String) : Bool := path.toList.head? == some '/'

/-- Does the path say that it leads to a directory? -/
def namesDirectory (path : String) : Bool :=
  match (Text.splitOn '/' path.toList).getLast? with
  | some [] | some ['.'] | some ['.', '.'] => true
  | _ => false

/-- Can a file or a directory have the name? It must not be longer than 255
    bytes, nor hold a zero. -/
def isName (name : List Char) : Bool :=
  (String.ofList name).utf8ByteSize ≤ 255 && !name.contains '\x00'

/-- Can the path be followed at all? It must not be longer than 4095 bytes,
    however few names it leads through. -/
def isFollowable (path : String) : Bool := path.utf8ByteSize ≤ 4095

def ofNames (absolute : Bool) (names : List (List Char)) : String :=
  String.ofList ((if absolute then ['/'] else []) ++ ['/'].intercalate names)

/-- The name of the file, if the path ends in one. -/
def fileName? (path : String) : Option (List Char) :=
  match (names path).getLast? with
  | some ['.', '.'] => none
  | other => other

/-- What stands behind the last point of the file's name, if something stands
    before that point. -/
def extension? (path : String) : Option String := do
  let name ← fileName? path
  let behind := (name.reverse.takeWhile (· != '.')).reverse
  match name.take (name.length - behind.length) with
  | [] | ['.'] => none
  | _ => some (String.ofList behind)

/-- The path of the directory that holds the file, unless it is the current
    one. -/
def parent? (path : String) : Option String :=
  match (names path).dropLast with
  | [] => none
  | parents => some (ofNames (isAbsolute path) parents)

end Seam.Path

namespace Seam

/-- Files that can be read and written by their paths, and a place to print to. Where something cannot be done, only
    that is told. -/
class Files (m : Type → Type) where
  /-- The text of a file, if it can be read. -/
  read? : String → m (Option String)
  /-- Writes a file anew; `false` if it cannot be written. -/
  write : String → String → m Bool
  /-- Makes a directory and those above it; `false` if one cannot be made. -/
  createDirectories : String → m Bool
  /-- Does the path lead to a file? -/
  isFile : String → m Bool
  /-- Prints a text; `false` if it cannot be printed. -/
  print : String → m Bool

/-- The names that lead to a file or a directory from the root. -/
abbrev Place := List (List Char)

/-- Directories, files with their texts, and what was printed. -/
structure Disk where
  /-- The directory where paths start; it is there, with those above it. -/
  current : Place
  directories : List Place
  files : List (Place × String)
  printed : String
deriving Repr, DecidableEq

namespace Disk

def empty (current : String) : Disk := ⟨Path.names current, [], [], ""⟩

def isDirectory (d : Disk) (place : Place) : Bool :=
  place.isPrefixOf d.current || d.directories.contains place

def file? (d : Disk) (place : Place) : Option String := d.files.lookup place

/-- The place where a path starts. -/
def origin (d : Disk) (path : String) : Place := if Path.isAbsolute path then [] else d.current

/-- The directory that names lead to from another, all of them directories. -/
def enter? (d : Disk) (place : Place) : List (List Char) → Option Place
  | [] => some place
  | ['.', '.'] :: names => enter? d place.dropLast names
  | name :: names =>
    if d.isDirectory (place ++ [name]) then enter? d (place ++ [name]) names else none

/-- The place of the file that a path names, in a directory that is there. -/
def place? (d : Disk) (path : String) : Option Place :=
  if !Path.isFollowable path || Path.namesDirectory path then none
  else do
    let name ← (Path.names path).getLast?
    let directory ← d.enter? (d.origin path) (Path.names path).dropLast
    if Path.isName name then return directory ++ [name] else none

/-- The disk with a text for the file at a place. -/
def put (d : Disk) (place : Place) (text : String) : Disk :=
  { d with files := d.files.filter (·.1 != place) ++ [(place, text)] }

/-- The disk with the directories that names lead through from another, unless a
    file is in the way or a name cannot be one. -/
def makeDirectories (d : Disk) (place : Place) : List (List Char) → Option Disk
  | [] => some d
  | ['.', '.'] :: names => makeDirectories d place.dropLast names
  | name :: names =>
    let next := place ++ [name]
    if d.isDirectory next then makeDirectories d next names
    else if (d.file? next).isSome || !Path.isName name then none
    else makeDirectories { d with directories := d.directories ++ [next] } next names

/-- The disk with a file and the directories above it. -/
def add (d : Disk) (path text : String) : Disk :=
  let names := Path.names path
  ((d.makeDirectories (d.origin path) names.dropLast).getD d).put (d.origin path ++ names) text

/-- The path from the current directory to a place below it. -/
def path? (d : Disk) (place : Place) : Option String :=
  (d.current.isPrefixOf? place).map (Path.ofNames false)

/-- The files below the current directory of one disk that another does not hold
    with the same text. -/
def newFiles (old new : Disk) : List (String × String) :=
  new.files.filterMap fun (place, text) =>
    if old.file? place = some text then none else (new.path? place).map fun path => (path, text)

instance : Files (StateM Disk) where
  read? path d := ((d.place? path).bind d.file?, d)
  write path text d :=
    match d.place? path with
    | none => (false, d)
    | some place => if d.isDirectory place then (false, d) else (true, d.put place text)
  createDirectories path d :=
    if Path.isFollowable path then
      match d.makeDirectories (d.origin path) (Path.names path) with
      | none => (false, d)
      | some made => (true, made)
    else (false, d)
  isFile path d := (((d.place? path).bind d.file?).isSome, d)
  print text d := (true, { d with printed := d.printed ++ text })

end Disk

end Seam
