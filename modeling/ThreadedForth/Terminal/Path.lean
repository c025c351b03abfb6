/-!
# Paths

How a path leads to a file or folder, name by name. It starts at the root, if its first character
is a slash, and else at the working folder. One dot stays where it is, and two dots go to the
folder around. Slashes in a row count as one.
-/

set_option autoImplicit false

namespace ThreadedForth.Terminal

/-- Why a file cannot be opened, read or written. -/
inductive FileError where
  | notFound
  /-- The path goes on after a file. -/
  | notFolder
  /-- There should be a file, and there is a folder. -/
  | isFolder
  /-- A name, or the path, has too many bytes. -/
  | nameTooLong
deriving DecidableEq, Repr

/-- What is said of a file that cannot be opened, read or written. -/
def FileError.message : FileError → String
  | notFound => "No such file or directory (os error 2)"
  | notFolder => "Not a directory (os error 20)"
  | isFolder => "Is a directory (os error 21)"
  | nameTooLong => "File name too long (os error 36)"

/-! ## Places -/

/-- Where a file or folder is: the names that lead to it from the working folder, or from the root
if the first of them is a slash. Each place has one such list only. -/
abbrev Place := List String

namespace Place

/-- The root. -/
def root : Place := ["/"]

/-- The folder around a place. The root is around itself, and of the folders around the working
folder no names are known. -/
def parent (p : Place) : Place :=
  match p.getLast? with
  | none | some ".." => p ++ [".."]
  | some "/" => p
  | some _ => p.dropLast

/-- Where a name leads to from a folder. -/
def enter (p : Place) (name : String) : Place :=
  if name == "." then p
  else if name == ".." then p.parent
  else p ++ [name]

/-- The longest name, in bytes. -/
def maxName : Nat := 255

/-- Where a name leads to from a folder, unless it is too long for a name. -/
def step (p : Place) (name : String) : Except FileError Place :=
  if name.utf8ByteSize ≤ maxName then .ok (p.enter name) else .error .nameTooLong

/-- All places on the way along some names. -/
def trail (p : Place) : List String → List Place
  | [] => [p]
  | name :: names => p :: (p.enter name).trail names

end Place

/-! ## Paths -/

/-- A path. -/
structure Path where
  start : Place
  /-- The names that have to lead to folders. -/
  through : List String
  last : String
  /-- Whether the last name has to lead to a folder as well. -/
  isFolder : Bool

namespace Path

/-- A path has fewer bytes than this. -/
def limit : Nat := 4096

/-- Reads a path. A slash at its end says that it leads to a folder, and so do dots. -/
def ofString? (text : String) : Except FileError Path :=
  if text.isEmpty then .error .notFound
  else if text.utf8ByteSize ≥ limit then .error .nameTooLong
  else
    let names := (text.splitOn "/").filter (· != "")
    let last := names.getLastD "."
    .ok {
      start := if text.startsWith "/" then Place.root else []
      through := names.dropLast
      last
      isFolder := text.endsWith "/" || last == "." || last == ".." }

/-- All places on a path. -/
def places (p : Path) : List Place := Place.trail p.start (p.through ++ [p.last])

/-- Where a path leads to, if nothing stands against it. -/
def place (p : Path) : Place := (p.through ++ [p.last]).foldl Place.enter p.start

end Path

end ThreadedForth.Terminal
