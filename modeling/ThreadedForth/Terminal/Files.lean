import ThreadedForth.Terminal.Path

/-!
# Files

The files that a session can see. The working folder, the root and the folders around the two are
always there, and so is each folder with something in it. A path is followed from its start, and
the first name that leads nowhere decides what is wrong with it.

A file can be made or written where its folder is. A folder can be opened, but not be read or
written as a file.
-/

set_option autoImplicit false

namespace ThreadedForth.Terminal

/-- Files with their contents, and folders. -/
structure Files where
  contents : List (Place × List UInt8) := []
  folders : List Place := []
  /-- Files that stay empty whatever is written to them. -/
  sinks : List Place := [["/", "dev", "null"]]

namespace Files

/-- Whether there is a folder at a place. -/
def isFolder (fs : Files) (place : Place) : Bool :=
  place.all (· == "..") || place == Place.root || fs.folders.any place.isPrefixOf ||
    (fs.sinks ++ fs.contents.map (·.1)).any fun file => place.isPrefixOf file.dropLast

/-- Whether there is a file at a place. -/
def isFile (fs : Files) (place : Place) : Bool :=
  fs.sinks.contains place || (fs.contents.lookup place).isSome

/-- The bytes that are at a place. Only a file has bytes. -/
def bytesAt (fs : Files) (place : Place) : List UInt8 :=
  (fs.contents.lookup place).getD []

/-- Puts bytes into the file at a place. -/
def put (fs : Files) (place : Place) (bytes : List UInt8) : Files :=
  if fs.sinks.contains place then fs
  else
    let others := fs.contents.filter fun file => file.1 != place
    { fs with contents := (place, bytes) :: others }

/-- A file has the bytes that were put into it last. -/
theorem bytesAt_put_self (fs : Files) {place : Place} (bytes : List UInt8)
    (h : place ∉ fs.sinks) : (fs.put place bytes).bytesAt place = bytes := by
  simp [put, bytesAt, h]

/-! ## Following a path -/

/-- The folder that a name leads to. -/
def enter (fs : Files) (place : Place) (name : String) : Except FileError Place := do
  let place ← place.step name
  if fs.isFolder place then return place
  else if fs.isFile place then throw .notFolder
  else throw .notFound

/-- The folder that names lead to. -/
def walk (fs : Files) (place : Place) : List String → Except FileError Place
  | [] => .ok place
  | name :: names => do fs.walk (← fs.enter place name) names

/-- The file or folder that a path leads to. -/
def find (fs : Files) (text : String) : Except FileError Place := do
  let path ← Path.ofString? text
  let folder ← fs.walk path.start path.through
  if path.isFolder then fs.enter folder path.last
  else
    let place ← folder.step path.last
    if fs.isFile place || fs.isFolder place then return place else throw .notFound

/-- The place of a file to be written. It need not be there, but its folder has to. -/
def target (fs : Files) (text : String) : Except FileError Place := do
  let path ← Path.ofString? text
  let folder ← fs.walk path.start path.through
  if path.isFolder then throw .isFolder
  else
    let place ← folder.step path.last
    if fs.isFolder place then throw .isFolder else return place

/-- The contents of a file. -/
def read (fs : Files) (text : String) : Except FileError (List UInt8) := do
  let place ← fs.find text
  if fs.isFolder place then throw .isFolder else return fs.bytesAt place

/-- Writes a file. -/
def write (fs : Files) (text : String) (bytes : List UInt8) : Except FileError Files := do
  return fs.put (← fs.target text) bytes

end Files

end ThreadedForth.Terminal
