import ThreadedForth.Terminal.Files
import ThreadedForth.Text.Utf8

/-!
# Lines

The text that a session reads, and how it is cut into lines. A line ends after a line feed or at
the end of the text. From a file all carriage returns before the line feed are dropped, from a
terminal one of them, and only if there is a line feed. A line that is not well-formed UTF-8 is
skipped, and the text counts as ended at that moment.

A file is read in blocks, when the bytes at hand do not hold a whole line. So a file that is
written while its lines are interpreted goes on with its old bytes up to the end of a block, and
then with the new ones from there.

What comes from a terminal need not be complete yet. Then its last line is not there before its
line feed is.
-/

set_option autoImplicit false

namespace ThreadedForth.Terminal

/-- Where lines come from. -/
inductive LineOrigin where
  | file (place : Place)
  /-- A terminal. `complete` says that nothing will be added to the bytes at hand. -/
  | terminal (complete : Bool)
deriving DecidableEq

/-- A text that is read line by line. -/
structure LineSource where
  origin : LineOrigin := .terminal true
  /-- The bytes at hand. -/
  buffer : List UInt8 := []
  /-- How many bytes stand before those at hand. -/
  position : Nat := 0

/-- What there is to read. -/
inductive NextLine where
  | line (bytes : List UInt8) (source : LineSource)
  /-- The text has ended, or its next line is not well formed. -/
  | ended (source : LineSource)
  /-- The next line is not complete. -/
  | awaited

/-- Drops carriage returns at the end. -/
def dropReturns (line : List UInt8) : List UInt8 :=
  (line.reverse.dropWhile (· == 13)).reverse

/-- The line that stands before a line feed, or before the end of the text. -/
def LineOrigin.trimLine (origin : LineOrigin) (line : List UInt8) (feed : Bool) : List UInt8 :=
  match origin with
  | file _ => dropReturns line
  | terminal _ => if feed && line.getLast? == some 13 then line.dropLast else line

namespace LineSource

/-! ## Bytes from a file -/

/-- How many bytes of a file are read at once. -/
def blockSize : Nat := 8192

/-- The blocks at the beginning of some bytes up to that in which the first line ends. -/
def firstBlocks (bytes : List UInt8) : List UInt8 :=
  let line := bytes.takeWhile (· != 10)
  bytes.take ((line.length / blockSize + 1) * blockSize)

/-- Reads from a file what is needed to have a line at hand. -/
def fill (s : LineSource) (fs : Files) : LineSource :=
  match s.origin with
  | .terminal _ => s
  | .file place =>
    if s.buffer.contains 10 then s
    else
      let unread := (fs.bytesAt place).drop (s.position + s.buffer.length)
      { s with buffer := s.buffer ++ firstBlocks unread }

/-! ## Lines -/

/-- Cuts a line off the bytes at hand. -/
def cut (s : LineSource) : NextLine :=
  let line := s.buffer.takeWhile (· != 10)
  let tail := s.buffer.dropWhile (· != 10)
  if tail.isEmpty && s.origin == .terminal false then .awaited
  else if s.buffer.isEmpty then .ended s
  else
    let position := s.position + line.length + (if tail.isEmpty then 0 else 1)
    let source := { s with buffer := tail.drop 1, position }
    match Text.decode? line with
    | some _ => .line (s.origin.trimLine line (!tail.isEmpty)) source
    | none => .ended source

/-- Reads a line. -/
def next (s : LineSource) (fs : Files) : NextLine := (s.fill fs).cut

end LineSource

end ThreadedForth.Terminal
