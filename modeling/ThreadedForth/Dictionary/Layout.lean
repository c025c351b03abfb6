import ThreadedForth.Cell

/-!
# The layout of the dictionary

The first part of a dictionary's memory is reserved. Eight cells hold the state that programs
and the interpreter share, each at a fixed address, and the buffer for a line of input follows
them. Definitions begin after the buffer.
-/

set_option autoImplicit false

namespace ThreadedForth

/-- The cells at the beginning of a dictionary, in the order of their addresses. -/
inductive SystemCell where
  /-- The base in which numbers are read and written. -/
  | base
  /-- The first free address. -/
  | here
  /-- The newest linked entry. -/
  | latest
  /-- Not zero while a definition is compiled. -/
  | compiling
  /-- The entry that the last `:` began. -/
  | openEntry
  /-- The address of the text that is interpreted. -/
  | source
  /-- The length of that text. -/
  | sourceLength
  /-- How much of that text was read. -/
  | cursor
deriving DecidableEq

/-- All of them, in the order of their addresses. -/
def SystemCell.all : List SystemCell :=
  [base, here, latest, compiling, openEntry, source, sourceLength, cursor]

/-- The address of a reserved cell. -/
def SystemCell.addr : SystemCell → Addr
  | base => 0x00
  | here => 0x02
  | latest => 0x04
  | compiling => 0x06
  | openEntry => 0x08
  | source => 0x0a
  | sourceLength => 0x0c
  | cursor => 0x0e

namespace Layout

/-- The address of the buffer for a line of input. -/
def inputBuffer : Addr := 0x10

/-- The number of bytes in the buffer. -/
def inputCapacity : Nat := 80

/-- Where the first definition goes. -/
def firstEntry : Addr := 0x60

end Layout

end ThreadedForth
