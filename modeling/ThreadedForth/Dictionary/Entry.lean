import ThreadedForth.Dictionary.Basic

/-!
# Entries

A definition in memory is an entry. Its first cell holds the length of the name in five bits, the
immediate bit above them, and in the upper ten bits the distance back to the entry before it. A
distance that does not fit is kept in the second cell, which the largest number in the ten bits
announces. The bytes of the name follow, and then, from the next even address on, the body.

A header is written first (`define`) and linked into the chain of entries later (`link`), so an
unfinished definition is in no chain. Whether the header has a second cell is settled when it is
written, by the distance to the entry that is then the latest one.
-/

set_option autoImplicit false

namespace ThreadedForth

/-- A definition as it is found in memory. -/
structure Entry where
  addr : Addr
  name : Span
  /-- Whether the word runs even while a definition is compiled. -/
  immediate : Bool
  /-- Where its code is. -/
  body : Addr
deriving DecidableEq

namespace Header

/-- The longest name. -/
def maxNameLength : Nat := 31

/-- The bit of an immediate word. -/
def immediateBit : UInt16 := 32

/-- What stands in the place of a distance that is in the next cell. -/
def longDistance : UInt16 := 1023

/-- The length of the name. -/
def nameLength (info : Cell) : UInt16 := info.toUInt16 % 32

/-- Whether the word is immediate. -/
def isImmediate (info : Cell) : Bool := info.toUInt16 / 32 % 2 == 1

/-- The distance to the entry before, as far as the first cell tells it. -/
def distance (info : Cell) : UInt16 := info.toUInt16 / 64

/-- Whether the distance is in the next cell. -/
def isLong (info : Cell) : Bool := distance info == longDistance

/-- The first cell of a header without the immediate bit. -/
def make (nameLength distance : UInt16) : Cell := (nameLength + distance * 64).toInt16

/-- The first cell with another distance. -/
def withDistance (info : Cell) (distance : UInt16) : Cell :=
  (info.toUInt16 % 64 + distance * 64).toInt16

end Header

namespace Dictionary

/-! ## Reading -/

/-- The distance from an entry back to the one before it. -/
def linkDistance (d : Dictionary) (entry : Addr) : Addr :=
  let info := d.readCell entry
  if Header.isLong info then (d.readCell (entry + cellSize)).toUInt16 else Header.distance info

/-- Where the name of an entry is. -/
def entryName (d : Dictionary) (entry : Addr) : Span :=
  let info := d.readCell entry
  let start := entry + cellSize + (if Header.isLong info then cellSize else 0)
  .ofLength start (Header.nameLength info)

/-- Whether the word of an entry is immediate. -/
def isImmediate (d : Dictionary) (entry : Addr) : Bool :=
  Header.isImmediate (d.readCell entry)

/-- Where the code of an entry is. This address is also its execution token. -/
def entryBody (d : Dictionary) (entry : Addr) : Addr := aligned (d.entryName entry).stop

/-- All about the entry at an address. -/
def entryAt (d : Dictionary) (entry : Addr) : Entry :=
  ⟨entry, d.entryName entry, d.isImmediate entry, d.entryBody entry⟩

/-! ## Writing -/

/-- Copies bytes one after the other, so that a byte already copied can be copied on. -/
def copyBytes (d : Dictionary) (source target : Addr) : Nat → Dictionary
  | 0 => d
  | n + 1 => copyBytes (d.writeByte target (d.readByte source)) (source + 1) (target + 1) n

/-- Writes the header and the name of a new entry at the end of the dictionary. -/
def define (name : Span) : DictionaryM Unit := do
  let length := name.length
  if Header.maxNameLength < length.toNat then throw (.nameTooLong length.toNat)
  let entry ← alignHere
  let long := Header.longDistance ≤ entry - (← get).latest
  append (Header.make length (if long then Header.longDistance else 0))
  if long then append 0
  let target ← allot length.toInt16
  modify fun d => d.copyBytes name.start target length.toNat
  discard alignHere

/-- Makes an entry the latest one of the chain. It has to lie after the latest entry so far, and
not farther from it than its header can tell. -/
def link (entry : Addr) : DictionaryM Unit := fun d =>
  let info := d.readCell entry
  let distance := entry - d.latest
  if d.latest ≤ entry ∧ (Header.isLong info ∨ distance < Header.longDistance) then
    let d' := if Header.isLong info then d.writeCell (entry + cellSize) distance.toInt16 else d
    let field := if Header.isLong info then Header.longDistance else distance
    .ok () ((d'.writeCell entry (Header.withDistance info field)).setReservedAddr .latest entry)
  else
    .error (.badLink entry d.latest) d

end Dictionary

end ThreadedForth
