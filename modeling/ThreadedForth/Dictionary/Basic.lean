import ThreadedForth.Dictionary.Layout
import ThreadedForth.Error
import ThreadedForth.Memory

/-!
# Dictionaries

A dictionary is a memory that is used in a certain way: the reserved cells first, the input
buffer, and then definitions, one after the other, up to the address in the cell `here`. All the
state is in the memory, so a copy of the memory is a copy of the dictionary.

Room is taken by moving `here` (`allot`). It never leaves the part of the memory that is for
definitions; a move that would is refused and changes nothing. Operations that consist of several
moves keep what they did before a refusal.
-/

set_option autoImplicit false

namespace ThreadedForth

/-- A memory that holds definitions. -/
structure Dictionary where
  memory : Memory

/-- A program that changes a dictionary and may fail. -/
abbrev DictionaryM := EStateM Error Dictionary

namespace Dictionary

/-! ## Access -/

/-- The number of bytes. -/
def capacity (d : Dictionary) : Nat := d.memory.capacity

/-- The cell at an address. -/
def readCell (d : Dictionary) (a : Addr) : Cell := d.memory.readCell a

/-- The byte at an address. -/
def readByte (d : Dictionary) (a : Addr) : UInt8 := d.memory.readByte a

/-- Changes the cell at an address. -/
def writeCell (d : Dictionary) (a : Addr) (v : Cell) : Dictionary := ⟨d.memory.writeCell a v⟩

/-- Changes the byte at an address. -/
def writeByte (d : Dictionary) (a : Addr) (v : UInt8) : Dictionary := ⟨d.memory.writeByte a v⟩

/-- Changes the bytes from an address on. -/
def writeBytes (d : Dictionary) (a : Addr) (bytes : List UInt8) : Dictionary :=
  ⟨d.memory.writeBytes a bytes⟩

/-- The contents of a reserved cell. -/
def reserved (d : Dictionary) (c : SystemCell) : Cell := d.readCell c.addr

/-- Changes a reserved cell. -/
def setReserved (d : Dictionary) (c : SystemCell) (v : Cell) : Dictionary := d.writeCell c.addr v

/-- The contents of a reserved cell that holds an address. -/
def reservedAddr (d : Dictionary) (c : SystemCell) : Addr := (d.reserved c).toUInt16

/-- Changes a reserved cell that holds an address. -/
def setReservedAddr (d : Dictionary) (c : SystemCell) (a : Addr) : Dictionary :=
  d.setReserved c a.toInt16

/-- The first free address. -/
def here (d : Dictionary) : Addr := d.reservedAddr .here

/-- The newest linked entry. -/
def latest (d : Dictionary) : Addr := d.reservedAddr .latest

/-- The base in which numbers are read and written. -/
def base (d : Dictionary) : Cell := d.reserved .base

/-- Whether a definition is being compiled. -/
def compiling (d : Dictionary) : Bool := d.reserved .compiling != 0

/-- The bytes of a span. -/
def text (d : Dictionary) (s : Span) : List UInt8 :=
  d.memory.bytesFrom s.start s.length.toNat

/-- Gives the reserved cells the values with which work begins: base ten, no definition, nothing
to read. -/
def setUp (d : Dictionary) : Dictionary :=
  d |>.setReserved .base 10
    |>.setReservedAddr .here Layout.firstEntry
    |>.setReservedAddr .latest Layout.firstEntry
    |>.setReserved .compiling 0
    |>.setReserved .openEntry 0
    |>.setReservedAddr .source Layout.inputBuffer
    |>.setReserved .sourceLength 0
    |>.setReserved .cursor 0
    |>.writeCell Layout.firstEntry 0

/-- A flat memory of so many bytes, made ready for work. -/
def ofCapacity (capacity : Nat) : Dictionary :=
  setUp ⟨.flat (.zeros capacity)⟩

/-! ## Room for definitions -/

/-- Moves `here` by `amount` and returns where it was. It stays where definitions go, below the
capacity, or does not move at all. -/
def allot (amount : Cell) : DictionaryM Addr := fun d =>
  let target : Int := d.here.toNat + amount.toInt
  if Layout.firstEntry.toNat ≤ target ∧ target < d.capacity then
    .ok d.here (d.setReservedAddr .here (d.here + amount.toUInt16))
  else
    .error (.dictionaryFull d.here amount) d

/-- Adds a cell at the end. -/
def append (v : Cell) : DictionaryM Unit := do
  let a ← allot cellSize.toInt16
  modify fun d => d.writeCell a v

/-- The even address at `a` or after it. -/
def aligned (a : Addr) : Addr := (a + 1) / 2 * 2

/-- Makes `here` even and returns it. -/
def alignHere : DictionaryM Addr := do
  let d ← get
  discard <| allot (aligned d.here - d.here).toInt16
  return (← get).here

end Dictionary

end ThreadedForth
