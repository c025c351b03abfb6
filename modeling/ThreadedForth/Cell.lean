/-!
# Cells, addresses and double cells

The machine is sixteen bits wide. An **address** is an unsigned 16-bit number and a **cell** is
the same sixteen bits read as a signed number, so `toInt16` and `toUInt16` pass between the two
readings without changing a bit, and all their arithmetic wraps modulo `2 ^ 16`.

In memory a cell is two bytes, the low one first (`Cell.ofBytes`, `Cell.lowByte`,
`Cell.highByte`).

Products and dividends are two cells wide. A double cell lies on a stack as two cells, the low
half first and the high half above it: `DoubleCell.ofCells` joins such a pair and
`DoubleCell.toCells` takes it apart. They are inverse to each other
(`DoubleCell.toCells_ofCells`, `DoubleCell.ofCells_toCells`), and `DoubleCell.toNat_ofCells`
gives the value of a pair.
-/

set_option autoImplicit false

namespace ThreadedForth

/-- A byte address. Address arithmetic wraps modulo `2 ^ 16`. -/
abbrev Addr := UInt16

/-- What the stacks hold and the dictionary stores: sixteen bits, read as a signed number. -/
abbrev Cell := Int16

/-- The bytes that a cell takes up in memory. -/
def cellSize : Addr := 2

/-- The cell that stands for a truth value: all bits set for true, none for false. -/
def flag (b : Bool) : Cell := if b then -1 else 0

namespace Cell

/-- The cell whose low byte is `low` and whose high byte is `high`. -/
def ofBytes (low high : UInt8) : Cell := (low.toUInt16 + high.toUInt16 * 256).toInt16

/-- The lower eight bits of a cell. -/
def lowByte (c : Cell) : UInt8 := c.toUInt16.toUInt8

/-- The upper eight bits of a cell. -/
def highByte (c : Cell) : UInt8 := (c.toUInt16 / 256).toUInt8

/-- Cells with the same bits are equal. -/
theorem eq_of_toUInt16_eq {c d : Cell} (h : c.toUInt16 = d.toUInt16) : c = d := by
  rw [← Int16.toInt16_toUInt16 c, h, Int16.toInt16_toUInt16]

/-- The value of a cell made of two bytes. -/
theorem toNat_toUInt16_ofBytes (low high : UInt8) :
    (ofBytes low high).toUInt16.toNat = low.toNat + high.toNat * 256 := by
  have hl := low.toNat_lt
  have hh := high.toNat_lt
  simp only [ofBytes, UInt16.toUInt16_toInt16, UInt16.toNat_add, UInt16.toNat_mul,
    UInt8.toNat_toUInt16]
  change (_ + _ * 256 % 65536) % 65536 = _
  omega

@[simp] theorem lowByte_ofBytes (low high : UInt8) : lowByte (ofBytes low high) = low := by
  have hl := low.toNat_lt
  apply UInt8.toNat_inj.1
  rw [lowByte, UInt16.toNat_toUInt8, toNat_toUInt16_ofBytes]
  omega

@[simp] theorem highByte_ofBytes (low high : UInt8) : highByte (ofBytes low high) = high := by
  have hl := low.toNat_lt
  have hh := high.toNat_lt
  apply UInt8.toNat_inj.1
  rw [highByte, UInt16.toNat_toUInt8, UInt16.toNat_div, toNat_toUInt16_ofBytes]
  change _ / 256 % _ = _
  omega

/-- A cell is made of its two bytes. -/
@[simp] theorem ofBytes_lowByte_highByte (c : Cell) : ofBytes (lowByte c) (highByte c) = c := by
  have hc := c.toUInt16.toNat_lt
  apply eq_of_toUInt16_eq
  apply UInt16.toNat_inj.1
  rw [toNat_toUInt16_ofBytes, lowByte, highByte, UInt16.toNat_toUInt8, UInt16.toNat_toUInt8,
    UInt16.toNat_div]
  change _ % _ + _ / 256 % _ * 256 = _
  omega

end Cell

/-- Two cells' worth of bits, read as an unsigned number; `toInt32` gives the signed reading. -/
abbrev DoubleCell := UInt32

namespace DoubleCell

/-- Joins the two halves of a double cell. -/
def ofCells (low high : Cell) : DoubleCell :=
  low.toUInt16.toUInt32 + high.toUInt16.toUInt32 * 65536

/-- The low and the high half of a double cell, in the order in which they are pushed. -/
def toCells (d : DoubleCell) : Cell × Cell :=
  (d.toUInt16.toInt16, (d / 65536).toUInt16.toInt16)

/-- The value of a pair: the low half counts ones, the high half counts `2 ^ 16`. -/
theorem toNat_ofCells (low high : Cell) :
    (ofCells low high).toNat = low.toUInt16.toNat + high.toUInt16.toNat * 65536 := by
  have hl := low.toUInt16.toNat_lt
  have hh := high.toUInt16.toNat_lt
  simp only [ofCells, UInt32.toNat_add, UInt32.toNat_mul, UInt16.toNat_toUInt32]
  change (_ + _ * 65536 % 4294967296) % 4294967296 = _
  omega

/-- Taking a joined pair apart gives its halves back. -/
theorem toCells_ofCells (low high : Cell) : toCells (ofCells low high) = (low, high) := by
  have hl := low.toUInt16.toNat_lt
  have hh := high.toUInt16.toNat_lt
  have h1 : (ofCells low high).toUInt16 = low.toUInt16 := by
    apply UInt16.toNat_inj.1
    rw [UInt32.toNat_toUInt16, toNat_ofCells]
    omega
  have h2 : (ofCells low high / 65536).toUInt16 = high.toUInt16 := by
    apply UInt16.toNat_inj.1
    rw [UInt32.toNat_toUInt16, UInt32.toNat_div, toNat_ofCells]
    change (_ / 65536) % _ = _
    omega
  simp [toCells, h1, h2]

/-- Joining the halves of a double cell gives it back. -/
theorem ofCells_toCells (d : DoubleCell) : ofCells (toCells d).1 (toCells d).2 = d := by
  have hd := d.toNat_lt
  apply UInt32.toNat_inj.1
  rw [toNat_ofCells]
  simp only [toCells, UInt16.toUInt16_toInt16, UInt32.toNat_toUInt16,
    UInt32.toNat_div]
  change _ % _ + (_ / 65536) % _ * 65536 = _
  omega

end DoubleCell

end ThreadedForth
