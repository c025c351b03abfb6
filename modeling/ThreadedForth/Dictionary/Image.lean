import ThreadedForth.Dictionary.Basic

/-!
# Images

An image is the used part of a dictionary's memory as bytes. To restore it is to write these bytes
back, all but those from the cell `compiling` up to the first definition: they describe the line
that is being interpreted, and it goes on afterwards.
-/

set_option autoImplicit false

namespace ThreadedForth.Dictionary

/-- The bytes below `here`. -/
def image (d : Dictionary) : List UInt8 := d.memory.bytesFrom 0 d.here.toNat

/-- Whether an image leaves the byte at an address alone. -/
def keptByImage (a : Addr) : Bool :=
  decide (SystemCell.compiling.addr ≤ a) && decide (a < Layout.firstEntry)

/-- Writes an image from an address on. -/
def restoreFrom (d : Dictionary) (a : Addr) : List UInt8 → Dictionary
  | [] => d
  | b :: bs => restoreFrom (if keptByImage a then d else d.writeByte a b) (a + 1) bs

/-- Writes an image, of which no more than the addressable bytes count. -/
def restore (d : Dictionary) (image : List UInt8) : Dictionary :=
  d.restoreFrom 0 (image.take 65536)

end ThreadedForth.Dictionary
