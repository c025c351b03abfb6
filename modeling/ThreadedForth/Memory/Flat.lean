import ThreadedForth.Cell

/-!
# Flat memory

A block of bytes in which every address below the capacity has a place of its own. Accesses past
the end are inert: they read zero and write nothing (`readByte_writeByte`). A cell that lies in
the block as a whole is read in one step; `readCell_eq` says that this is the pair of bytes at
its address and at the next one, where the address after the last one is zero.
-/

set_option autoImplicit false

namespace ThreadedForth

/-- At most `2 ^ 16` bytes, one after the other. -/
structure FlatMemory where
  bytes : Array UInt8
  size_le : bytes.size ≤ 65536

namespace FlatMemory

/-- A block of `size` zeros, or of as many as sixteen bits can address. -/
def zeros (size : Nat) : FlatMemory :=
  ⟨Array.replicate (min size 65536) 0, by rw [Array.size_replicate]; exact Nat.min_le_right _ _⟩

/-- The number of bytes. -/
def capacity (m : FlatMemory) : Nat := m.bytes.size

/-- The byte at an address, zero past the end. -/
def readByte (m : FlatMemory) (a : Addr) : UInt8 := m.bytes.getD a.toNat 0

/-- Changes the byte at an address. Past the end nothing changes. -/
def writeByte (m : FlatMemory) (a : Addr) (v : UInt8) : FlatMemory :=
  ⟨m.bytes.setIfInBounds a.toNat v, by rw [Array.size_setIfInBounds]; exact m.size_le⟩

/-- The cell at an address. Its second byte is at the next address, which wraps. -/
def readCell (m : FlatMemory) (a : Addr) : Cell :=
  if h : a.toNat + 1 < m.bytes.size then
    Cell.ofBytes m.bytes[a.toNat] m.bytes[a.toNat + 1]
  else
    Cell.ofBytes (m.readByte a) (m.readByte (a + 1))

@[simp] theorem capacity_zeros (size : Nat) : (zeros size).capacity = min size 65536 := by
  simp [zeros, capacity]

theorem capacity_le (m : FlatMemory) : m.capacity ≤ 65536 := m.size_le

@[simp] theorem capacity_writeByte (m : FlatMemory) (a : Addr) (v : UInt8) :
    (m.writeByte a v).capacity = m.capacity := by
  simp [writeByte, capacity]

theorem readByte_zeros (size : Nat) (a : Addr) : (zeros size).readByte a = 0 := by
  simp only [zeros, readByte, Array.getD_eq_getD_getElem?, Array.getElem?_replicate]
  split <;> rfl

theorem readByte_of_capacity_le {m : FlatMemory} {a : Addr} (h : m.capacity ≤ a.toNat) :
    m.readByte a = 0 := by
  simp only [capacity] at h
  simp only [readByte, Array.getD]
  split
  · omega
  · rfl

theorem readByte_writeByte (m : FlatMemory) (a b : Addr) (v : UInt8) :
    (m.writeByte a v).readByte b =
      if b = a ∧ a.toNat < m.capacity then v else m.readByte b := by
  have hab : b = a ↔ b.toNat = a.toNat := UInt16.toNat_inj.symm
  simp only [readByte, writeByte, capacity, Array.getD_eq_getD_getElem?,
    Array.getElem?_setIfInBounds, hab]
  by_cases h : b.toNat = a.toNat
  · by_cases hc : a.toNat < m.bytes.size <;> simp [h, hc]
  · simp [h, Ne.symm h]

/-- Reading a cell in one step gives what its two bytes give. -/
theorem readCell_eq (m : FlatMemory) (a : Addr) :
    m.readCell a = Cell.ofBytes (m.readByte a) (m.readByte (a + 1)) := by
  unfold readCell
  split
  · rename_i h
    have hs := m.size_le
    have h1 : (a + 1).toNat = a.toNat + 1 := by
      rw [UInt16.toNat_add]
      change (_ + 1) % 65536 = _
      omega
    simp only [readByte, Array.getD, h1, h, dif_pos, show a.toNat < m.bytes.size by omega]
    rfl
  · rfl

end FlatMemory

end ThreadedForth
