import ThreadedForth.Cell

/-!
# Sparse memory

A memory that stores only what was written. Its contents are a binary tree over the bits of an
address, least significant bit first, in which a whole subtree of equal bytes is one leaf, so
untouched regions cost nothing. `ByteTree.read_write` is the law of the tree, and
`SparseMemory.readByte_writeByte` that of the memory.
-/

set_option autoImplicit false

namespace ThreadedForth

/-- A byte for each address. A split goes by the lowest bit of the address. -/
inductive ByteTree where
  /-- The same byte at every address. -/
  | uniform (b : UInt8)
  /-- Even addresses on the one side, odd ones on the other. -/
  | split (even odd : ByteTree)

namespace ByteTree

/-- The byte at address `a`. -/
def read : ByteTree → Nat → UInt8
  | uniform b, _ => b
  | split e o, a => if a % 2 = 0 then e.read (a / 2) else o.read (a / 2)

/-- The part of a tree that holds the even addresses. -/
def even : ByteTree → ByteTree
  | uniform b => uniform b
  | split e _ => e

/-- The part of a tree that holds the odd addresses. -/
def odd : ByteTree → ByteTree
  | uniform b => uniform b
  | split _ o => o

/-- Changes the byte at `a`, an address of so many bits. -/
def write : (bits : Nat) → ByteTree → Nat → UInt8 → ByteTree
  | 0, _, _, v => uniform v
  | bits + 1, t, a, v =>
    if a % 2 = 0 then split (write bits t.even (a / 2) v) t.odd
    else split t.even (write bits t.odd (a / 2) v)

theorem read_eq_even_odd (t : ByteTree) (a : Nat) :
    t.read a = if a % 2 = 0 then t.even.read (a / 2) else t.odd.read (a / 2) := by
  cases t <;> simp [read, even, odd]

/-- A write is seen at its address and nowhere else. -/
theorem read_write (bits : Nat) (t : ByteTree) (a b : Nat) (v : UInt8)
    (ha : a < Nat.pow 2 bits) (hb : b < Nat.pow 2 bits) :
    (write bits t a v).read b = if b = a then v else t.read b := by
  induction bits generalizing t a b with
  | zero =>
    have hba : b = a := (Nat.lt_one_iff.1 hb).trans (Nat.lt_one_iff.1 ha).symm
    simp [write, read, hba]
  | succ bits ih =>
    have ha' : a / 2 < Nat.pow 2 bits := Nat.div_lt_of_lt_mul (by rwa [Nat.mul_comm])
    have hb' : b / 2 < Nat.pow 2 bits := Nat.div_lt_of_lt_mul (by rwa [Nat.mul_comm])
    rw [read_eq_even_odd t b]
    by_cases hae : a % 2 = 0 <;> by_cases hbe : b % 2 = 0
    · have h : b / 2 = a / 2 ↔ b = a := by omega
      simp [write, hae, read, hbe, ih _ _ _ ha' hb', h]
    · have h : b ≠ a := by omega
      simp [write, hae, read, hbe, h]
    · have h : b ≠ a := by omega
      simp [write, hae, read, hbe, h]
    · have h : b / 2 = a / 2 ↔ b = a := by omega
      simp [write, hae, read, hbe, ih _ _ _ ha' hb', h]

end ByteTree

/-- A memory with at most `2 ^ 16` addresses that keeps only the bytes that differ. -/
structure SparseMemory where
  capacity : Nat
  capacity_le : capacity ≤ 65536
  tree : ByteTree

namespace SparseMemory

/-- A memory of `size` zeros, or of as many as sixteen bits can address. -/
def zeros (size : Nat) : SparseMemory :=
  ⟨min size 65536, by omega, .uniform 0⟩

/-- The byte at an address, zero past the end. -/
def readByte (m : SparseMemory) (a : Addr) : UInt8 :=
  if a.toNat < m.capacity then m.tree.read a.toNat else 0

/-- Changes the byte at an address. Past the end nothing changes. -/
def writeByte (m : SparseMemory) (a : Addr) (v : UInt8) : SparseMemory :=
  if a.toNat < m.capacity then { m with tree := m.tree.write 16 a.toNat v } else m

@[simp] theorem capacity_writeByte (m : SparseMemory) (a : Addr) (v : UInt8) :
    (m.writeByte a v).capacity = m.capacity := by
  unfold writeByte
  split <;> rfl

theorem readByte_zeros (size : Nat) (a : Addr) : (zeros size).readByte a = 0 := by
  simp [zeros, readByte, ByteTree.read]

theorem readByte_of_capacity_le {m : SparseMemory} {a : Addr} (h : m.capacity ≤ a.toNat) :
    m.readByte a = 0 := by
  simp [readByte, show ¬ a.toNat < m.capacity by omega]

theorem readByte_writeByte (m : SparseMemory) (a b : Addr) (v : UInt8) :
    (m.writeByte a v).readByte b =
      if b = a ∧ a.toNat < m.capacity then v else m.readByte b := by
  have hab : b = a ↔ b.toNat = a.toNat := UInt16.toNat_inj.symm
  have ha : a.toNat < Nat.pow 2 16 := a.toNat_lt
  have hb : b.toNat < Nat.pow 2 16 := b.toNat_lt
  unfold writeByte
  by_cases h : a.toNat < m.capacity
  · by_cases hba : b.toNat = a.toNat
    · simp [readByte, h, hab, hba, ByteTree.read_write 16 m.tree _ _ v ha ha]
    · simp [readByte, h, hab, hba, ByteTree.read_write 16 m.tree _ _ v ha hb]
  · simp [h]

end SparseMemory

end ThreadedForth
