import ThreadedForth.Memory.Flat
import ThreadedForth.Memory.Sparse

/-!
# Memory

The byte memory that a dictionary lives in, in either of two layouts. What a memory is for its
users is its capacity and the byte at each address: `readByte_writeByte` says what a write does
to that view, and `readCell_eq` says that a cell is two bytes of it, whichever layout is behind
it.
-/

set_option autoImplicit false

namespace ThreadedForth

/-- A byte memory with sixteen-bit addresses. -/
inductive Memory where
  | flat (m : FlatMemory)
  | sparse (m : SparseMemory)

namespace Memory

/-- The number of bytes. -/
def capacity : Memory → Nat
  | flat m => m.capacity
  | sparse m => m.capacity

/-- The byte at an address, zero past the end. -/
def readByte : Memory → Addr → UInt8
  | flat m, a => m.readByte a
  | sparse m, a => m.readByte a

/-- Changes the byte at an address. Past the end nothing changes. -/
def writeByte : Memory → Addr → UInt8 → Memory
  | flat m, a, v => flat (m.writeByte a v)
  | sparse m, a, v => sparse (m.writeByte a v)

/-- The cell at an address, its low byte first. The address after the last one is zero. -/
def readCell : Memory → Addr → Cell
  | flat m, a => m.readCell a
  | sparse m, a => Cell.ofBytes (m.readByte a) (m.readByte (a + 1))

/-- Writes the two bytes of a cell, each of them only where there is memory. -/
def writeCell (m : Memory) (a : Addr) (v : Cell) : Memory :=
  (m.writeByte a (Cell.lowByte v)).writeByte (a + 1) (Cell.highByte v)

/-- The bytes at `a` and the addresses after it, `n` in all. -/
def bytesFrom (m : Memory) (a : Addr) (n : Nat) : List UInt8 :=
  (List.range n).map fun i => m.readByte (a + UInt16.ofNat i)

/-- How many of the `n` bytes from `a` on satisfy `p` before the first one that does not, added to
`count`. -/
def runLengthFrom (m : Memory) (p : UInt8 → Bool) (count : Nat) : Addr → Nat → Nat
  | _, 0 => count
  | a, n + 1 => if p (m.readByte a) then runLengthFrom m p (count + 1) (a + 1) n else count

/-- How many of the `n` bytes from `a` on satisfy `p` before the first one that does not. -/
def runLength (m : Memory) (p : UInt8 → Bool) (a : Addr) (n : Nat) : Nat :=
  m.runLengthFrom p 0 a n

/-- Writes bytes one after the other from `a` on. -/
def writeBytes (m : Memory) (a : Addr) : List UInt8 → Memory
  | [] => m
  | b :: bs => writeBytes (m.writeByte a b) (a + 1) bs

/-! ## The view through single bytes -/

theorem capacity_le (m : Memory) : m.capacity ≤ 65536 := by
  cases m with
  | flat m => exact m.capacity_le
  | sparse m => exact m.capacity_le

@[simp] theorem capacity_writeByte (m : Memory) (a : Addr) (v : UInt8) :
    (m.writeByte a v).capacity = m.capacity := by
  cases m <;> simp [writeByte, capacity]

@[simp] theorem capacity_writeCell (m : Memory) (a : Addr) (v : Cell) :
    (m.writeCell a v).capacity = m.capacity := by
  simp [writeCell]

theorem readByte_of_capacity_le {m : Memory} {a : Addr} (h : m.capacity ≤ a.toNat) :
    m.readByte a = 0 := by
  cases m with
  | flat m => exact m.readByte_of_capacity_le h
  | sparse m => exact m.readByte_of_capacity_le h

/-- A write is seen at its address, if there is memory, and nowhere else. -/
theorem readByte_writeByte (m : Memory) (a b : Addr) (v : UInt8) :
    (m.writeByte a v).readByte b =
      if b = a ∧ a.toNat < m.capacity then v else m.readByte b := by
  cases m with
  | flat m => exact m.readByte_writeByte a b v
  | sparse m => exact m.readByte_writeByte a b v

/-- A cell is the byte at its address and the one after it. -/
theorem readCell_eq (m : Memory) (a : Addr) :
    m.readCell a = Cell.ofBytes (m.readByte a) (m.readByte (a + 1)) := by
  cases m with
  | flat m => exact m.readCell_eq a
  | sparse m => rfl

/-- A write to a byte is seen through a cell write at each of its two addresses. -/
theorem readByte_writeCell (m : Memory) (a b : Addr) (v : Cell) :
    (m.writeCell a v).readByte b =
      if b = a + 1 ∧ (a + 1).toNat < m.capacity then Cell.highByte v
      else if b = a ∧ a.toNat < m.capacity then Cell.lowByte v
      else m.readByte b := by
  simp only [writeCell, readByte_writeByte, capacity_writeByte]

@[simp] theorem capacity_writeBytes (m : Memory) (a : Addr) (bytes : List UInt8) :
    (m.writeBytes a bytes).capacity = m.capacity := by
  induction bytes generalizing m a with
  | nil => rfl
  | cons b bs ih => rw [writeBytes, ih, capacity_writeByte]

@[simp] theorem length_bytesFrom (m : Memory) (a : Addr) (n : Nat) :
    (m.bytesFrom a n).length = n := by
  simp [bytesFrom]

@[simp] theorem bytesFrom_zero (m : Memory) (a : Addr) : m.bytesFrom a 0 = [] := rfl

theorem bytesFrom_succ (m : Memory) (a : Addr) (n : Nat) :
    m.bytesFrom a (n + 1) = m.readByte a :: m.bytesFrom (a + 1) n := by
  simp only [bytesFrom, List.range_succ_eq_map, List.map_cons, List.map_map]
  congr 1
  · simp
  · apply List.map_congr_left
    intro i _
    simp only [Function.comp_apply, Nat.succ_eq_add_one, UInt16.ofNat_add]
    rw [UInt16.add_comm (UInt16.ofNat i), ← UInt16.add_assoc]
    rfl

/-- The bytes from a later address on are what is left of the bytes. -/
theorem drop_bytesFrom (m : Memory) (a : Addr) (n k : Nat) :
    (m.bytesFrom a n).drop k = m.bytesFrom (a + UInt16.ofNat k) (n - k) := by
  induction k generalizing a n with
  | zero => simp
  | succ k ih =>
    cases n with
    | zero => simp
    | succ n =>
      rw [bytesFrom_succ, List.drop_succ_cons, ih, UInt16.ofNat_add,
        UInt16.add_comm (UInt16.ofNat k), ← UInt16.add_assoc, Nat.add_sub_add_right]
      rfl

/-- Fewer bytes are the first ones of more bytes. -/
theorem take_bytesFrom (m : Memory) (a : Addr) {n k : Nat} (h : k ≤ n) :
    (m.bytesFrom a n).take k = m.bytesFrom a k := by
  simp [bytesFrom, ← List.map_take, List.take_range, Nat.min_eq_left h]

theorem runLengthFrom_eq (m : Memory) (p : UInt8 → Bool) (count : Nat) (a : Addr) (n : Nat) :
    m.runLengthFrom p count a n = count + ((m.bytesFrom a n).takeWhile p).length := by
  induction n generalizing a count with
  | zero => simp [runLengthFrom]
  | succ n ih =>
    rw [bytesFrom_succ, runLengthFrom]
    by_cases h : p (m.readByte a)
    · simp [h, ih]
      omega
    · simp [h]

/-- The length of a run is that of the longest part in front that satisfies `p`. -/
theorem runLength_eq (m : Memory) (p : UInt8 → Bool) (a : Addr) (n : Nat) :
    m.runLength p a n = ((m.bytesFrom a n).takeWhile p).length := by
  simp [runLength, runLengthFrom_eq]

theorem runLength_le (m : Memory) (p : UInt8 → Bool) (a : Addr) (n : Nat) :
    m.runLength p a n ≤ n := by
  rw [runLength_eq]
  simpa using (List.takeWhile_prefix p (l := m.bytesFrom a n)).length_le

/-- The bytes of a run are the longest part in front that satisfies `p`. -/
theorem bytesFrom_runLength (m : Memory) (p : UInt8 → Bool) (a : Addr) (n : Nat) :
    m.bytesFrom a (m.runLength p a n) = (m.bytesFrom a n).takeWhile p := by
  rw [← m.take_bytesFrom a (m.runLength_le p a n), runLength_eq]
  exact (List.prefix_iff_eq_take.1 (List.takeWhile_prefix p)).symm

/-- The bytes after a run are those from the first one on that does not satisfy `p`. -/
theorem bytesFrom_after_runLength (m : Memory) (p : UInt8 → Bool) (a : Addr) (n : Nat) :
    m.bytesFrom (a + UInt16.ofNat (m.runLength p a n)) (n - m.runLength p a n) =
      (m.bytesFrom a n).dropWhile p := by
  have h := congrArg (List.drop ((m.bytesFrom a n).takeWhile p).length)
    (List.takeWhile_append_dropWhile (p := p) (l := m.bytesFrom a n))
  rw [List.drop_left] at h
  rw [← drop_bytesFrom, runLength_eq, h]

end Memory

end ThreadedForth
