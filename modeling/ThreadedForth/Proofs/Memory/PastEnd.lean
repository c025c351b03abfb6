import ThreadedForth.Memory

/-!
# Cells past the end

Each byte past the end of a memory reads zero and stays so. A cell is two bytes, and the address of its
second byte wraps, whatever the capacity is. So an access past the end is inert, except for one at the
last address of all: its second byte is the one at address zero, where the reserved cells begin
(`Memory.readCell_last`, `Memory.readByte_writeCell_last`). `Memory.inert_iff` tells the two kinds apart.
Where both bytes are in range, a cell that is written is read back, and nothing else changes
(`Memory.readCell_writeCell`).
-/

set_option autoImplicit false

namespace ThreadedForth.Memory

/-- Cell accesses at an address are inert: zero is read there, and a write changes no byte. -/
def Inert (m : Memory) (a : Addr) : Prop :=
  m.readCell a = 0 ∧ ∀ (v : Cell) (b : Addr), (m.writeCell a v).readByte b = m.readByte b

variable {m : Memory} {a : Addr}

/-- Where neither byte is in range, nothing is accessed. -/
theorem inert_of_capacity_le (hlow : m.capacity ≤ a.toNat) (hhigh : m.capacity ≤ (a + 1).toNat) :
    m.Inert a := by
  constructor
  · rw [readCell_eq, readByte_of_capacity_le hlow, readByte_of_capacity_le hhigh]
    rfl
  · intro v b
    rw [readByte_writeCell, if_neg fun h => absurd h.2 (Nat.not_lt.2 hhigh),
      if_neg fun h => absurd h.2 (Nat.not_lt.2 hlow)]

/-- Only the last address is followed by one that is not greater. -/
theorem toNat_le_toNat_add_one (h : a ≠ 0xffff) : a.toNat ≤ (a + 1).toNat := by
  have hne : a.toNat ≠ 65535 := fun heq => h (UInt16.toNat_inj.1 heq)
  have hlt := a.toNat_lt
  rw [UInt16.toNat_add]
  show a.toNat ≤ (a.toNat + 1) % 65536
  omega

/-! ## The last address -/

/-- Past the end the high byte of the cell at the last address is the byte at address zero. -/
theorem readCell_last (h : m.capacity ≤ 65535) : m.readCell 0xffff = Cell.ofBytes 0 (m.readByte 0) := by
  have hzero : m.readByte 0xffff = 0 := readByte_of_capacity_le h
  rw [readCell_eq, hzero]
  rfl

/-- Past the end a write of a cell to the last address changes the byte at address zero. -/
theorem readByte_writeCell_last (h : m.capacity ≤ 65535) (v : Cell) (b : Addr) :
    (m.writeCell 0xffff v).readByte b =
      if b = 0 ∧ 0 < m.capacity then Cell.highByte v else m.readByte b := by
  have hlast : ¬(b = 0xffff ∧ (0xffff : Addr).toNat < m.capacity) := fun hb =>
    absurd hb.2 (Nat.not_lt.2 h)
  rw [readByte_writeCell, if_neg hlast]
  rfl

theorem not_inert_last (h : m.capacity ≤ 65535) (hpos : 0 < m.capacity) : ¬m.Inert 0xffff := by
  rintro ⟨-, hwrite⟩
  -- a cell is written whose high byte is another one than that at address zero
  have hchanged := hwrite (Cell.ofBytes 0 (m.readByte 0 + 1)) 0
  rw [readByte_writeCell_last h, if_pos ⟨rfl, hpos⟩, Cell.highByte_ofBytes] at hchanged
  have hnum := congrArg UInt8.toNat hchanged
  rw [UInt8.toNat_add] at hnum
  change ((m.readByte 0).toNat + 1) % 256 = (m.readByte 0).toNat at hnum
  omega

/-- Past the end all accesses are inert, except for those at the last address of a memory that is not
empty. -/
theorem inert_iff (h : m.capacity ≤ a.toNat) : m.Inert a ↔ a ≠ 0xffff ∨ m.capacity = 0 := by
  constructor
  · intro hinert
    by_cases hlast : a = 0xffff
    · subst hlast
      exact .inr (Nat.eq_zero_of_not_pos fun hpos => not_inert_last h hpos hinert)
    · exact .inl hlast
  · rintro (hne | hempty)
    · exact inert_of_capacity_le h (Nat.le_trans h (toNat_le_toNat_add_one hne))
    · exact inert_of_capacity_le h (hempty ▸ Nat.zero_le _)

/-! ## Cells in range -/

theorem readCell_writeCell (hlow : a.toNat < m.capacity) (hhigh : (a + 1).toNat < m.capacity) (v : Cell) :
    (m.writeCell a v).readCell a = v := by
  have hne : a ≠ a + 1 := fun heq => by
    have hnum := congrArg UInt16.toNat heq
    have hlt := a.toNat_lt
    rw [UInt16.toNat_add] at hnum
    change a.toNat = (a.toNat + 1) % 65536 at hnum
    omega
  calc (m.writeCell a v).readCell a
      = Cell.ofBytes ((m.writeCell a v).readByte a) ((m.writeCell a v).readByte (a + 1)) :=
        readCell_eq ..
    _ = Cell.ofBytes (Cell.lowByte v) (Cell.highByte v) := by
        rw [readByte_writeCell, readByte_writeCell, if_neg fun h => hne h.1, if_pos ⟨rfl, hlow⟩,
          if_pos ⟨rfl, hhigh⟩]
    _ = v := Cell.ofBytes_lowByte_highByte v

theorem readByte_writeCell_of_ne {b : Addr} (hlow : b ≠ a) (hhigh : b ≠ a + 1) (v : Cell) :
    (m.writeCell a v).readByte b = m.readByte b := by
  rw [readByte_writeCell, if_neg fun h => hhigh h.1, if_neg fun h => hlow h.1]

/-- What cell accesses do at every address. At the last one the byte at address zero takes part also in
a memory that ends below it. -/
theorem access_cell (m : Memory) (a : Addr) :
    (m.capacity ≤ a.toNat → (m.Inert a ↔ a ≠ 0xffff ∨ m.capacity = 0)) ∧
    (m.capacity ≤ a.toNat → a = 0xffff →
      m.readCell a = Cell.ofBytes 0 (m.readByte 0) ∧
      ∀ (v : Cell) (b : Addr), (m.writeCell a v).readByte b =
        if b = 0 ∧ 0 < m.capacity then Cell.highByte v else m.readByte b) ∧
    (a.toNat < m.capacity → (a + 1).toNat < m.capacity → ∀ v : Cell,
      (m.writeCell a v).readCell a = v ∧
      ∀ b : Addr, b ≠ a → b ≠ a + 1 → (m.writeCell a v).readByte b = m.readByte b) := by
  refine ⟨inert_iff, ?_, ?_⟩
  · rintro hle rfl
    exact ⟨readCell_last hle, readByte_writeCell_last hle⟩
  · intro hlow hhigh v
    exact ⟨readCell_writeCell hlow hhigh v, fun b hb hb' => readByte_writeCell_of_ne hb hb' v⟩

/-- A memory of a hundred bytes. It is inert right past its end, but not at the last address: what is
written there is found in the byte at address zero. -/
theorem access_cell_hundredBytes :
    (Memory.flat (.zeros 100)).Inert 100 ∧
    ((Memory.flat (.zeros 100)).writeCell 0xffff 0x0102).readByte 0 = 1 ∧
    ((Memory.flat (.zeros 100)).writeCell 98 0x0102).readCell 98 = 0x0102 := by
  have hcap : (Memory.flat (.zeros 100)).capacity = 100 := FlatMemory.capacity_zeros 100
  refine ⟨?_, ?_, ?_⟩
  · exact ((access_cell _ 100).1 (by rw [hcap]; decide)).2 (.inl (by decide))
  · rw [((access_cell _ 0xffff).2.1 (by rw [hcap]; decide) rfl).2, hcap]
    decide
  · exact ((access_cell _ 98).2.2 (by rw [hcap]; decide) (by rw [hcap]; decide) _).1

end ThreadedForth.Memory
