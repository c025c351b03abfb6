import ThreadedForth.Dictionary.Basic

/-!
# What a write leaves alone

Most of what is known about a dictionary is known about a stretch of its memory: the reserved
cells, a header, the code of a definition. `AgreeOn d d' lo hi` says that two dictionaries hold
the same bytes from `lo` up to, and not including, `hi`. All that is read inside the stretch is
then the same (`AgreeOn.readCell`, `AgreeOn.bytesFrom`, `AgreeOn.reserved`), and a write outside
of it keeps the agreement (`agreeOn_writeByte`, `agreeOn_writeCell`, `agreeOn_setReserved`).

The ends of a stretch are numbers, so they do not wrap, and `hi` may be `2 ^ 16`.
-/

set_option autoImplicit false

namespace ThreadedForth

/-! ## Addresses as numbers -/

theorem toNat_add_one {a : Addr} (h : a.toNat + 1 < 65536) : (a + 1).toNat = a.toNat + 1 := by
  rw [UInt16.toNat_add]
  exact Nat.mod_eq_of_lt h

theorem toNat_add_cellSize {a : Addr} (h : a.toNat + 2 < 65536) :
    (a + cellSize).toNat = a.toNat + 2 := by
  rw [UInt16.toNat_add]
  exact Nat.mod_eq_of_lt h

theorem toNat_add_ofNat {a : Addr} {n : Nat} (h : a.toNat + n < 65536) :
    (a + UInt16.ofNat n).toNat = a.toNat + n := by
  rw [UInt16.toNat_add, UInt16.toNat_ofNat_of_lt' (by show _ < 65536; omega)]
  exact Nat.mod_eq_of_lt h

/-- The reserved cells lie below the input buffer. -/
theorem SystemCell.toNat_addr_add_two_le (c : SystemCell) : c.addr.toNat + 2 ≤ 16 := by
  cases c <;> decide

namespace Dictionary

variable {d d' d'' : Dictionary} {lo hi : Nat}

/-- Two dictionaries hold the same bytes from the address `lo` up to, and not including, `hi`. -/
def AgreeOn (d d' : Dictionary) (lo hi : Nat) : Prop :=
  ∀ a : Addr, lo ≤ a.toNat → a.toNat < hi → d'.readByte a = d.readByte a

namespace AgreeOn

theorem refl (d : Dictionary) (lo hi : Nat) : d.AgreeOn d lo hi := fun _ _ _ => rfl

theorem symm (h : d.AgreeOn d' lo hi) : d'.AgreeOn d lo hi := fun a hlo hhi => (h a hlo hhi).symm

theorem trans (h : d.AgreeOn d' lo hi) (h' : d'.AgreeOn d'' lo hi) : d.AgreeOn d'' lo hi :=
  fun a hlo hhi => (h' a hlo hhi).trans (h a hlo hhi)

/-- Agreement on a stretch is agreement on each part of it. -/
theorem mono {lo' hi' : Nat} (h : d.AgreeOn d' lo hi) (hlo : lo ≤ lo') (hhi : hi' ≤ hi) :
    d.AgreeOn d' lo' hi' :=
  fun a ha hb => h a (Nat.le_trans hlo ha) (Nat.lt_of_lt_of_le hb hhi)

/-- A cell is read from two bytes, and the second one is inside with the first. -/
theorem readCell (h : d.AgreeOn d' lo hi) {a : Addr} (hlo : lo ≤ a.toNat)
    (hhi : a.toNat + 2 ≤ hi) (htop : a.toNat + 1 < 65536) : d'.readCell a = d.readCell a := by
  have h1 : (a + 1).toNat = a.toNat + 1 := toNat_add_one htop
  have hlow : d'.readByte a = d.readByte a := h a hlo (by omega)
  have hhigh : d'.readByte (a + 1) = d.readByte (a + 1) := h (a + 1) (by omega) (by omega)
  calc d'.readCell a = Cell.ofBytes (d'.readByte a) (d'.readByte (a + 1)) := Memory.readCell_eq ..
    _ = Cell.ofBytes (d.readByte a) (d.readByte (a + 1)) := by rw [hlow, hhigh]
    _ = d.readCell a := (Memory.readCell_eq ..).symm

theorem bytesFrom (h : d.AgreeOn d' lo hi) {a : Addr} {n : Nat} (hlo : lo ≤ a.toNat)
    (hhi : a.toNat + n ≤ hi) (htop : a.toNat + n ≤ 65536) :
    d'.memory.bytesFrom a n = d.memory.bytesFrom a n := by
  apply List.map_congr_left
  intro i hi'
  have hi : i < n := List.mem_range.1 hi'
  have ha : (a + UInt16.ofNat i).toNat = a.toNat + i := toNat_add_ofNat (by omega)
  exact h _ (by omega) (by omega)

/-- The reserved cells in a stretch are the same. -/
theorem reserved (h : d.AgreeOn d' lo hi) {c : SystemCell} (hlo : lo ≤ c.addr.toNat)
    (hhi : c.addr.toNat + 2 ≤ hi) : d'.reserved c = d.reserved c :=
  h.readCell hlo hhi (by have := c.toNat_addr_add_two_le; omega)

theorem reservedAddr (h : d.AgreeOn d' lo hi) {c : SystemCell} (hlo : lo ≤ c.addr.toNat)
    (hhi : c.addr.toNat + 2 ≤ hi) : d'.reservedAddr c = d.reservedAddr c :=
  congrArg Int16.toUInt16 (h.reserved hlo hhi)

end AgreeOn

/-- Bytes of equal cells are equal. -/
theorem readByte_eq_of_readCell_eq {a : Addr} (h : d'.readCell a = d.readCell a) :
    d'.readByte a = d.readByte a ∧ d'.readByte (a + 1) = d.readByte (a + 1) := by
  simp only [readCell, Memory.readCell_eq] at h
  have hlow := congrArg Cell.lowByte h
  have hhigh := congrArg Cell.highByte h
  rw [Cell.lowByte_ofBytes, Cell.lowByte_ofBytes] at hlow
  rw [Cell.highByte_ofBytes, Cell.highByte_ofBytes] at hhigh
  exact ⟨hlow, hhigh⟩

/-- Equal bytes, one by one. -/
theorem readByte_eq_of_bytesFrom_eq {a b : Addr} {n : Nat}
    (h : d'.memory.bytesFrom a n = d.memory.bytesFrom a n) (hle : a.toNat ≤ b.toNat)
    (hlt : b.toNat < a.toNat + n) : d'.readByte b = d.readByte b := by
  have hb : b = a + UInt16.ofNat (b.toNat - a.toNat) := by
    have htop := b.toNat_lt
    apply UInt16.toNat_inj.1
    rw [toNat_add_ofNat (by omega)]
    omega
  have hall := List.map_inj_left.1 h (b.toNat - a.toNat) (List.mem_range.2 (by omega))
  rw [hb]
  exact hall

/-! ## Writes -/

@[simp] theorem capacity_writeByte (d : Dictionary) (a : Addr) (v : UInt8) :
    (d.writeByte a v).capacity = d.capacity := Memory.capacity_writeByte ..

@[simp] theorem capacity_writeCell (d : Dictionary) (a : Addr) (v : Cell) :
    (d.writeCell a v).capacity = d.capacity := Memory.capacity_writeCell ..

@[simp] theorem capacity_setReserved (d : Dictionary) (c : SystemCell) (v : Cell) :
    (d.setReserved c v).capacity = d.capacity := capacity_writeCell ..

@[simp] theorem capacity_setReservedAddr (d : Dictionary) (c : SystemCell) (a : Addr) :
    (d.setReservedAddr c a).capacity = d.capacity := capacity_writeCell ..

theorem capacity_le (d : Dictionary) : d.capacity ≤ 65536 := d.memory.capacity_le

theorem agreeOn_writeByte (d : Dictionary) {a : Addr} (v : UInt8)
    (h : a.toNat < lo ∨ hi ≤ a.toNat) : d.AgreeOn (d.writeByte a v) lo hi := by
  intro b hlo hhi
  have hne : b ≠ a := fun hba => by subst hba; omega
  rw [readByte, writeByte, Memory.readByte_writeByte, if_neg fun hb => hne hb.1]
  rfl

/-- A cell that is written below or above a stretch changes nothing in it. -/
theorem agreeOn_writeCell (d : Dictionary) {a : Addr} (v : Cell) (htop : a.toNat + 1 < 65536)
    (h : a.toNat + 2 ≤ lo ∨ hi ≤ a.toNat) : d.AgreeOn (d.writeCell a v) lo hi := by
  have h1 : (a + 1).toNat = a.toNat + 1 := toNat_add_one htop
  -- both bytes lie on the same side of the stretch, since the second address does not wrap
  exact (d.agreeOn_writeByte (Cell.lowByte v) (by omega)).trans
    (agreeOn_writeByte _ (Cell.highByte v) (by omega))

theorem agreeOn_setReserved (d : Dictionary) (c : SystemCell) (v : Cell)
    (h : c.addr.toNat + 2 ≤ lo ∨ hi ≤ c.addr.toNat) : d.AgreeOn (d.setReserved c v) lo hi :=
  d.agreeOn_writeCell v (by have := c.toNat_addr_add_two_le; omega) h

/-- The same byte written in both is the same there, if it is a byte of the memory or not. -/
theorem agreeOn_of_writeByte {a : Addr} (v : UInt8) (hcap : d'.capacity = d.capacity)
    (h : ∀ b : Addr, lo ≤ b.toNat → b.toNat < hi → b ≠ a → d'.readByte b = d.readByte b) :
    (d.writeByte a v).AgreeOn (d'.writeByte a v) lo hi := by
  intro b hlo hhi
  have hcap' : d'.memory.capacity = d.memory.capacity := hcap
  rw [readByte, readByte, writeByte, writeByte, Memory.readByte_writeByte, Memory.readByte_writeByte,
    hcap']
  by_cases hba : b = a
  · by_cases hlt : a.toNat < d.memory.capacity
    · rw [if_pos ⟨hba, hlt⟩, if_pos ⟨hba, hlt⟩]
    · have hle := Nat.le_of_not_lt hlt
      rw [if_neg fun hb => hlt hb.2, if_neg fun hb => hlt hb.2, hba,
        Memory.readByte_of_capacity_le (by rw [hcap']; exact hle), Memory.readByte_of_capacity_le hle]
  · rw [if_neg fun hb => hba hb.1, if_neg fun hb => hba hb.1]
    exact h b hlo hhi hba

/-- Dictionaries that agree on a stretch do so when the same cell is written in both. -/
theorem AgreeOn.writeCell (h : d.AgreeOn d' lo hi) (a : Addr) (v : Cell)
    (hcap : d'.capacity = d.capacity) : (d.writeCell a v).AgreeOn (d'.writeCell a v) lo hi := by
  have hfirst : (d.writeByte a (Cell.lowByte v)).AgreeOn (d'.writeByte a (Cell.lowByte v)) lo hi :=
    agreeOn_of_writeByte _ hcap fun b hlo hhi _ => h b hlo hhi
  have hcap' : (d'.writeByte a (Cell.lowByte v)).capacity = (d.writeByte a (Cell.lowByte v)).capacity := by
    rw [capacity_writeByte, capacity_writeByte, hcap]
  exact agreeOn_of_writeByte _ hcap' fun b hlo hhi _ => hfirst b hlo hhi

/-- Where the same bytes are written behind a stretch, the stretch becomes longer. -/
theorem AgreeOn.writeByte_next (a : Addr) (h : d.AgreeOn d' lo a.toNat) (v : UInt8)
    (hcap : d'.capacity = d.capacity) :
    (d.writeByte a v).AgreeOn (d'.writeByte a v) lo (a.toNat + 1) := by
  refine agreeOn_of_writeByte v hcap fun b hlo hhi hba => h b hlo ?_
  have hne : b.toNat ≠ a.toNat := fun heq => hba (UInt16.toNat_inj.1 heq)
  omega

theorem AgreeOn.writeCell_next (a : Addr) (h : d.AgreeOn d' lo a.toNat) (v : Cell)
    (hcap : d'.capacity = d.capacity) (htop : a.toNat + 1 < 65536) :
    (d.writeCell a v).AgreeOn (d'.writeCell a v) lo (a.toNat + 2) := by
  have h1 : (a + 1).toNat = a.toNat + 1 := toNat_add_one htop
  have hfirst := AgreeOn.writeByte_next a h (Cell.lowByte v) hcap
  rw [← h1] at hfirst
  have hsecond := AgreeOn.writeByte_next (a + 1) hfirst (Cell.highByte v)
    (by rw [capacity_writeByte, capacity_writeByte, hcap])
  rw [h1] at hsecond
  exact hsecond

/-- What was written to a cell inside the memory is read from it. -/
theorem readCell_writeCell (d : Dictionary) {a : Addr} (v : Cell) (h : a.toNat + 1 < d.capacity) :
    (d.writeCell a v).readCell a = v := by
  have hcap := d.capacity_le
  have h1 : (a + 1).toNat = a.toNat + 1 := toNat_add_one (by omega)
  have hne : a ≠ a + 1 := fun ha => by rw [← ha] at h1; omega
  simp only [capacity] at h
  simp only [readCell, writeCell]
  rw [Memory.readCell_eq, Memory.readByte_writeCell, Memory.readByte_writeCell, if_neg fun hb => hne hb.1,
    if_pos ⟨rfl, by omega⟩, if_pos ⟨rfl, by omega⟩, Cell.ofBytes_lowByte_highByte]

/-- A cell that was set to zero is zero, also where there is no memory for it. -/
theorem readCell_writeCell_zero (d : Dictionary) (a : Addr) : (d.writeCell a 0).readCell a = 0 := by
  have hbyte : ∀ b, b = a ∨ b = a + 1 → (d.memory.writeCell a 0).readByte b = 0 := by
    intro b hb
    rw [Memory.readByte_writeCell]
    split
    · rfl
    · rename_i hhigh
      split
      · rfl
      · rename_i hlow
        refine Memory.readByte_of_capacity_le (Nat.le_of_not_lt fun hlt => ?_)
        rcases hb with rfl | rfl
        · exact hlow ⟨rfl, hlt⟩
        · exact hhigh ⟨rfl, hlt⟩
  rw [readCell, writeCell, Memory.readCell_eq, hbyte a (Or.inl rfl), hbyte (a + 1) (Or.inr rfl)]
  rfl

theorem reserved_setReserved (d : Dictionary) (c : SystemCell) (v : Cell) (h : 16 ≤ d.capacity) :
    (d.setReserved c v).reserved c = v :=
  d.readCell_writeCell v (by have := c.toNat_addr_add_two_le; omega)

/-- A reserved cell is not changed by a write to another one. -/
theorem reserved_setReserved_of_ne (d : Dictionary) {c c' : SystemCell} (v : Cell) (h : c' ≠ c) :
    (d.setReserved c v).reserved c' = d.reserved c' := by
  refine (d.agreeOn_setReserved c v ?_).reserved (Nat.le_refl _) (Nat.le_refl _)
  cases c <;> cases c' <;> first | exact absurd rfl h | decide

/-- A reserved cell is not changed by a write above the reserved cells. -/
theorem reserved_writeCell (d : Dictionary) (c : SystemCell) {a : Addr} (v : Cell)
    (ha : 16 ≤ a.toNat) (htop : a.toNat + 1 < 65536) :
    (d.writeCell a v).reserved c = d.reserved c := by
  exact (d.agreeOn_writeCell v htop (Or.inr ha)).reserved (Nat.zero_le _) c.toNat_addr_add_two_le

end Dictionary

end ThreadedForth
