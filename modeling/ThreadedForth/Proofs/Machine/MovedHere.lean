import ThreadedForth.Proofs.Machine.Run
import ThreadedForth.Proofs.Dictionary.Room

/-!
# Stores that move `here`

A cell that is stored at the address of the cell `here` is an allocation: what is taken or given back
is the distance to that address, and the distance is itself a cell (`allot_distanceTo`). The store takes
`here` to the address, which is then one for definitions, or it fails and changes no memory; and it
takes it to every address for definitions that is no farther away than a cell can tell (`store_here`).

No other store is checked, also if it writes one byte of the cell `here` or both. What becomes of
`here` is then any address (`reserved_here_stored`, `store_strayBytes`).
-/

set_option autoImplicit false

namespace ThreadedForth

/-- A byte that is in memory, after a write to some byte. -/
theorem Memory.readByte_writeByte_of_lt (m : Memory) {a b : Addr} {v : UInt8}
    (h : b.toNat < m.capacity) :
    (m.writeByte a v).readByte b = if b = a then v else m.readByte b := by
  rw [readByte_writeByte]
  by_cases hab : b = a
  · rw [if_pos ⟨hab, hab ▸ h⟩, if_pos hab]
  · rw [if_neg fun h' => hab h'.1, if_neg hab]

/-- A byte that is in memory, after a write to some cell. -/
theorem Memory.readByte_writeCell_of_lt (m : Memory) {a b : Addr} {v : Cell}
    (h : b.toNat < m.capacity) :
    (m.writeCell a v).readByte b =
      if b = a + 1 then Cell.highByte v else if b = a then Cell.lowByte v else m.readByte b := by
  rw [writeCell, readByte_writeByte_of_lt _ (by rwa [capacity_writeByte]),
    readByte_writeByte_of_lt _ h]

namespace Dictionary

/-- The address is where definitions go, as `here` is. -/
def Inside (d : Dictionary) (a : Addr) : Prop :=
  Layout.firstEntry.toNat ≤ a.toNat ∧ a.toNat < d.capacity

instance (d : Dictionary) (a : Addr) : Decidable (d.Inside a) := inferInstanceAs (Decidable (_ ∧ _))

/-- The address is no farther from `here` than a cell can tell. -/
def Near (d : Dictionary) (a : Addr) : Prop :=
  -32768 ≤ (a.toNat : Int) - d.here.toNat ∧ (a.toNat : Int) - d.here.toNat ≤ 32767

instance (d : Dictionary) (a : Addr) : Decidable (d.Near a) := inferInstanceAs (Decidable (_ ∧ _))

/-! ## What a store writes -/

/-- The memory after a store that is not checked: of a byte where the width is zero, and of a cell
otherwise. -/
def stored (d : Dictionary) (v : Cell) (a : Addr) (width : Cell) : Dictionary :=
  if width = 0 then d.writeByte a (Cell.lowByte v) else d.writeCell a v

/-- The cell `here` after such a store. A byte can be one of its two, and of a cell one of the bytes
or both can be. -/
def hereAfter (here v : Cell) (a : Addr) (width : Cell) : Cell :=
  if width = 0 then
    if a = SystemCell.here.addr then Cell.ofBytes (Cell.lowByte v) (Cell.highByte here)
    else if a = SystemCell.here.addr + 1 then Cell.ofBytes (Cell.lowByte here) (Cell.lowByte v)
    else here
  else if a = SystemCell.here.addr then v
  else if a = SystemCell.here.addr - 1 then Cell.ofBytes (Cell.highByte v) (Cell.highByte here)
  else if a = SystemCell.here.addr + 1 then Cell.ofBytes (Cell.lowByte here) (Cell.lowByte v)
  else here

/-- The cell `here` is the two bytes at its address and after it. -/
theorem reserved_here_eq (d : Dictionary) :
    d.reserved .here = Cell.ofBytes (d.memory.readByte 2) (d.memory.readByte 3) :=
  d.memory.readCell_eq 2

theorem reserved_here_stored (d : Dictionary) (v : Cell) (a : Addr) (width : Cell)
    (hcap : 4 ≤ d.capacity) :
    (d.stored v a width).reserved .here = hereAfter (d.reserved .here) v a width := by
  have h2 : (2 : Addr).toNat < d.memory.capacity := Nat.lt_of_lt_of_le (by decide) hcap
  have h3 : (3 : Addr).toNat < d.memory.capacity := Nat.lt_of_lt_of_le (by decide) hcap
  have haddr : SystemCell.here.addr = 2 := rfl
  have hprev : SystemCell.here.addr - 1 = 1 := rfl
  have hnext : SystemCell.here.addr + 1 = 3 := rfl
  unfold hereAfter
  rw [hprev, hnext, haddr, reserved_here_eq, reserved_here_eq d, Cell.lowByte_ofBytes,
    Cell.highByte_ofBytes]
  unfold stored
  split
  · -- a byte is the low one, the high one or another one
    show Cell.ofBytes ((d.memory.writeByte a _).readByte 2) ((d.memory.writeByte a _).readByte 3) = _
    rw [Memory.readByte_writeByte_of_lt _ h2, Memory.readByte_writeByte_of_lt _ h3]
    by_cases ha2 : a = 2
    · rw [ha2]
      rfl
    by_cases ha3 : a = 3
    · rw [ha3]
      rfl
    rw [if_neg (Ne.symm ha2), if_neg (Ne.symm ha3), if_neg ha2, if_neg ha3]
  · -- a cell begins at the low byte, before it or at the high byte, or it has neither
    show Cell.ofBytes ((d.memory.writeCell a _).readByte 2) ((d.memory.writeCell a _).readByte 3) = _
    rw [Memory.readByte_writeCell_of_lt _ h2, Memory.readByte_writeCell_of_lt _ h3]
    by_cases ha2 : a = 2
    · rw [ha2]
      exact Cell.ofBytes_lowByte_highByte v
    by_cases ha1 : a = 1
    · rw [ha1]
      rfl
    by_cases ha3 : a = 3
    · rw [ha3]
      rfl
    have h2a : (2 : Addr) ≠ a + 1 := by grind
    have h3a : (3 : Addr) ≠ a + 1 := by grind
    rw [if_neg h2a, if_neg (Ne.symm ha2), if_neg h3a, if_neg (Ne.symm ha3), if_neg ha2,
      if_neg ha1, if_neg ha3]

/-! ## A cell that is stored at `here` -/

/-- What has to be taken to make an address of `here`, or given back. -/
def distanceTo (d : Dictionary) (v : Cell) : Cell := v - d.reserved .here

theorem here_add_distanceTo (d : Dictionary) (v : Cell) :
    d.here + (d.distanceTo v).toUInt16 = v.toUInt16 := by
  rw [distanceTo, Int16.toUInt16_sub]
  show d.here + (v.toUInt16 - d.here) = _
  rw [UInt16.add_comm, UInt16.sub_add_cancel]

/-- There is room for the distance where the address is one for definitions and near enough. A distance
that wraps leads out of the memory, to the address and `2 ^ 16` above it or below it. -/
theorem fits_distanceTo_iff (d : Dictionary) (v : Cell) :
    (Layout.firstEntry.toNat ≤ d.here.toNat + (d.distanceTo v).toInt ∧
        d.here.toNat + (d.distanceTo v).toInt < d.capacity) ↔
      d.Inside v.toUInt16 ∧ d.Near v.toUInt16 := by
  have hbits : (d.distanceTo v).toUInt16.toNat =
      (65536 - d.here.toNat + v.toUInt16.toNat) % 65536 := by
    rw [distanceTo, Int16.toUInt16_sub, UInt16.toNat_sub]
    rfl
  have hcap := d.capacity_le
  have hhere := d.here.toNat_lt
  have hv := v.toUInt16.toNat_lt
  rw [toInt_eq, hbits, toNat_firstEntry, Inside, Near, toNat_firstEntry]
  split <;> omega

theorem allot_distanceTo (d : Dictionary) (v : Cell) :
    allot (d.distanceTo v) d =
      if d.Inside v.toUInt16 ∧ d.Near v.toUInt16 then
        .ok d.here (d.writeCell SystemCell.here.addr v)
      else .error (.dictionaryFull d.here (d.distanceTo v)) d := by
  split
  · rename_i h
    rw [allot_eq_of_fits ((d.fits_distanceTo_iff v).2 h), here_add_distanceTo]
    show EStateM.Result.ok _ (d.writeCell _ v.toUInt16.toInt16) = _
    rw [Int16.toInt16_toUInt16]
  · rename_i h
    exact allot_eq_of_not_fits fun h' => h ((d.fits_distanceTo_iff v).1 h')

end Dictionary

namespace Machine

open Dictionary

variable {H : Type} {m : Machine H} {v addr width : Cell} {vs : List Cell}

/-- The store is of a cell and at the address of the cell `here`. -/
def MovesHere (addr width : Cell) : Prop := width ≠ 0 ∧ addr.toUInt16 = SystemCell.here.addr

instance (addr width : Cell) : Decidable (MovesHere addr width) := inferInstanceAs (Decidable (_ ∧ _))

/-- The machine after a store that left it this dictionary. -/
def afterStore (m : Machine H) (d : Dictionary) : Machine H :=
  { m with dictionary := d, data := m.data.drop 3 }

/-- A store that does not move `here` is not checked. -/
theorem store_of_not_movesHere (hcells : m.data.cells = width :: addr :: v :: vs)
    (h : ¬ MovesHere addr width) :
    store m = .ok () (m.afterStore (m.dictionary.stored v addr.toUInt16 width)) := by
  rcases m with ⟨d, s, returns, ip, host⟩
  replace hcells : s.cells = width :: addr :: v :: vs := hcells
  by_cases hwidth : width = 0
  · simp only [store, onData, StackM.pop3, hcells, modifyDictionary, afterStore, stored,
      if_pos hwidth, bind, EStateM.bind]
  · have haddr : addr.toUInt16 ≠ SystemCell.here.addr := fun haddr => h ⟨hwidth, haddr⟩
    simp only [store, onData, StackM.pop3, hcells, modifyDictionary, afterStore, stored,
      if_neg hwidth, if_neg haddr, bind, EStateM.bind]

/-- A store that moves `here` is made where it moves it into the dictionary and not too far. -/
theorem store_of_movesHere (hcells : m.data.cells = width :: addr :: v :: vs)
    (h : MovesHere addr width) :
    store m =
      if m.dictionary.Inside v.toUInt16 ∧ m.dictionary.Near v.toUInt16 then
        .ok () (m.afterStore (m.dictionary.stored v addr.toUInt16 width))
      else
        .error (.error (.dictionaryFull m.dictionary.here (m.dictionary.distanceTo v)))
          (m.afterStore m.dictionary) := by
  rcases m with ⟨d, s, returns, ip, host⟩
  replace hcells : s.cells = width :: addr :: v :: vs := hcells
  obtain ⟨hwidth, haddr⟩ := h
  have hallot : allot (v - d.reserved .here) d = _ := d.allot_distanceTo v
  by_cases hfits : d.Inside v.toUInt16 ∧ d.Near v.toUInt16
  · have hstored : d.stored v addr.toUInt16 width = d.writeCell SystemCell.here.addr v := by
      rw [stored, if_neg hwidth, haddr]
    rw [if_pos hfits] at hallot ⊢
    simp only [store, onData, StackM.pop3, hcells, onDictionary, afterStore, hstored, hallot,
      if_neg hwidth, if_pos haddr, discard, Functor.discard, Functor.mapConst,
      Function.comp_apply, EStateM.map, bind, EStateM.bind]
  · rw [if_neg hfits] at hallot ⊢
    simp only [store, onData, StackM.pop3, hcells, onDictionary, afterStore, hallot,
      if_neg hwidth, if_pos haddr, discard, Functor.discard, Functor.mapConst,
      Function.comp_apply, EStateM.map, bind, EStateM.bind]

/-- Of the stores that change the cell `here` only one is checked, that of a cell at its address. It
takes `here` to the address that is stored or changes no memory, and it takes it to every address
for definitions that is near. All others are made, whatever becomes of `here`. -/
theorem store_here (hready : m.dictionary.Ready)
    (hcells : m.data.cells = width :: addr :: v :: vs) :
    let stored := m.dictionary.stored v addr.toUInt16 width
    let full := Error.dictionaryFull m.dictionary.here (m.dictionary.distanceTo v)
    stored.reserved .here = hereAfter (m.dictionary.reserved .here) v addr.toUInt16 width ∧
      (MovesHere addr width →
        (store m = .ok () (m.afterStore stored) ∧ stored.here = v.toUInt16 ∧
            m.dictionary.Inside v.toUInt16 ∨
          store m = .error (.error full) (m.afterStore m.dictionary)) ∧
        (m.dictionary.Inside v.toUInt16 → m.dictionary.Near v.toUInt16 →
          store m = .ok () (m.afterStore stored))) ∧
      (¬ MovesHere addr width → store m = .ok () (m.afterStore stored)) := by
  intro stored full
  have hcap : 4 ≤ m.dictionary.capacity := by
    have hlt := hready.here_lt
    have hle := hready.le_here
    rw [toNat_firstEntry] at hle
    omega
  have hstored := m.dictionary.reserved_here_stored v addr.toUInt16 width hcap
  refine ⟨hstored, fun h => ⟨?_, fun hinside hnear => ?_⟩, store_of_not_movesHere hcells⟩
  · rw [store_of_movesHere hcells h]
    split
    · rename_i hfits
      have hhere : stored.here = v.toUInt16 := by
        show (stored.reserved .here).toUInt16 = _
        rw [hstored, hereAfter, if_neg h.1, if_pos h.2]
      exact .inl ⟨rfl, hhere, hfits.1⟩
    · exact .inr rfl
  · rw [store_of_movesHere hcells h, if_pos ⟨hinside, hnear⟩]

/-- A machine that is to store a cell and has room for it on its stack. -/
def storing (v addr width : Cell) : Machine Unit :=
  { ofDictionary (.setUp ⟨.sparse (.zeros 65536)⟩) () ⟨3, 0, 0⟩ with
    data := ⟨3, [width, addr, v], 3, rfl, Nat.le_refl _⟩ }

/-- A cell that is stored at the address of `here` moves it. -/
theorem store_here_forward :
    (storing 200 2 1).dictionary.Ready ∧ MovesHere 2 1 ∧
      ∃ m', store (storing 200 2 1) = .ok () m' ∧ m'.dictionary.reserved .here = 200 := by
  have hready : (storing 200 2 1).dictionary.Ready := by decide +kernel
  have hcells : (storing 200 2 1).data.cells = [1, 2, 200] := rfl
  obtain ⟨hhere, hmoves, -⟩ := store_here hready hcells
  have hstore := (hmoves (by decide)).2 (by decide +kernel) (by decide +kernel)
  refine ⟨hready, by decide, _, hstore, ?_⟩
  show Dictionary.reserved (stored _ _ _ _) _ = _
  rw [hhere]
  decide

/-- A byte of `here` is stored without a check, and `here` is not where definitions go. An address that
is where definitions go, but too far away, is refused. -/
theorem store_strayBytes :
    ((storing 0 2 0).dictionary.Ready ∧ (storing 0 2 0).dictionary.here = 96 ∧
        value? (store (storing 0 2 0)) = some () ∧
        (lastState (store (storing 0 2 0))).dictionary.here = 0 ∧
        ¬ (storing 0 2 0).dictionary.Inside 0) ∧
      ((storing 40000 2 1).dictionary.Ready ∧ (storing 40000 2 1).dictionary.Inside 40000 ∧
        error? (store (storing 40000 2 1)) = some (.error (.dictionaryFull 96 (-25632)))) := by
  decide +kernel

end Machine

end ThreadedForth
