import ThreadedForth.Proofs.Dictionary.Agreement
import ThreadedForth.Proofs.Program

/-!
# Taking room

Definitions are written at `here` and `here` moves forward, so what lies below it stays as it is.
`Grows d d'` is that relation, and `Ready d` says that `here` is where definitions go. An operation
that takes room and succeeds makes a dictionary grow (`grows_of_allot`, `of_append_eq_ok`,
`of_alignHere_eq_ok`); a request that is refused changes nothing (`eq_of_allot_eq_error`).

Of the reserved cells only `here` itself changes, so agreement starts at the cell after it.
-/

set_option autoImplicit false

namespace ThreadedForth

theorem toNat_firstEntry : Layout.firstEntry.toNat = 96 := rfl

/-- The signed value of a cell in terms of its bits. -/
theorem toInt_eq (c : Cell) :
    c.toInt = if c.toUInt16.toNat < 32768 then (c.toUInt16.toNat : Int)
      else c.toUInt16.toNat - 65536 := by
  have h := BitVec.toInt_eq_toNat_cond c.toBitVec
  rw [Int16.toNat_toBitVec] at h
  change c.toInt = _ at h
  rw [h]
  -- the two conditions for the sign say the same
  split <;> split <;> omega

/-- An address moved by a signed number, as long as the sum is an address. -/
theorem toNat_add_toUInt16 {a : Addr} {c : Cell} (h0 : 0 ≤ a.toNat + c.toInt)
    (h1 : a.toNat + c.toInt < 65536) : ((a + c.toUInt16).toNat : Int) = a.toNat + c.toInt := by
  have ha := a.toNat_lt
  have hc := c.toUInt16.toNat_lt
  rw [toInt_eq] at *
  rw [UInt16.toNat_add]
  split at * <;> omega

theorem toInt_toInt16 {a : Addr} (h : a.toNat < 32768) : a.toInt16.toInt = a.toNat := by
  rw [toInt_eq, UInt16.toUInt16_toInt16, if_pos h]

namespace Dictionary

variable {d d' d'' : Dictionary} {a : Addr} {v : Cell}

/-- `here` lies in the part of the memory that is for definitions. -/
structure Ready (d : Dictionary) : Prop where
  le_here : Layout.firstEntry.toNat ≤ d.here.toNat
  here_lt : d.here.toNat < d.capacity

instance (d : Dictionary) : Decidable d.Ready :=
  decidable_of_iff (_ ∧ _) ⟨fun ⟨h, h'⟩ => ⟨h, h'⟩, fun ⟨h, h'⟩ => ⟨h, h'⟩⟩

theorem Ready.of_here_eq (h : d.Ready) (hhere : d'.here = d.here)
    (hcap : d'.capacity = d.capacity) : d'.Ready := by
  constructor
  · rw [hhere]
    exact h.le_here
  · rw [hhere, hcap]
    exact h.here_lt

/-- Room was taken: `here` moved forward, and below it nothing but the cell `here` changed. -/
structure Grows (d d' : Dictionary) : Prop where
  capacity_eq : d'.capacity = d.capacity
  here_le : d.here.toNat ≤ d'.here.toNat
  here_lt : d'.here.toNat < d'.capacity
  agreeOn : d.AgreeOn d' 4 d.here.toNat

namespace Grows

theorem refl (h : d.Ready) : d.Grows d := ⟨rfl, Nat.le_refl _, h.here_lt, .refl _ _ _⟩

theorem trans (h : d.Grows d') (h' : d'.Grows d'') : d.Grows d'' where
  capacity_eq := h'.capacity_eq.trans h.capacity_eq
  here_le := Nat.le_trans h.here_le h'.here_le
  here_lt := h'.here_lt
  agreeOn := h.agreeOn.trans (h'.agreeOn.mono (Nat.le_refl _) h.here_le)

theorem ready (h : d.Grows d') (hd : d.Ready) : d'.Ready :=
  ⟨Nat.le_trans hd.le_here h.here_le, h.here_lt⟩

/-- Taking room changes no reserved cell but `here`. -/
theorem reservedAddr (h : d.Grows d') (hd : d.Ready) {c : SystemCell} (hc : 4 ≤ c.addr.toNat) :
    d'.reservedAddr c = d.reservedAddr c := by
  have h0 := hd.le_here
  rw [toNat_firstEntry] at h0
  exact h.agreeOn.reservedAddr hc (by have := c.toNat_addr_add_two_le; omega)

theorem latest_eq (h : d.Grows d') (hd : d.Ready) : d'.latest = d.latest :=
  h.reservedAddr hd (by decide)

theorem compiling_eq (h : d.Grows d') (hd : d.Ready) : d'.compiling = d.compiling := by
  have hle := hd.le_here
  rw [toNat_firstEntry] at hle
  unfold compiling
  rw [h.agreeOn.reserved (by decide) (by show 8 ≤ _; omega)]

end Grows

/-! ## Moving `here` -/

theorem here_setReservedAddr (d : Dictionary) (a : Addr) (h : 16 ≤ d.capacity) :
    (d.setReservedAddr .here a).here = a := by
  rw [here, reservedAddr, setReservedAddr, reserved_setReserved d .here _ h,
    UInt16.toUInt16_toInt16]

theorem agreeOn_setHere (d : Dictionary) (a : Addr) :
    d.AgreeOn (d.setReservedAddr .here a) 4 65536 :=
  d.agreeOn_setReserved .here _ (Or.inl (by decide))

theorem of_allot_eq_ok {amount : Cell} (h : allot amount d = .ok a d') :
    a = d.here ∧ d' = d.setReservedAddr .here (d.here + amount.toUInt16) ∧
      Layout.firstEntry.toNat ≤ d.here.toNat + amount.toInt ∧
      d.here.toNat + amount.toInt < d.capacity := by
  simp only [allot] at h
  split at h
  · rename_i hroom
    cases h
    exact ⟨rfl, rfl, hroom.1, hroom.2⟩
  · cases h

/-- A successful move of `here`, as a number. -/
theorem toNat_here_of_allot {amount : Cell} (h : allot amount d = .ok a d') :
    (d'.here.toNat : Int) = d.here.toNat + amount.toInt ∧ d'.Ready := by
  obtain ⟨-, rfl, hlo, hhi⟩ := of_allot_eq_ok h
  have hcap := d.capacity_le
  rw [toNat_firstEntry] at hlo
  have hhere := here_setReservedAddr d (d.here + amount.toUInt16) (by omega)
  have hsum := toNat_add_toUInt16 (a := d.here) (c := amount) (by omega) (by omega)
  refine ⟨by rw [hhere, hsum], ?_, ?_⟩
  · rw [hhere, toNat_firstEntry]
    omega
  · rw [hhere, capacity_setReservedAddr]
    omega

theorem grows_of_allot {amount : Cell} (h : allot amount d = .ok a d') (h0 : 0 ≤ amount.toInt) :
    d.Grows d' := by
  have hnum := toNat_here_of_allot h
  obtain ⟨-, rfl, -, -⟩ := of_allot_eq_ok h
  have htop := d.here.toNat_lt
  refine ⟨capacity_setReservedAddr .., by omega, hnum.2.here_lt, ?_⟩
  exact (d.agreeOn_setHere _).mono (Nat.le_refl _) (by omega)

/-- A request that is refused changes nothing. -/
theorem eq_of_allot_eq_error {amount : Cell} {e : Error} (h : allot amount d = .error e d') :
    d' = d := by
  simp only [allot] at h
  split at h
  · cases h
  · cases h
    rfl

theorem allot_eq_of_fits {amount : Cell} (h : Layout.firstEntry.toNat ≤ d.here.toNat + amount.toInt ∧
    d.here.toNat + amount.toInt < d.capacity) :
    allot amount d = .ok d.here (d.setReservedAddr .here (d.here + amount.toUInt16)) := by
  simp only [allot]
  exact if_pos h

theorem allot_eq_of_not_fits {amount : Cell}
    (h : ¬ (Layout.firstEntry.toNat ≤ d.here.toNat + amount.toInt ∧
      d.here.toNat + amount.toInt < d.capacity)) :
    allot amount d = .error (.dictionaryFull d.here amount) d := by
  simp only [allot]
  exact if_neg h

/-! ## Adding a cell -/

/-- A cell is added at `here` and can be read there. -/
theorem of_append_eq_ok (h : append v d = .ok () d') :
    d.Grows d' ∧ d'.Ready ∧ d'.here.toNat = d.here.toNat + 2 ∧ d'.readCell d.here = v := by
  obtain ⟨a, d1, hallot, hwrite⟩ := exists_of_bind_eq_ok h
  cases hwrite
  have hnum := toNat_here_of_allot hallot
  have hgrow := grows_of_allot hallot (by decide)
  have h2 : cellSize.toInt16.toInt = 2 := by decide
  have hle := hnum.2.le_here
  have hlt := hnum.2.here_lt
  have hcap := d1.capacity_le
  have hhere := hnum.1
  rw [toNat_firstEntry] at hle
  rw [h2] at hhere
  obtain rfl : a = d.here := (of_allot_eq_ok hallot).1
  -- the cell lies above all reserved cells, so `here` is still what the allotment made it
  have hkeep : d1.AgreeOn (d1.writeCell d.here v) 0 d.here.toNat :=
    d1.agreeOn_writeCell v (by omega) (Or.inr (Nat.le_refl _))
  have hhere' : (d1.writeCell d.here v).here = d1.here :=
    hkeep.reservedAddr (c := .here) (Nat.zero_le _) (by show 4 ≤ _; omega)
  refine ⟨⟨?_, ?_, ?_, ?_⟩, ⟨?_, ?_⟩, ?_, ?_⟩
  · rw [capacity_writeCell, hgrow.capacity_eq]
  · rw [hhere']
    omega
  · rw [hhere', capacity_writeCell]
    exact hlt
  · exact hgrow.agreeOn.trans (hkeep.mono (Nat.zero_le _) (Nat.le_refl _))
  · rw [hhere', toNat_firstEntry]
    omega
  · rw [hhere', capacity_writeCell]
    exact hlt
  · rw [hhere']
    omega
  · exact d1.readCell_writeCell v (by omega)

theorem here_of_append_eq_ok (h : append v d = .ok () d') : d'.here = d.here + cellSize := by
  obtain ⟨-, -, hnum, -⟩ := of_append_eq_ok h
  have htop := d'.here.toNat_lt
  apply UInt16.toNat_inj.1
  rw [hnum, toNat_add_cellSize (by omega)]

theorem eq_of_append_eq_error {e : Error} (h : append v d = .error e d') : d' = d := by
  cases hallot : allot cellSize.toInt16 d with
  | ok a d1 =>
      have h1 : append v d = .ok () (d1.writeCell a v) := bind_eq_of_ok hallot _
      rw [h1] at h
      cases h
  | error e1 d1 =>
      have h1 : append v d = .error e1 d1 := bind_eq_of_error hallot _
      rw [h1] at h
      cases h
      exact eq_of_allot_eq_error hallot

/-- A cell can be added if it ends below the capacity, and not below the first definition. -/
def HasRoom (d : Dictionary) : Prop :=
  Layout.firstEntry.toNat ≤ d.here.toNat + 2 ∧ d.here.toNat + 2 < d.capacity

instance (d : Dictionary) : Decidable d.HasRoom := inferInstanceAs (Decidable (_ ∧ _))

theorem value?_append_iff : value? (append v d) = some () ↔ d.HasRoom := by
  have h2 : cellSize.toInt16.toInt = 2 := by decide
  unfold HasRoom
  constructor
  · intro h
    rcases exists_of_value?_eq_some h with ⟨d', happend⟩
    rcases exists_of_bind_eq_ok happend with ⟨a, d1, hallot, -⟩
    have hroom := (of_allot_eq_ok hallot).2.2
    omega
  · rintro ⟨hlo, hhi⟩
    have hallot : allot cellSize.toInt16 d =
        .ok d.here (d.setReservedAddr .here (d.here + cellSize.toInt16.toUInt16)) := by
      simp only [allot, h2]
      rw [if_pos (by omega)]
    have happend : append v d = .ok () _ := bind_eq_of_ok hallot _
    rw [happend]
    rfl

/-- Without room for a cell nothing is added. -/
theorem append_eq_of_not_hasRoom (h : ¬ d.HasRoom) :
    append v d = .error (.dictionaryFull d.here cellSize.toInt16) d := by
  have h2 : cellSize.toInt16.toInt = 2 := by decide
  unfold HasRoom at h
  refine bind_eq_of_error (allot_eq_of_not_fits ?_) _
  rw [h2]
  omega

/-! ## Making `here` even -/

/-- What is missing to the next even address. -/
theorem toInt_padding (a : Addr) : (aligned a - a).toInt16.toInt = a.toNat % 2 := by
  have ha := a.toNat_lt
  have h : (aligned a - a).toNat = a.toNat % 2 := by
    rw [UInt16.toNat_sub, aligned, UInt16.toNat_mul, UInt16.toNat_div, UInt16.toNat_add]
    show (_ - _ + (_ + 1) % 65536 / 2 * 2 % 65536) % 65536 = _
    omega
  rw [toInt_toInt16 (by omega), h]
  rfl

/-- To make `here` even is to allot what is missing. -/
theorem alignHere_eq (d : Dictionary) :
    alignHere d = match allot (aligned d.here - d.here).toInt16 d with
      | .ok _ d' => .ok d'.here d'
      | .error e d' => .error e d' := by
  have h : alignHere d = EStateM.bind
      (EStateM.map (fun _ => PUnit.unit) (allot (aligned d.here - d.here).toInt16))
      (fun _ d' => .ok d'.here d') d := rfl
  simp only [h, EStateM.bind, EStateM.map]
  cases allot (aligned d.here - d.here).toInt16 d <;> rfl

theorem of_alignHere_eq_ok (h : alignHere d = .ok a d') :
    a = d'.here ∧ d.Grows d' ∧ d'.Ready ∧ d'.here.toNat = d.here.toNat + d.here.toNat % 2 ∧
      d.AgreeOn d' 4 65536 := by
  rw [alignHere_eq] at h
  cases hallot : allot (aligned d.here - d.here).toInt16 d with
  | error e d1 => rw [hallot] at h; cases h
  | ok b d1 =>
      rw [hallot] at h
      cases h
      have hnum := toNat_here_of_allot hallot
      rw [toInt_padding] at hnum
      refine ⟨rfl, grows_of_allot hallot (by rw [toInt_padding]; omega), hnum.2, by omega, ?_⟩
      rw [(of_allot_eq_ok hallot).2.1]
      exact d.agreeOn_setHere _

end Dictionary

end ThreadedForth
