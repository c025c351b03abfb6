import ThreadedForth.Proofs.Dictionary.Extends

/-!
# Where room is taken, and nowhere else

To take room writes between the old `here` and the new one. `Appends d d'` says so of all bytes
from the first definition on: those below the old `here` and those from the new one on are the
same, and `here` did not go back. It holds of every operation that takes room, whether it succeeds
or fails part-way, and in any state of `here`: a request that would leave the memory is refused.

To link an entry takes no room. It writes the cells of `linkCells` and no others
(`readByte_of_link_eq_ok`), wherever the entry lies.
-/

set_option autoImplicit false

namespace ThreadedForth.Dictionary

variable {d d' d'' : Dictionary} {entry : Addr}

/-- From the first definition on, nothing changed but between the old `here` and the new one. -/
structure Appends (d d' : Dictionary) : Prop where
  capacity_eq : d'.capacity = d.capacity
  here_le : d.here.toNat ≤ d'.here.toNat
  here_eq_or_lt : d'.here = d.here ∨ d'.here.toNat < d'.capacity
  agreeOn_below : d.AgreeOn d' 96 d.here.toNat
  agreeOn_above : d.AgreeOn d' (max 96 d'.here.toNat) 65536

namespace Appends

theorem refl (d : Dictionary) : d.Appends d :=
  ⟨rfl, Nat.le_refl _, Or.inl rfl, .refl _ _ _, .refl _ _ _⟩

theorem trans (h : d.Appends d') (h' : d'.Appends d'') : d.Appends d'' := by
  have hle := h'.here_le
  refine ⟨h'.capacity_eq.trans h.capacity_eq, Nat.le_trans h.here_le hle, ?_, ?_, ?_⟩
  · rcases h'.here_eq_or_lt with heq | hlt
    · rcases h.here_eq_or_lt with heq' | hlt'
      · exact Or.inl (heq.trans heq')
      · right
        rw [heq, h'.capacity_eq]
        exact hlt'
    · exact Or.inr hlt
  · exact h.agreeOn_below.trans (h'.agreeOn_below.mono (Nat.le_refl _) h.here_le)
  · exact (h.agreeOn_above.mono (by omega) (Nat.le_refl _)).trans h'.agreeOn_above

theorem ready (h : d.Appends d') (hd : d.Ready) : d'.Ready := by
  constructor
  · exact Nat.le_trans hd.le_here h.here_le
  · rcases h.here_eq_or_lt with heq | hlt
    · rw [heq, h.capacity_eq]
      exact hd.here_lt
    · exact hlt

end Appends

/-- What grew appended, if nothing is written from the new `here` on. -/
theorem Grows.appends (h : d.Grows d') (habove : d.AgreeOn d' (max 96 d'.here.toNat) 65536) :
    d.Appends d' :=
  ⟨h.capacity_eq, h.here_le, Or.inr h.here_lt, h.agreeOn.mono (by decide) (Nat.le_refl _), habove⟩

theorem InputOnly.appends (h : d.InputOnly d') : d.Appends d' := by
  have htop := d.here.toNat_lt
  refine ⟨h.capacity_eq, ?_, Or.inl h.here_eq, ?_, ?_⟩
  · exact Nat.le_of_eq (congrArg UInt16.toNat h.here_eq.symm)
  · exact h.agreeOn_above.mono (Nat.le_refl _) (by omega)
  · exact h.agreeOn_above.mono (Nat.le_max_left _ _) (Nat.le_refl _)

/-- The reserved cells lie below all definitions. -/
theorem appends_setReserved (d : Dictionary) (c : SystemCell) (v : Cell) (hc : c ≠ .here) :
    d.Appends (d.setReserved c v) := by
  have htop := c.toNat_addr_add_two_le
  have hhere := d.here_setReserved c v hc
  refine ⟨capacity_setReserved .., Nat.le_of_eq (congrArg UInt16.toNat hhere.symm), Or.inl hhere,
    ?_, ?_⟩
  · exact d.agreeOn_setReserved c v (Or.inl (by omega))
  · exact d.agreeOn_setReserved c v (Or.inl (by omega))

/-! ## Taking room -/

theorem appends_allot {amount : Cell} (h0 : 0 ≤ amount.toInt) : Relates Appends (allot amount) := by
  refine .of_ok .refl eq_of_allot_eq_error fun {d d' _} h => (grows_of_allot h h0).appends ?_
  rw [(of_allot_eq_ok h).2.1]
  exact (d.agreeOn_setHere _).mono (by omega) (Nat.le_refl _)

theorem appends_append (v : Cell) : Relates Appends (append v) := by
  refine .of_ok .refl eq_of_append_eq_error fun {d d' u} h => ?_
  obtain ⟨hgrow, hready, hnum, -⟩ := of_append_eq_ok h
  have hlt := hready.here_lt
  have hcap := d'.capacity_le
  obtain ⟨a, d1, hallot, hwrite⟩ := exists_of_bind_eq_ok h
  cases hwrite
  obtain ⟨rfl, hd1, -, -⟩ := of_allot_eq_ok hallot
  -- the cell is written to the two bytes that the allotment took
  have hmove : d.AgreeOn d1 4 65536 := by
    rw [hd1]
    exact d.agreeOn_setHere _
  refine hgrow.appends ((hmove.mono (by omega) (Nat.le_refl _)).trans ?_)
  exact d1.agreeOn_writeCell v (by omega) (Or.inl (by omega))

theorem appends_forM_append (vs : List Cell) : Relates Appends (vs.forM append) := by
  induction vs with
  | nil => exact .refl
  | cons v vs ih => exact .bind .trans (appends_append v) fun _ => ih

theorem appends_alignHere : Relates Appends alignHere := relates_alignHere_of appends_allot

/-- A name is copied to the room that was taken for it, and not past it. -/
theorem appends_of_allot_copyBytes {name : Span} {target : Addr} (hlen : name.length.toNat < 32)
    (h : allot name.length.toInt16 d = .ok target d') :
    d.Appends (d'.copyBytes name.start target name.length.toNat) := by
  obtain ⟨hgrow, rfl, hhere⟩ := of_allot_copyBytes hlen h
  have hlt := hgrow.here_lt
  have hcap := d'.capacity_le
  rw [capacity_copyBytes] at hlt
  have hmove : d.AgreeOn d' 4 65536 := by
    rw [(of_allot_eq_ok h).2.1]
    exact d.agreeOn_setHere _
  refine hgrow.appends ((hmove.mono (by omega) (Nat.le_refl _)).trans ?_)
  exact d'.agreeOn_copyBytes _ _ _ (by omega) (Or.inl (by omega))

theorem appends_define (name : Span) : Relates Appends (define name) :=
  relates_define_of .refl .trans appends_allot appends_append appends_of_allot_copyBytes name

/-! ## Linking -/

/-- The cells that change when an entry is linked: the first cell of its header, the second one if
there is one, and the cell `latest`. -/
def linkCells (d : Dictionary) (entry : Addr) : List Addr :=
  (if Header.isLong (d.readCell entry) then [entry, entry + cellSize] else [entry]) ++
    [SystemCell.latest.addr]

theorem readByte_writeCell_of_ne (d : Dictionary) {a b : Addr} (v : Cell) (h : b ≠ a)
    (h' : b ≠ a + 1) : (d.writeCell a v).readByte b = d.readByte b := by
  simp only [readByte, writeCell, Memory.readByte_writeCell]
  rw [if_neg fun hb => h' hb.1, if_neg fun hb => h hb.1]

/-- To link an entry changes no byte outside the cells of `linkCells`, even where they wrap. -/
theorem readByte_of_link_eq_ok (h : link entry d = .ok () d') {a : Addr}
    (ha : ∀ c ∈ d.linkCells entry, a ≠ c ∧ a ≠ c + 1) : d'.readByte a = d.readByte a := by
  obtain ⟨rfl, -, -⟩ := of_link_eq_ok h
  obtain ⟨hlatest, hlatest'⟩ := ha SystemCell.latest.addr (by simp [linkCells])
  have hfirst : entry ∈ d.linkCells entry := by
    unfold linkCells
    split <;> simp
  obtain ⟨hentry, hentry'⟩ := ha entry hfirst
  simp only [setReservedAddr, setReserved, writeDistance]
  rw [readByte_writeCell_of_ne _ _ hlatest hlatest', readByte_writeCell_of_ne _ _ hentry hentry']
  split
  · rename_i hlong
    obtain ⟨hsecond, hsecond'⟩ := ha (entry + cellSize) (by simp [linkCells, hlong])
    exact readByte_writeCell_of_ne _ _ hsecond hsecond'
  · rfl

end ThreadedForth.Dictionary
