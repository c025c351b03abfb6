import ThreadedForth.Proofs.Dictionary.Code
import ThreadedForth.Proofs.Dictionary.Definition
import ThreadedForth.Proofs.Dictionary.Input

/-!
# What lies below `here` stays

While a definition is compiled, lines are loaded, words are read, headers and cells are added and
the cells about the compilation change. All of these leave what lies below `here` as it is, and
the latest entry the latest: `Extends d d'`. Only linking an entry does more. `Continues` says in
addition that the cells about the compilation stay, and `Added` that nothing but cells was added.
-/

set_option autoImplicit false

namespace ThreadedForth.Dictionary

variable {d d' d'' d1 : Dictionary} {entry : Addr} {vs : List Cell}

/-- `here` did not go back, and the definitions below it, linked and not, are the same. -/
structure Extends (d d' : Dictionary) : Prop where
  capacity_eq : d'.capacity = d.capacity
  here_le : d.here.toNat ≤ d'.here.toNat
  here_lt : d'.here.toNat < d'.capacity
  agreeOn : d.AgreeOn d' 96 d.here.toNat
  latest_eq : d'.latest = d.latest

namespace Extends

theorem refl (h : d.Ready) : d.Extends d := ⟨rfl, Nat.le_refl _, h.here_lt, .refl _ _ _, rfl⟩

theorem trans (h : d.Extends d') (h' : d'.Extends d'') : d.Extends d'' where
  capacity_eq := h'.capacity_eq.trans h.capacity_eq
  here_le := Nat.le_trans h.here_le h'.here_le
  here_lt := h'.here_lt
  agreeOn := h.agreeOn.trans (h'.agreeOn.mono (Nat.le_refl _) h.here_le)
  latest_eq := h'.latest_eq.trans h.latest_eq

theorem ready (h : d.Extends d') (hd : d.Ready) : d'.Ready :=
  ⟨Nat.le_trans hd.le_here h.here_le, h.here_lt⟩

theorem hasHeader (h : d.Extends d') (hh : d.HasHeader entry) : d'.HasHeader entry :=
  hh.of_agreeOn h.agreeOn hh.le_entry hh.body_le (Nat.le_trans hh.body_le h.here_le)

theorem readCell_entry (h : d.Extends d') (hh : d.HasHeader entry) :
    d'.readCell entry = d.readCell entry := by
  have hbelow := hh.lt_body
  have hend := hh.body_le
  have htop := d.here.toNat_lt
  exact h.agreeOn.readCell hh.le_entry (by omega) (by omega)

theorem entryBody_eq (h : d.Extends d') (hh : d.HasHeader entry) :
    d'.entryBody entry = d.entryBody entry :=
  Dictionary.entryBody_eq (entryName_eq (h.readCell_entry hh))

end Extends

/-- To make `here` even makes it ready, wherever it was. -/
theorem extends_of_alignHere {a : Addr} (h : alignHere d = .ok a d') :
    d.Extends d' ∧ d'.Ready ∧ a = d'.here ∧ a.toNat = d.here.toNat + d.here.toNat % 2 := by
  obtain ⟨rfl, hgrow, hready, hnum, hagree⟩ := of_alignHere_eq_ok h
  exact ⟨⟨hgrow.capacity_eq, hgrow.here_le, hgrow.here_lt,
    hgrow.agreeOn.mono (by decide) (Nat.le_refl _), hagree.reservedAddr (by decide) (by decide)⟩,
    hready, rfl, hnum⟩

theorem Grows.extends (h : d.Grows d') (hd : d.Ready) : d.Extends d' :=
  ⟨h.capacity_eq, h.here_le, h.here_lt, h.agreeOn.mono (by decide) (Nat.le_refl _),
    h.latest_eq hd⟩

theorem InputOnly.extends (h : d.InputOnly d') (hd : d.Ready) : d.Extends d' :=
  ⟨h.capacity_eq, Nat.le_of_eq (congrArg UInt16.toNat h.here_eq.symm), (h.ready hd).here_lt,
    h.agreeOn_above.mono (Nat.le_refl _) (Nat.le_of_lt d.here.toNat_lt), h.latest_eq⟩

/-- The cells after `latest` tell nothing about what lies below `here`. -/
theorem extends_setReserved (hd : d.Ready) (c : SystemCell) (v : Cell) (hc : 6 ≤ c.addr.toNat) :
    d.Extends (d.setReserved c v) := by
  have htop := c.toNat_addr_add_two_le
  have hbelow : d.AgreeOn (d.setReserved c v) 0 6 := d.agreeOn_setReserved c v (Or.inr hc)
  have hhere : (d.setReserved c v).here = d.here :=
    hbelow.reservedAddr (c := .here) (Nat.zero_le _) (by decide)
  refine ⟨capacity_setReserved .., ?_, ?_, ?_, ?_⟩
  · exact Nat.le_of_eq (congrArg UInt16.toNat hhere).symm
  · rw [hhere, capacity_setReserved]
    exact hd.here_lt
  · exact d.agreeOn_setReserved c v (Or.inl (by omega))
  · exact hbelow.reservedAddr (c := .latest) (Nat.zero_le _) (Nat.le_refl _)

theorem here_setReserved (d : Dictionary) (c : SystemCell) (v : Cell) (hc : c ≠ .here) :
    (d.setReserved c v).here = d.here :=
  congrArg Int16.toUInt16 (d.reserved_setReserved_of_ne v hc.symm)

theorem latest_setReserved (d : Dictionary) (c : SystemCell) (v : Cell) (hc : c ≠ .latest) :
    (d.setReserved c v).latest = d.latest :=
  congrArg Int16.toUInt16 (d.reserved_setReserved_of_ne v hc.symm)

theorem compiling_setReserved (d : Dictionary) (v : Cell) (hcap : 16 ≤ d.capacity) :
    (d.setReserved .compiling v).compiling = (v != 0) := by
  unfold compiling
  rw [reserved_setReserved d .compiling v hcap]

/-! ## Cells that are added -/

/-- What lies below `here` stays, and so do the compilation and the entry that is said to be
open. -/
structure Continues (d d' : Dictionary) : Prop where
  ext : d.Extends d'
  agreeOn : d.AgreeOn d' 6 10

theorem Continues.refl (h : d.Ready) : d.Continues d := ⟨.refl h, .refl _ _ _⟩

theorem Continues.trans (h : d.Continues d') (h' : d'.Continues d'') : d.Continues d'' :=
  ⟨h.ext.trans h'.ext, h.agreeOn.trans h'.agreeOn⟩

theorem Continues.compiling_eq (h : d.Continues d') : d'.compiling = d.compiling := by
  unfold compiling
  rw [h.agreeOn.reserved (by decide) (by decide)]

theorem InputOnly.continues (h : d.InputOnly d') (hd : d.Ready) : d.Continues d' :=
  ⟨h.extends hd, h.agreeOn_below.mono (by decide) (Nat.le_refl _)⟩

theorem Grows.continues (h : d.Grows d') (hd : d.Ready) : d.Continues d' := by
  have hle := hd.le_here
  rw [toNat_firstEntry] at hle
  constructor
  · exact h.extends hd
  · exact h.agreeOn.mono (by decide) (by omega)

/-- Cells were added where `here` was. -/
structure Added (d d' : Dictionary) (vs : List Cell) : Prop where
  continues : d.Continues d'
  fits : d.here.toNat + 2 * vs.length < 65536
  here_eq : d'.here = after d.here vs
  cellsAt : d'.CellsAt d.here vs

theorem added_of_forM_append (hd : d.Ready) (h : vs.forM append d = .ok () d') : d.Added d' vs := by
  obtain ⟨hgrow, hnum, hcells⟩ := of_forM_append_eq_ok hd h
  have hfits : d.here.toNat + 2 * vs.length < 65536 := by
    rw [← hnum]
    exact d'.here.toNat_lt
  refine ⟨hgrow.continues hd, hfits, UInt16.toNat_inj.1 ?_, hcells⟩
  rw [hnum, toNat_after hfits]

theorem Added.of_inputOnly (h : d1.Added d' vs) (hd : d.Ready) (hreads : d.InputOnly d1) :
    d.Added d' vs := by
  have hhere := hreads.here_eq
  refine ⟨(hreads.continues hd).trans h.continues, ?_, ?_, ?_⟩
  · rw [← hhere]
    exact h.fits
  · rw [← hhere]
    exact h.here_eq
  · rw [← hhere]
    exact h.cellsAt

/-! ## Programs that only add

Where nothing says that a program succeeds, it is known to keep the capacity, and to extend a
dictionary that is ready. -/

/-- The address in the cell `openEntry`. -/
abbrev openEntry (d : Dictionary) : Addr := d.reservedAddr .openEntry

/-- What lies below `here` stays, if `here` is where definitions go, and no entry below it is said
to be open that was not said to be before. -/
structure Adds (d d' : Dictionary) : Prop where
  capacity_eq : d'.capacity = d.capacity
  ext (h : d.Ready) : d.Extends d'
  openEntry_eq_or_le (h : d.Ready) :
    d'.openEntry = d.openEntry ∨ d.here.toNat ≤ d'.openEntry.toNat

namespace Adds

theorem refl (d : Dictionary) : d.Adds d := ⟨rfl, .refl, fun _ => Or.inl rfl⟩

theorem trans (h : d.Adds d') (h' : d'.Adds d'') : d.Adds d'' := by
  refine ⟨h'.capacity_eq.trans h.capacity_eq,
    fun hd => (h.ext hd).trans (h'.ext ((h.ext hd).ready hd)), fun hd => ?_⟩
  have hext := h.ext hd
  rcases h'.openEntry_eq_or_le (hext.ready hd) with heq | hle
  · rw [heq]
    exact h.openEntry_eq_or_le hd
  · exact Or.inr (Nat.le_trans hext.here_le hle)

end Adds

theorem InputOnly.adds (h : d.InputOnly d') : d.Adds d' :=
  ⟨h.capacity_eq, h.extends, fun _ => Or.inl (h.reservedAddr (by decide))⟩

theorem Grows.adds (h : d.Grows d') : d.Adds d' :=
  ⟨h.capacity_eq, h.extends, fun hd => Or.inl (h.reservedAddr hd (by decide))⟩

theorem adds_setReserved (d : Dictionary) (c : SystemCell) (v : Cell) (hc : 6 ≤ c.addr.toNat)
    (hopen : c ≠ .openEntry) : d.Adds (d.setReserved c v) :=
  ⟨capacity_setReserved .., fun hd => extends_setReserved hd c v hc,
    fun _ => Or.inl (congrArg Int16.toUInt16 (d.reserved_setReserved_of_ne v hopen.symm))⟩

/-- An entry above all others is said to be open. -/
theorem adds_setOpenEntry (hle : d.here.toNat ≤ entry.toNat) :
    d.Adds (d.setReservedAddr .openEntry entry) := by
  refine ⟨capacity_setReserved .., fun hd => extends_setReserved hd .openEntry _ (by decide),
    fun hd => Or.inr ?_⟩
  have hfirst := hd.le_here
  have hlt := hd.here_lt
  rw [toNat_firstEntry] at hfirst
  unfold openEntry
  rw [reservedAddr, setReservedAddr, reserved_setReserved _ _ _ (by omega),
    UInt16.toUInt16_toInt16]
  exact hle

theorem relates_append (v : Cell) : Relates Adds (append v) :=
  .of_ok .refl eq_of_append_eq_error fun h => (of_append_eq_ok h).1.adds

theorem relates_forM_append (vs : List Cell) : Relates Adds (vs.forM append) := by
  induction vs with
  | nil => exact fun d => .refl d
  | cons v vs ih => exact .bind .trans (relates_append v) fun _ => ih

theorem relates_allot {amount : Cell} (h0 : 0 ≤ amount.toInt) : Relates Adds (allot amount) :=
  .of_ok .refl eq_of_allot_eq_error fun h => (grows_of_allot h h0).adds

/-! ## What the parts of a header keep -/

section Parts

variable {R : Dictionary → Dictionary → Prop} (refl : ∀ d, R d d)
  (trans : ∀ {d d' d''}, R d d' → R d' d'' → R d d'')
  (room : ∀ {amount : Cell}, 0 ≤ amount.toInt → Relates R (allot amount))
  (add : ∀ v, Relates R (append v))

include refl trans add in
theorem relates_appendHeader_of (info : Cell) : Relates R (appendHeader info) := by
  refine .bind trans (add info) fun _ => ?_
  split
  · exact add 0
  · exact refl

include room

/-- To make `here` even is to take the room to the next even address. -/
theorem relates_alignHere_of : Relates R alignHere := by
  intro d
  have hpadding : 0 ≤ (aligned d.here - d.here).toInt16.toInt := by
    rw [toInt_padding]
    omega
  have hallot := room hpadding d
  rw [alignHere_eq]
  split
  · rename_i h
    rw [h] at hallot
    exact hallot
  · rename_i h
    rw [h] at hallot
    exact hallot

include refl trans

/-- The room for a name is taken before the name is copied there. -/
theorem relates_appendName_of {name : Span}
    (copy : ∀ {d target d1}, allot name.length.toInt16 d = .ok target d1 →
      R d (d1.copyBytes name.start target name.length.toNat)) :
    Relates R (appendName name) := by
  intro d
  cases hallot : allot name.length.toInt16 d with
  | error e d1 =>
      have h : appendName name d = .error e d1 := bind_eq_of_error hallot _
      rw [h, lastState_error, eq_of_allot_eq_error hallot]
      exact refl d
  | ok target d1 =>
      have hrest : appendName name d =
          (discard alignHere) (d1.copyBytes name.start target name.length.toNat) :=
        bind_eq_of_ok hallot _
      rw [hrest]
      exact trans (copy hallot) ((relates_alignHere_of room).discard refl trans _)

include add in
/-- A header is written by making `here` even, adding cells and adding the name. What is kept where
room is taken, a cell is added and a short name is copied is kept by all of it. -/
theorem relates_define_of
    (copy : ∀ {name : Span} {d target d1}, name.length.toNat < 32 →
      allot name.length.toInt16 d = .ok target d1 →
      R d (d1.copyBytes name.start target name.length.toNat))
    (name : Span) : Relates R (define name) := by
  rw [define_eq]
  split
  · exact refl
  · rename_i hlen
    refine .bind trans (relates_alignHere_of room) fun entry => .bind trans refl fun d => ?_
    refine .bind trans (relates_appendHeader_of refl trans add _) fun _ => ?_
    exact relates_appendName_of refl trans room (copy (Nat.lt_succ_of_le (Nat.not_lt.1 hlen)))

end Parts

theorem relates_alignHere : Relates Adds alignHere := relates_alignHere_of relates_allot

theorem relates_define (name : Span) : Relates Adds (define name) := by
  refine relates_define_of .refl .trans relates_allot relates_append (fun hlen h => ?_) name
  exact (of_allot_copyBytes hlen h).1.adds

end ThreadedForth.Dictionary
