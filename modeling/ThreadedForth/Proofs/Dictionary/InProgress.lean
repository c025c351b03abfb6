import ThreadedForth.Proofs.Dictionary.Chained
import ThreadedForth.Proofs.Dictionary.Draft

/-!
# The definition that is compiled

From its header on a definition that is compiled takes all room up to `here`: the header, the name and
the cells of its code so far (`InProgress d f code`). It is so from the moment when its name is written
(`inProgress_of_define`), and stays so when source text is read and when cells are added
(`InProgress.append`). With an exit after its code it can be linked, and is then a definition like the
others, newer than they are (`InProgress.exists_link_eq_ok`).
-/

set_option autoImplicit false

namespace ThreadedForth.Dictionary

variable {d d' : Dictionary} {f : Definition} {code vs : List Cell} {s : Span} {entry : Addr}

/-- Definitions are kept with what lies below `here`. -/
theorem Extends.chained (h : d.Extends d') {fs : List Definition} (hc : d.Chained fs) : d'.Chained fs :=
  hc.of_agreeOn h.agreeOn (Nat.le_refl _) (fun _ hf => (hc.holds_of_mem hf).body_le_here)
    fun _ hf => Nat.le_trans (hc.holds_of_mem hf).body_le_here h.here_le

/-- The definition `f` is compiled, and its code so far ends at `here`. -/
structure InProgress (d : Dictionary) (f : Definition) (code : List Cell) : Prop where
  compiling_eq : d.compiling = true
  openEntry_eq : d.openEntry = f.addr
  ready : d.Ready
  holds : d.Holds f
  linkable : d.Linkable f.addr
  fits : f.body.toNat + 2 * code.length < 65536
  here_eq : d.here = after f.body code
  cellsAt : d.CellsAt f.body code

namespace InProgress

theorem toNat_here (h : d.InProgress f code) :
    d.here.toNat = f.body.toNat + 2 * code.length := by
  rw [h.here_eq, toNat_after h.fits]

theorem le_body (h : d.InProgress f code) : 98 ≤ f.body.toNat := by
  have hle := h.holds.hasHeader.le_entry
  have hlt := h.holds.addr_lt_body
  rw [toNat_firstEntry] at hle
  omega

/-- To read source text does nothing to the definition. -/
theorem of_inputOnly (h : d.InProgress f code) (hd : d.InputOnly d') : d'.InProgress f code where
  compiling_eq := hd.compiling_eq.trans h.compiling_eq
  openEntry_eq := (hd.reservedAddr (by decide)).trans h.openEntry_eq
  ready := hd.ready h.ready
  holds := by
    have hext := hd.extends h.ready
    exact h.holds.of_agreeOn hext.agreeOn h.holds.hasHeader.le_entry h.holds.body_le_here
      (Nat.le_trans h.holds.body_le_here hext.here_le)
  linkable := by
    unfold Linkable
    rw [hd.latest_eq, (hd.extends h.ready).readCell_entry h.holds.hasHeader]
    exact h.linkable
  fits := h.fits
  here_eq := hd.here_eq.trans h.here_eq
  cellsAt := by
    have hle := h.le_body
    exact h.cellsAt.of_agreeOn (hd.extends h.ready).agreeOn (by omega)
      (Nat.le_of_eq h.toNat_here.symm) h.fits

/-- Cells that are added belong to the code. -/
theorem append (h : d.InProgress f code) (hd : vs.forM append d = .ok () d') :
    d'.InProgress f (code ++ vs) := by
  have hadded := added_of_forM_append h.ready hd
  have hext := hadded.continues.ext
  have hnum := h.toNat_here
  have hle := h.le_body
  have hend := hadded.fits
  refine ⟨hadded.continues.compiling_eq.trans h.compiling_eq,
    (hadded.continues.agreeOn.reservedAddr (by decide) (by decide)).trans h.openEntry_eq,
    hext.ready h.ready, ?_, ?_, ?_, ?_, ?_⟩
  · exact h.holds.of_agreeOn hext.agreeOn h.holds.hasHeader.le_entry h.holds.body_le_here
      (Nat.le_trans h.holds.body_le_here hext.here_le)
  · unfold Linkable
    rw [hext.latest_eq, hext.readCell_entry h.holds.hasHeader]
    exact h.linkable
  · rw [List.length_append]
    omega
  · rw [after_append, ← h.here_eq, hadded.here_eq]
  · refine cellsAt_append.2 ⟨?_, ?_⟩
    · exact h.cellsAt.of_agreeOn hext.agreeOn (by omega) (Nat.le_of_eq hnum.symm) h.fits
    · rw [← h.here_eq]
      exact hadded.cellsAt

end InProgress

/-! ## Beginning -/

/-- An entry that was begun can be linked. -/
theorem Begins.linkable (h : d.Begins d' s entry) (hd : d.Ready) (hle : d.latest ≤ entry) :
    d'.Linkable entry := by
  unfold Linkable
  rw [h.grows.latest_eq hd, h.readCell_entry,
    d.isLong_newHeader entry (Nat.lt_succ_of_le h.length_le)]
  refine ⟨hle, ?_⟩
  by_cases hlong : Header.longDistance ≤ entry - d.latest
  · exact Or.inl (decide_eq_true hlong)
  · exact Or.inr (UInt16.not_le.1 hlong)

/-- A header is written at `here` for the entry that was noted. -/
theorem inProgress_of_define (hd : d.Ready) (heven : d.here.toNat % 2 = 0)
    (hopen : d.openEntry = d.here) (hlatest : d.latest ≤ d.here) (hstart : 16 ≤ s.start.toNat)
    (hstop : s.start.toNat + s.length.toNat ≤ 96) (hdefine : define s d = .ok () d') :
    (d'.setReserved .compiling 1).InProgress ⟨d.here, d.text s, false, d'.here⟩ [] := by
  obtain ⟨entry, hbegins⟩ := exists_begins_of_define_eq_ok hdefine
  have hle := hd.le_here
  have hlt := hd.here_lt
  have htop := d'.here.toNat_lt
  rw [toNat_firstEntry] at hle
  obtain rfl : entry = d.here := by
    apply UInt16.toNat_inj.1
    rw [hbegins.toNat_entry]
    omega
  have hready := hbegins.ready
  have hext := extends_setReserved hready .compiling 1 (by decide)
  have hholds := hbegins.holds (by omega) (by omega)
  have hcap : 16 ≤ d'.capacity := by
    rw [hbegins.grows.capacity_eq]
    omega
  have hlink := hbegins.linkable hd hlatest
  refine ⟨d'.compiling_setReserved 1 hcap, ?_, hext.ready hready, ?_, ?_, htop, ?_, trivial⟩
  · calc (d'.setReserved .compiling 1).openEntry
        = d'.openEntry := congrArg Int16.toUInt16 (d'.reserved_setReserved_of_ne _ (by decide))
      _ = d.openEntry := hbegins.grows.reservedAddr hd (by decide)
      _ = d.here := hopen
  · exact hholds.of_agreeOn hext.agreeOn hholds.hasHeader.le_entry hholds.body_le_here
      (Nat.le_trans hholds.body_le_here hext.here_le)
  · show (d'.setReserved .compiling 1).Linkable d.here
    unfold Linkable
    rw [hext.latest_eq, hext.readCell_entry hbegins.hasHeader]
    exact hlink
  · exact d'.here_setReserved _ _ (by decide)

/-! ## Finishing -/

/-- To link a definition writes to its header and to the cell of the latest entry only. -/
theorem agreeOn_of_link_eq_ok (hd : d.Ready) (hh : d.HasHeader entry)
    (h : link entry d = .ok () d') : d.AgreeOn d' 0 4 ∧ d.AgreeOn d' 6 entry.toNat := by
  refine ⟨?_, (ends_of_link_eq_ok hd hh h).agreeOn_below⟩
  obtain ⟨rfl, -, -⟩ := of_link_eq_ok h
  have hentry := hh.le_entry
  have hname := hh.name_le
  have htop := (d.entryBody entry).toNat_lt
  have hsize := Header.size_le (d.readCell entry)
  rw [toNat_firstEntry] at hentry
  have hbelow : d.AgreeOn (d.writeDistance entry (entry - d.latest)) 0 4 :=
    d.agreeOn_writeDistance _ (by omega) (Or.inr (by omega))
  exact hbelow.trans (agreeOn_setReserved _ .latest _ (Or.inr (Nat.le_refl _)))

/-- The definition `f` has become the newest one of the chain, with the exit after its code. -/
structure Publishes (d d' : Dictionary) (f : Definition) (code : List Cell) : Prop where
  ready : d'.Ready
  capacity_eq : d'.capacity = d.capacity
  base_eq : d'.base = d.base
  compiling_eq : d'.compiling = false
  latest_eq : d'.latest = f.addr
  fits : f.body.toNat + 2 * code.length + 2 < 65536
  here_eq : d'.here = after f.body (code ++ [Primitive.exit.token.toInt16])
  cellsAt : d'.CellsAt f.body (code ++ [Primitive.exit.token.toInt16])
  agreeOn_below : d.AgreeOn d' 96 f.addr.toNat
  agreeOn_input : d.AgreeOn d' 10 96
  chained {fs : List Definition} (h : d.Chained fs) (hlatest : d.latest = newestAddr fs)
    (habove : ∀ g ∈ fs, g.body.toNat ≤ f.addr.toNat) : d'.Chained (f :: fs)

theorem Publishes.toNat_here (h : d.Publishes d' f code) :
    d'.here.toNat = f.body.toNat + 2 * code.length + 2 := by
  have hfits := h.fits
  rw [h.here_eq, toNat_after (by rw [List.length_append]; exact hfits), List.length_append]
  rfl

/-- With the exit after its code the definition can be linked. -/
theorem InProgress.exists_link_eq_ok (h : d.InProgress f code)
    (hexit : Dictionary.append Primitive.exit.token.toInt16 d = .ok () d') :
    ∃ d'', link f.addr (d'.setReserved .compiling 0) = .ok () d'' ∧ d.Publishes d'' f code := by
  obtain ⟨hgrow, hready, hnum, hread⟩ := of_append_eq_ok hexit
  have hset := drafts_setReserved hready .compiling 0 (by decide)
  have hboth := (drafts_append h.ready hexit).trans hset
  have hheader := hboth.ext.hasHeader h.holds.hasHeader
  have hready2 := hset.ext.ready hready
  have hlinkable : (d'.setReserved .compiling 0).Linkable f.addr := by
    unfold Linkable
    rw [hboth.ext.latest_eq, hboth.ext.readCell_entry h.holds.hasHeader]
    exact h.linkable
  have hlink := link_eq_of_linkable hlinkable
  refine ⟨_, hlink, ?_⟩
  generalize ((d'.setReserved .compiling 0).writeDistance f.addr
    (f.addr - (d'.setReserved .compiling 0).latest)).setReservedAddr .latest f.addr = d2 at hlink ⊢
  have hends := ends_of_link_eq_ok hready2 hheader hlink
  obtain ⟨hlow, hhigh⟩ := agreeOn_of_link_eq_ok hready2 hheader hlink
  -- the header, the name, the code and the exit lie one above the other
  have hle := h.holds.hasHeader.le_entry
  have hlt := h.holds.addr_lt_body
  have hhere := h.toNat_here
  have htop := d'.here.toNat_lt
  have hcap := h.ready.here_lt
  rw [toNat_firstEntry] at hle
  have hholds : (d'.setReserved .compiling 0).Holds f :=
    h.holds.of_agreeOn hboth.ext.agreeOn h.holds.hasHeader.le_entry h.holds.body_le_here
      (Nat.le_trans h.holds.body_le_here hboth.ext.here_le)
  have hcells : (d'.setReserved .compiling 0).CellsAt f.body
      (code ++ [Primitive.exit.token.toInt16]) := by
    refine cellsAt_append.2 ⟨?_, ?_, trivial⟩
    · exact h.cellsAt.of_agreeOn hboth.ext.agreeOn (by omega) (Nat.le_of_eq hhere.symm) h.fits
    · rw [← h.here_eq, hset.ext.agreeOn.readCell (by omega) (by omega) (by omega), hread]
  have hlength : (code ++ [Primitive.exit.token.toInt16]).length = code.length + 1 :=
    List.length_append
  have hfits : f.body.toNat + 2 * (code ++ [Primitive.exit.token.toInt16]).length < 65536 := by
    omega
  exact {
    ready := by
      refine ⟨?_, ?_⟩
      · rw [hends.here_eq]
        exact hready2.le_here
      · rw [hends.here_eq, hends.capacity_eq]
        exact hready2.here_lt
    capacity_eq := hends.capacity_eq.trans hboth.ext.capacity_eq
    base_eq := (hlow.reserved (c := .base) (Nat.le_refl _) (by decide)).trans hboth.base_eq
    compiling_eq := by
      rw [hends.compiling_eq hheader]
      exact d'.compiling_setReserved 0 (by rw [hgrow.capacity_eq]; omega)
    latest_eq := hends.latest_eq
    fits := by omega
    here_eq := by
      apply UInt16.toNat_inj.1
      rw [hends.here_eq, d'.here_setReserved _ _ (by decide), hnum, toNat_after hfits]
      omega
    cellsAt := hcells.of_agreeOn hends.agreeOn_above hholds.size_name_le (by omega) hfits
    agreeOn_below := (hboth.ext.agreeOn.mono (Nat.le_refl _) (by omega)).trans
      (hhigh.mono (by decide) (Nat.le_refl _))
    agreeOn_input := hboth.agreeOn_input.trans (hhigh.mono (by decide) (by omega))
    chained := fun hc hlatest habove => by
      have hc' := hboth.ext.chained hc
      exact hends.chained hholds hc' (hboth.ext.latest_eq.trans hlatest) habove }

end ThreadedForth.Dictionary
