import ThreadedForth.Proofs.Dictionary.Extends

/-!
# Writing at the end

To begin a definition and to add code to it changes the room for definitions from `here` on and the
cells about the definition, and nothing else: `Drafts d d'`. Whether it succeeds depends on `here`,
the latest entry and the capacity alone (`exists_define_eq_ok`, `exists_forM_append_eq_ok`), whatever
else the dictionary holds.
-/

set_option autoImplicit false

namespace ThreadedForth.Dictionary

variable {d d' d'' : Dictionary} {v : Cell} {vs : List Cell} {s : Span}

/-! ## What is not written -/

/-- What lies below `here` stays, and so do the base and the source text. -/
structure Drafts (d d' : Dictionary) : Prop where
  ext : d.Extends d'
  agreeOn_base : d.AgreeOn d' 0 2
  agreeOn_input : d.AgreeOn d' 10 96

namespace Drafts

theorem refl (h : d.Ready) : d.Drafts d := ⟨.refl h, .refl _ _ _, .refl _ _ _⟩

theorem trans (h : d.Drafts d') (h' : d'.Drafts d'') : d.Drafts d'' :=
  ⟨h.ext.trans h'.ext, h.agreeOn_base.trans h'.agreeOn_base,
    h.agreeOn_input.trans h'.agreeOn_input⟩

theorem base_eq (h : d.Drafts d') : d'.base = d.base :=
  h.agreeOn_base.reserved (c := .base) (Nat.le_refl _) (Nat.le_refl _)

end Drafts

theorem Grows.drafts (h : d.Grows d') (hd : d.Ready) (hbase : d.AgreeOn d' 0 2) : d.Drafts d' := by
  have hle := hd.le_here
  rw [toNat_firstEntry] at hle
  exact ⟨h.extends hd, hbase, h.agreeOn.mono (by decide) hle⟩

/-- The cells about a definition are neither the base nor source text. -/
theorem drafts_setReserved (hd : d.Ready) (c : SystemCell) (v : Cell)
    (hc : 6 ≤ c.addr.toNat ∧ c.addr.toNat + 2 ≤ 10) : d.Drafts (d.setReserved c v) :=
  ⟨extends_setReserved hd c v hc.1, d.agreeOn_setReserved c v (Or.inr (by omega)),
    d.agreeOn_setReserved c v (Or.inl hc.2)⟩

theorem agreeOn_base_of_allot {amount : Cell} {a : Addr} (h : allot amount d = .ok a d') :
    d.AgreeOn d' 0 2 := by
  obtain ⟨-, rfl, -⟩ := of_allot_eq_ok h
  exact d.agreeOn_setReserved .here _ (Or.inr (Nat.le_refl _))

theorem drafts_append (hd : d.Ready) (h : append v d = .ok () d') : d.Drafts d' := by
  refine (of_append_eq_ok h).1.drafts hd ?_
  obtain ⟨a, d1, hallot, hwrite⟩ := exists_of_bind_eq_ok h
  cases hwrite
  obtain rfl : a = d.here := (of_allot_eq_ok hallot).1
  have hle := hd.le_here
  have hlt := hd.here_lt
  have hnum := toNat_here_of_allot hallot
  have hroom := hnum.2.here_lt
  have hcap := d1.capacity_le
  have h2 : cellSize.toInt16.toInt = 2 := by decide
  rw [toNat_firstEntry] at hle
  exact (agreeOn_base_of_allot hallot).trans (d1.agreeOn_writeCell v (by omega) (Or.inr (by omega)))

theorem drafts_forM_append (hd : d.Ready) (h : vs.forM append d = .ok () d') : d.Drafts d' := by
  induction vs generalizing d with
  | nil =>
      cases h
      exact .refl hd
  | cons v vs ih =>
      obtain ⟨_, d1, hfirst, hrest⟩ := exists_of_bind_eq_ok h
      have hdrafts := drafts_append hd hfirst
      exact hdrafts.trans (ih (hdrafts.ext.ready hd) hrest)

theorem relates_drafts_allot {amount : Cell} (h0 : 0 ≤ amount.toInt) :
    Relates (fun d d' => d.Ready → d.Drafts d') (allot amount) :=
  .of_ok (fun _ => .refl) eq_of_allot_eq_error fun h hd =>
    (grows_of_allot h h0).drafts hd (agreeOn_base_of_allot h)

theorem relates_drafts_append (v : Cell) :
    Relates (fun d d' => d.Ready → d.Drafts d') (append v) :=
  .of_ok (fun _ => .refl) eq_of_append_eq_error fun h hd => drafts_append hd h

/-- To make `here` even writes to no other cell. -/
theorem drafts_alignHere {a : Addr} (hd : d.Ready) (h : alignHere d = .ok a d') : d.Drafts d' :=
  (relates_alignHere_of relates_drafts_allot).of_eq_ok h hd

theorem Drafts.trans_of_ready (h : d.Ready → d.Drafts d') (h' : d'.Ready → d'.Drafts d'')
    (hd : d.Ready) : d.Drafts d'' :=
  (h hd).trans (h' ((h hd).ext.ready hd))

theorem drafts_appendHeader {info : Cell} (hd : d.Ready) (h : appendHeader info d = .ok () d') :
    d.Drafts d' :=
  (relates_appendHeader_of (fun _ => .refl) .trans_of_ready relates_drafts_append info).of_eq_ok h hd

/-- A name is copied to the room that was taken for it, above the reserved cells. -/
theorem drafts_of_allot_copyBytes {target : Addr} (hlen : s.length.toNat < 32)
    (h : allot s.length.toInt16 d = .ok target d') (hd : d.Ready) :
    d.Drafts (d'.copyBytes s.start target s.length.toNat) := by
  obtain ⟨hgrow, rfl, hhere⟩ := of_allot_copyBytes hlen h
  have hle := hd.le_here
  have hlt := hgrow.here_lt
  have hcap := d'.capacity_le
  rw [toNat_firstEntry] at hle
  rw [capacity_copyBytes] at hlt
  exact hgrow.drafts hd ((agreeOn_base_of_allot h).trans
    (d'.agreeOn_copyBytes _ _ _ (by omega) (Or.inr (by omega))))

theorem drafts_define (hd : d.Ready) (h : define s d = .ok () d') : d.Drafts d' :=
  (relates_define_of (fun _ => .refl) .trans_of_ready relates_drafts_allot relates_drafts_append
    drafts_of_allot_copyBytes s).of_eq_ok h hd

/-! ## Where there is room

To begin a definition at an even address succeeds if its body begins below the capacity, and cells
are added if they end below it. -/

/-- Where the body of a definition with a name of so many bytes begins, if the latest entry is at
`latest`. -/
def bodyAt (entry latest : Addr) (length : Nat) : Nat :=
  let stop := entry.toNat + (if Header.longDistance ≤ entry - latest then 4 else 2) + length
  stop + stop % 2

theorem size_newHeader (d : Dictionary) (entry : Addr) {length : UInt16} (h : length.toNat < 32) :
    Header.size (d.newHeader entry length) =
      if Header.longDistance ≤ entry - d.latest then 4 else 2 := by
  rw [Header.size, d.isLong_newHeader entry h]
  by_cases hlong : Header.longDistance ≤ entry - d.latest
  · rw [decide_eq_true hlong, if_pos rfl, if_pos hlong]
  · rw [decide_eq_false hlong, if_neg hlong]
    rfl

/-- A name ends below the body. -/
theorem HasHeader.toNat_stop {entry : Addr} (h : d.HasHeader entry) :
    (d.entryName entry).stop.toNat = entry.toNat + Header.size (d.readCell entry) +
      (Header.nameLength (d.readCell entry)).toNat := by
  have hname := h.name_le
  have htop := (d.entryBody entry).toNat_lt
  exact d.toNat_stop_entryName entry (by omega)

/-- A body begins at the first even address after the name. -/
theorem HasHeader.toNat_entryBody {entry : Addr} (h : d.HasHeader entry) :
    (d.entryBody entry).toNat = entry.toNat + Header.size (d.readCell entry) +
      (Header.nameLength (d.readCell entry)).toNat +
      (entry.toNat + Header.size (d.readCell entry) +
        (Header.nameLength (d.readCell entry)).toNat) % 2 := by
  have hname := h.name_le
  have htop := (d.entryBody entry).toNat_lt
  -- a body begins at an even address, so not at the last one
  have heven : (d.entryBody entry).toNat % 2 = 0 := by
    unfold entryBody aligned
    rw [UInt16.toNat_mul]
    show _ * 2 % 65536 % 2 = 0
    omega
  exact d.toNat_entryBody entry _ rfl (by omega)

theorem Begins.toNat_here {entry : Addr} (h : d.Begins d' s entry) :
    d'.here.toNat = bodyAt entry d.latest s.length.toNat := by
  have hlen : s.length.toNat < 32 := Nat.lt_succ_of_le h.length_le
  have hlength : Header.nameLength (d'.readCell entry) = s.length := by
    rw [h.readCell_entry, newHeader]
    refine Header.nameLength_make hlen ?_
    split <;> decide
  rw [← h.body_eq, h.hasHeader.toNat_entryBody, hlength, h.readCell_entry,
    d.size_newHeader entry hlen, bodyAt]

theorem exists_append_eq_ok (v : Cell) (hd : d.Ready) (h : d.here.toNat + 2 < d.capacity) :
    ∃ d', append v d = .ok () d' :=
  exists_of_value?_eq_some (value?_append_iff.2 ⟨Nat.le_trans hd.le_here (Nat.le_add_right _ 2), h⟩)

theorem exists_forM_append_eq_ok (vs : List Cell) (hd : d.Ready)
    (h : d.here.toNat + 2 * vs.length < d.capacity) : ∃ d', vs.forM append d = .ok () d' := by
  induction vs generalizing d with
  | nil => exact ⟨d, rfl⟩
  | cons v vs ih =>
      rw [List.length_cons] at h
      obtain ⟨d1, hfirst⟩ := exists_append_eq_ok v hd (by omega)
      obtain ⟨hgrow, hready, hnum, -⟩ := of_append_eq_ok hfirst
      obtain ⟨d', hrest⟩ := ih hready (by rw [hgrow.capacity_eq, hnum]; omega)
      exact ⟨d', (bind_eq_of_ok hfirst _).trans hrest⟩

theorem exists_alignHere_eq_ok (hle : Layout.firstEntry.toNat ≤ d.here.toNat)
    (h : d.here.toNat + d.here.toNat % 2 < d.capacity) : ∃ a d', alignHere d = .ok a d' := by
  have hallot : allot (aligned d.here - d.here).toInt16 d = .ok d.here _ := allot_eq_of_fits (by
    rw [toInt_padding]
    omega)
  rw [alignHere_eq, hallot]
  exact ⟨_, _, rfl⟩

theorem exists_appendHeader_eq_ok {info : Cell} (hd : d.Ready)
    (h : d.here.toNat + Header.size info < d.capacity) : ∃ d', appendHeader info d = .ok () d' := by
  have hsize := Header.size_le info
  obtain ⟨d1, hfirst⟩ := exists_append_eq_ok info hd (by omega)
  obtain ⟨hgrow, hready, hnum, -⟩ := of_append_eq_ok hfirst
  by_cases hlong : Header.isLong info = true
  · have h4 : Header.size info = 4 := if_pos hlong
    obtain ⟨d2, hsecond⟩ := exists_append_eq_ok 0 hready (by rw [hgrow.capacity_eq, hnum]; omega)
    refine ⟨d2, (bind_eq_of_ok hfirst _).trans ?_⟩
    rw [if_pos hlong, hsecond]
  · refine ⟨d1, (bind_eq_of_ok hfirst _).trans ?_⟩
    rw [if_neg hlong]
    rfl

theorem exists_appendName_eq_ok (hlen : s.length.toNat < 32) (hd : d.Ready)
    (h : d.here.toNat + s.length.toNat + (d.here.toNat + s.length.toNat) % 2 < d.capacity) :
    ∃ d', appendName s d = .ok () d' := by
  have hle := hd.le_here
  have hallot : allot s.length.toInt16 d = .ok d.here _ := allot_eq_of_fits (by
    rw [toInt_toInt16 (by omega)]
    omega)
  obtain ⟨hgrow, -, hnum⟩ := of_allot_copyBytes hlen hallot
  obtain ⟨a, d', halign⟩ := exists_alignHere_eq_ok (Nat.le_trans hle hgrow.here_le) (by
    rw [hgrow.capacity_eq, hnum]
    exact h)
  exact ⟨d', (bind_eq_of_ok hallot _).trans (bind_eq_of_ok halign _)⟩

/-- A definition is begun where its body begins below the capacity. -/
theorem exists_define_eq_ok (hd : d.Ready) (heven : d.here.toNat % 2 = 0)
    (hlen : s.length.toNat ≤ Header.maxNameLength)
    (h : bodyAt d.here d.latest s.length.toNat < d.capacity) : ∃ d', define s d = .ok () d' := by
  have hlen' : s.length.toNat < 32 := Nat.lt_succ_of_le hlen
  have hlt := hd.here_lt
  obtain ⟨entry, d1, halign⟩ := exists_alignHere_eq_ok hd.le_here (by omega)
  obtain ⟨rfl, hgrow1, hready1, hnum1, hagree1⟩ := of_alignHere_eq_ok halign
  have hhere : d1.here = d.here := UInt16.toNat_inj.1 (by omega)
  have hlatest : d1.latest = d.latest := hagree1.reservedAddr (c := .latest) (by decide) (by decide)
  have hsize := d1.size_newHeader d1.here hlen'
  rw [hlatest, hhere] at hsize
  simp only [bodyAt, ← hsize] at h
  have hroom : ∃ d2, appendHeader (d1.newHeader d.here s.length) d1 = .ok () d2 :=
    exists_appendHeader_eq_ok hready1 (by rw [hgrow1.capacity_eq, hhere]; omega)
  obtain ⟨d2, hheader⟩ := hroom
  obtain ⟨hgrow2, hready2, hnum2, -⟩ := of_appendHeader_eq_ok hheader
  obtain ⟨d3, hname⟩ := exists_appendName_eq_ok hlen' hready2 (by
    rw [hgrow2.capacity_eq, hgrow1.capacity_eq, hnum2, hhere]
    exact h)
  refine ⟨d3, ?_⟩
  rw [define_eq, if_neg (Nat.not_lt.2 hlen), bind_eq_of_ok halign, hhere]
  show (do appendHeader (d1.newHeader d.here s.length); appendName s) d1 = _
  rw [bind_eq_of_ok hheader, hname]

/-! ## What is reported -/

/-- The only error is that there is no room. -/
def FailsFull {α : Type} (x : DictionaryM α) : Prop :=
  ∀ d e d', x d = .error e d' → ∃ a amount, e = .dictionaryFull a amount

namespace FailsFull

variable {α β : Type}

theorem bind {x : DictionaryM α} {f : α → DictionaryM β} (hx : FailsFull x)
    (hf : ∀ a, FailsFull (f a)) : FailsFull (x >>= f) := by
  intro d e d' h
  rcases of_bind_eq_error h with h | ⟨a, d1, -, h⟩
  · exact hx d e d' h
  · exact hf a d1 e d' h

theorem allot (amount : Cell) : FailsFull (allot amount) := by
  intro d e d' h
  simp only [Dictionary.allot] at h
  split at h
  · cases h
  · cases h
    exact ⟨_, _, rfl⟩

theorem append (v : Cell) : FailsFull (append v) :=
  (allot _).bind fun _ _ _ _ h => by cases h

theorem forM_append (vs : List Cell) : FailsFull (vs.forM Dictionary.append) := by
  induction vs with
  | nil =>
      intro d e d' h
      cases h
  | cons v vs ih => exact (append v).bind fun _ => ih

theorem alignHere : FailsFull alignHere := by
  intro d e d' h
  rw [alignHere_eq] at h
  split at h
  · cases h
  · rename_i hallot
    cases h
    exact allot _ _ _ _ hallot

theorem appendHeader (info : Cell) : FailsFull (appendHeader info) := by
  refine (append info).bind fun _ => ?_
  split
  · exact append 0
  · intro d e d' h
    cases h

theorem appendName (s : Span) : FailsFull (appendName s) := by
  refine (allot _).bind fun target => .bind (fun d e d' h => by cases h) fun _ => ?_
  exact alignHere.bind fun _ d e d' h => by cases h

end FailsFull

theorem define_eq_of_long (h : Header.maxNameLength < s.length.toNat) :
    define s d = .error (.nameTooLong s.length.toNat) d := by
  rw [define_eq, if_pos h]
  rfl

/-- If the name is not too long, a definition is not begun only for lack of room. -/
theorem exists_of_define_eq_error {e : Error} (hlen : s.length.toNat ≤ Header.maxNameLength)
    (h : define s d = .error e d') : ∃ a amount, e = .dictionaryFull a amount := by
  rw [define_eq, if_neg (Nat.not_lt.2 hlen)] at h
  refine FailsFull.bind .alignHere (fun entry => ?_) d e d' h
  refine FailsFull.bind (fun d e d' h => by cases h) fun d => ?_
  exact (FailsFull.appendHeader _).bind fun _ => .appendName s

/-! ## What lies below a limit -/

/-- What lies below `limit` stays, and so do the latest entry and the base. -/
structure LeavesBelow (d d' : Dictionary) (limit : Nat) : Prop where
  capacity_eq : d'.capacity = d.capacity
  latest_eq : d'.latest = d.latest
  base_eq : d'.base = d.base
  agreeOn : d.AgreeOn d' 96 limit
  le_here : limit ≤ d'.here.toNat

theorem Drafts.leavesBelow {limit : Nat} (h : d.Drafts d') (hlimit : limit ≤ d.here.toNat) :
    d.LeavesBelow d' limit :=
  ⟨h.ext.capacity_eq, h.ext.latest_eq, h.base_eq, h.ext.agreeOn.mono (Nat.le_refl _) hlimit,
    Nat.le_trans hlimit h.ext.here_le⟩

theorem InputOnly.leavesBelow {limit : Nat} (h : d.InputOnly d') (hlimit : limit ≤ d.here.toNat) :
    d.LeavesBelow d' limit :=
  ⟨h.capacity_eq, h.latest_eq, h.reserved (by decide),
    h.agreeOn_above.mono (Nat.le_refl _) (Nat.le_trans hlimit (Nat.le_of_lt d.here.toNat_lt)),
    Nat.le_trans hlimit (Nat.le_of_eq (congrArg UInt16.toNat h.here_eq.symm))⟩

/-- The cells about the compilation and the source are not looked at. -/
theorem leavesBelow_setReserved {limit : Nat} (c : SystemCell) (v : Cell) (hc : 6 ≤ c.addr.toNat)
    (hlimit : limit ≤ d.here.toNat) : d.LeavesBelow (d.setReserved c v) limit := by
  have htop := c.toNat_addr_add_two_le
  have hbelow : d.AgreeOn (d.setReserved c v) 0 6 := d.agreeOn_setReserved c v (Or.inr hc)
  have hhere : (d.setReserved c v).here = d.here := hbelow.reservedAddr (Nat.zero_le _) (by decide)
  refine ⟨capacity_setReserved .., hbelow.reservedAddr (Nat.zero_le _) (by decide),
    hbelow.reserved (Nat.zero_le _) (by decide), d.agreeOn_setReserved c v (Or.inl (by omega)), ?_⟩
  rw [hhere]
  exact hlimit

theorem LeavesBelow.trans {limit : Nat} (h : d.LeavesBelow d' limit)
    (h' : d'.LeavesBelow d'' limit) : d.LeavesBelow d'' limit :=
  ⟨h'.capacity_eq.trans h.capacity_eq, h'.latest_eq.trans h.latest_eq, h'.base_eq.trans h.base_eq,
    h.agreeOn.trans h'.agreeOn, h'.le_here⟩

end ThreadedForth.Dictionary
