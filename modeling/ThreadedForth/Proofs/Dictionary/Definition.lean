import ThreadedForth.Proofs.Dictionary.Header

/-!
# Beginning and ending a definition

`define` writes a header at the end of the dictionary and `link` puts it into the chain. What lies
between the two, the body, is only appended to. `HasHeader d entry` says that a header and its
name lie below `here`; that is what `define` establishes (`exists_begins_of_define_eq_ok`), what growing
keeps (`HasHeader.of_agreeOn`) and what `link` asks for (`ends_of_link_eq_ok`).
-/

set_option autoImplicit false

namespace ThreadedForth.Dictionary

variable {d d' : Dictionary} {entry : Addr} {name : Span}

/-- The header at an address and the name in it lie below `here`. -/
structure HasHeader (d : Dictionary) (entry : Addr) : Prop where
  le_entry : Layout.firstEntry.toNat ≤ entry.toNat
  name_le : entry.toNat + Header.size (d.readCell entry) +
    (Header.nameLength (d.readCell entry)).toNat ≤ (d.entryBody entry).toNat
  body_le : (d.entryBody entry).toNat ≤ d.here.toNat

instance (d : Dictionary) (entry : Addr) : Decidable (d.HasHeader entry) :=
  decidable_of_iff (_ ∧ _ ∧ _) ⟨fun ⟨h, h', h''⟩ => ⟨h, h', h''⟩, fun ⟨h, h', h''⟩ => ⟨h, h', h''⟩⟩

/-- A header is kept with its bytes, as long as `here` does not go back. -/
theorem HasHeader.of_agreeOn (h : d.HasHeader entry) {lo hi : Nat} (hd : d.AgreeOn d' lo hi)
    (hlo : lo ≤ entry.toNat) (hhi : (d.entryBody entry).toNat ≤ hi)
    (hhere : (d.entryBody entry).toNat ≤ d'.here.toNat) : d'.HasHeader entry := by
  have hsize := Header.size_le (d.readCell entry)
  have hname := h.name_le
  have htop := (d.entryBody entry).toNat_lt
  have hinfo : d'.readCell entry = d.readCell entry := hd.readCell hlo (by omega) (by omega)
  have hbody : d'.entryBody entry = d.entryBody entry := entryBody_eq (entryName_eq hinfo)
  exact ⟨h.le_entry, by rw [hinfo, hbody]; exact hname, by rw [hbody]; exact hhere⟩

theorem HasHeader.lt_body (h : d.HasHeader entry) :
    entry.toNat + 2 ≤ (d.entryBody entry).toNat := by
  have hname := h.name_le
  have hsize := Header.size_le (d.readCell entry)
  omega

/-! ## Writing a header -/

/-- The cells of a header. -/
def appendHeader (info : Cell) : DictionaryM Unit := do
  append info
  if Header.isLong info then append 0

/-- The name of an entry, and what makes `here` even after it. -/
def appendName (name : Span) : DictionaryM Unit := do
  let target ← allot name.length.toInt16
  modify fun d => d.copyBytes name.start target name.length.toNat
  discard alignHere

/-- The first cell of a new header. Its distance is written later, but whether it will be a long
one is settled now. -/
def newHeader (d : Dictionary) (entry : Addr) (length : UInt16) : Cell :=
  Header.make length (if Header.longDistance ≤ entry - d.latest then Header.longDistance else 0)

theorem isLong_newHeader (d : Dictionary) (entry : Addr) {length : UInt16}
    (h : length.toNat < 32) :
    Header.isLong (d.newHeader entry length) = decide (Header.longDistance ≤ entry - d.latest) := by
  by_cases hlong : Header.longDistance ≤ entry - d.latest
  · unfold newHeader
    rw [if_pos hlong, Header.isLong, Header.distance_make h (by decide)]
    simp [hlong]
  · unfold newHeader
    rw [if_neg hlong, Header.isLong, Header.distance_make h (by decide)]
    rw [decide_eq_false hlong]
    rfl

theorem define_eq (name : Span) : define name =
    if Header.maxNameLength < name.length.toNat then throw (.nameTooLong name.length.toNat)
    else (do
      let entry ← alignHere
      let d ← get
      appendHeader (d.newHeader entry name.length)
      appendName name) := by
  unfold define
  by_cases hlen : Header.maxNameLength < name.length.toNat
  · rw [if_pos hlen, if_pos hlen]
    rfl
  · rw [if_neg hlen, if_neg hlen]
    refine congrArg _ (funext fun entry => congrArg _ (funext fun d => ?_))
    have hlong := d.isLong_newHeader entry (Nat.lt_succ_of_le (Nat.not_lt.1 hlen))
    unfold appendHeader
    rw [hlong]
    by_cases h : Header.longDistance ≤ entry - d.latest
    · simp only [h, newHeader, if_true, decide_true, bind_assoc]
      rfl
    · simp only [h, newHeader, if_false, decide_false, bind_assoc]
      rfl

theorem of_appendHeader_eq_ok {info : Cell} (h : appendHeader info d = .ok () d') :
    d.Grows d' ∧ d'.Ready ∧ d'.here.toNat = d.here.toNat + Header.size info ∧
      d'.readCell d.here = info := by
  obtain ⟨_, d1, hfirst, h⟩ := exists_of_bind_eq_ok h
  obtain ⟨hgrow, hready, hnum, hread⟩ := of_append_eq_ok hfirst
  by_cases hlong : Header.isLong info = true
  · rw [if_pos hlong] at h
    obtain ⟨hgrow', hready', hnum', -⟩ := of_append_eq_ok h
    have hle := hready.le_here
    have htop := d1.here.toNat_lt
    rw [toNat_firstEntry] at hle
    refine ⟨hgrow.trans hgrow', hready', by rw [Header.size, if_pos hlong]; omega, ?_⟩
    rw [hgrow'.agreeOn.readCell (by omega) (by omega) (by omega), hread]
  · rw [if_neg hlong] at h
    cases h
    exact ⟨hgrow, hready, by rw [Header.size, if_neg hlong]; omega, hread⟩

/-- A name is copied to the room that was taken for it. -/
theorem of_allot_copyBytes {target : Addr} (hlen : name.length.toNat < 32)
    (h : allot name.length.toInt16 d = .ok target d') :
    d.Grows (d'.copyBytes name.start target name.length.toNat) ∧ target = d.here ∧
      (d'.copyBytes name.start target name.length.toNat).here.toNat =
        d.here.toNat + name.length.toNat := by
  have hnum := toNat_here_of_allot h
  have hgrow := grows_of_allot h (by rw [toInt_toInt16 (by omega)]; omega)
  rw [toInt_toInt16 (by omega)] at hnum
  obtain ⟨rfl, -, -, -⟩ := of_allot_eq_ok h
  have hle := hnum.2.le_here
  have hlt := hnum.2.here_lt
  have hcap := d'.capacity_le
  rw [toNat_firstEntry] at hle
  -- the copied bytes lie between the old `here` and the new one
  have hkeep : d'.AgreeOn (d'.copyBytes name.start d.here name.length.toNat) 0 d.here.toNat :=
    d'.agreeOn_copyBytes _ _ _ (by omega) (Or.inr (Nat.le_refl _))
  have hhere : (d'.copyBytes name.start d.here name.length.toNat).here = d'.here :=
    hkeep.reservedAddr (c := .here) (Nat.zero_le _) (by show 4 ≤ _; omega)
  refine ⟨⟨?_, ?_, ?_, ?_⟩, rfl, ?_⟩
  · rw [capacity_copyBytes, hgrow.capacity_eq]
  · rw [hhere]
    exact hgrow.here_le
  · rw [hhere, capacity_copyBytes]
    exact hlt
  · exact hgrow.agreeOn.trans (hkeep.mono (Nat.zero_le _) (Nat.le_refl _))
  · rw [hhere]
    omega

theorem of_appendName_eq_ok (hlen : name.length.toNat < 32)
    (h : appendName name d = .ok () d') :
    d.Grows d' ∧ d'.Ready ∧
      d'.here.toNat = d.here.toNat + name.length.toNat +
        (d.here.toNat + name.length.toNat) % 2 ∧
      (4 ≤ name.start.toNat → name.start.toNat + name.length.toNat ≤ d.here.toNat →
        d'.memory.bytesFrom d.here name.length.toNat = d.text name) := by
  obtain ⟨target, d1, hallot, h⟩ := exists_of_bind_eq_ok h
  obtain ⟨_, d2, hcopy, h⟩ := exists_of_bind_eq_ok h
  obtain ⟨b, halign⟩ := exists_of_discard_eq_ok h
  cases hcopy
  obtain ⟨hgrow, rfl, hhere⟩ := of_allot_copyBytes hlen hallot
  obtain ⟨-, hgrow', hready, hnum, hagree⟩ := of_alignHere_eq_ok halign
  refine ⟨hgrow.trans hgrow', hready, ?_, fun hlo hhi => ?_⟩
  · rw [← hhere]
    exact hnum
  have hlt := hgrow.here_lt
  have hcap := d1.capacity_le
  rw [capacity_copyBytes] at hlt
  have hd1 := (of_allot_eq_ok hallot).2.1
  rw [hagree.bytesFrom (by omega) (by omega) (by omega),
    d1.bytesFrom_copyBytes _ _ _ hhi (by omega), hd1]
  exact (d.agreeOn_setHere _).bytesFrom hlo (by omega) (by omega)

/-! ## Beginning a definition -/

/-- What `define` leaves behind. -/
structure Begins (d d' : Dictionary) (name : Span) (entry : Addr) : Prop where
  toNat_entry : entry.toNat = d.here.toNat + d.here.toNat % 2
  length_le : name.length.toNat ≤ Header.maxNameLength
  grows : d.Grows d'
  ready : d'.Ready
  readCell_entry : d'.readCell entry = d.newHeader entry name.length
  body_eq : d'.entryBody entry = d'.here
  hasHeader : d'.HasHeader entry
  /-- The name is copied as it was if it lay below the new entry and not in the cell `here`. -/
  text_eq : 4 ≤ name.start.toNat → name.start.toNat + name.length.toNat ≤ d.here.toNat →
    d'.text (d'.entryName entry) = d.text name

theorem exists_begins_of_define_eq_ok (h : define name d = .ok () d') :
    ∃ entry, d.Begins d' name entry := by
  rw [define_eq] at h
  by_cases hlen : Header.maxNameLength < name.length.toNat
  · rw [if_pos hlen] at h
    cases h
  rw [if_neg hlen] at h
  have hlen' : name.length.toNat < 32 := Nat.lt_succ_of_le (Nat.not_lt.1 hlen)
  obtain ⟨entry, d1, halign, h⟩ := exists_of_bind_eq_ok h
  obtain ⟨_, _, hget, h⟩ := exists_of_bind_eq_ok h
  cases hget
  obtain ⟨_, d2, hheader, hname⟩ := exists_of_bind_eq_ok h
  obtain ⟨rfl, hgrow1, hready1, hnum1, hagree1⟩ := of_alignHere_eq_ok halign
  obtain ⟨hgrow2, hready2, hnum2, hread2⟩ := of_appendHeader_eq_ok hheader
  obtain ⟨hgrow3, hready3, hnum3, htext3⟩ := of_appendName_eq_ok hlen' hname
  have hlatest : d1.latest = d.latest := hagree1.reservedAddr (c := .latest) (by decide) (by decide)
  have hinfo : d1.newHeader d1.here name.length = d.newHeader d1.here name.length := by
    unfold newHeader
    rw [hlatest]
  have hlt3 := hready3.here_lt
  have hcap := d'.capacity_le
  have hle1 := hready1.le_here
  have hsize := Header.size_le (d1.newHeader d1.here name.length)
  rw [toNat_firstEntry] at hle1
  have hread3 : d'.readCell d1.here = d1.newHeader d1.here name.length := by
    rw [hgrow3.agreeOn.readCell (by omega) (by omega) (by omega), hread2]
  have hlength : Header.nameLength (d'.readCell d1.here) = name.length := by
    rw [hread3, newHeader]
    refine Header.nameLength_make hlen' ?_
    split <;> decide
  have hbody : d'.entryBody d1.here = d'.here := by
    apply UInt16.toNat_inj.1
    rw [d'.toNat_entryBody d1.here (d2.here.toNat + name.length.toNat)
      (by rw [hlength, hread3]; omega) (by omega)]
    omega
  refine ⟨d1.here, hnum1, by simpa using hlen, hgrow1.trans (hgrow2.trans hgrow3), hready3,
    hread3.trans hinfo, hbody, ⟨hready1.le_here, ?_, ?_⟩, fun hlo hhi => ?_⟩
  · rw [hlength, hread3, hbody]
    omega
  · exact Nat.le_of_eq (congrArg UInt16.toNat hbody)
  · have hstart : (d'.entryName d1.here).start = d2.here := by
      apply UInt16.toNat_inj.1
      rw [d'.toNat_start_entryName _ (by rw [hread3]; omega), hread3]
      omega
    have hkeep : d.AgreeOn d2 4 d.here.toNat :=
      (hagree1.mono (Nat.le_refl _) (by omega)).trans
        (hgrow2.agreeOn.mono (Nat.le_refl _) (by omega))
    unfold text
    rw [length_entryName, hlength, hstart, htext3 hlo (by omega)]
    exact hkeep.bytesFrom hlo hhi (by omega)

/-! ## Linking an address -/

/-- What is asked of an address when it is linked: it lies after the latest entry, and its header
can tell how far. -/
def Linkable (d : Dictionary) (entry : Addr) : Prop :=
  d.latest ≤ entry ∧
    (Header.isLong (d.readCell entry) = true ∨ entry - d.latest < Header.longDistance)

instance (d : Dictionary) (entry : Addr) : Decidable (d.Linkable entry) :=
  inferInstanceAs (Decidable (_ ∧ _))

theorem link_eq_of_linkable (h : d.Linkable entry) : link entry d =
    .ok () ((d.writeDistance entry (entry - d.latest)).setReservedAddr .latest entry) := by
  simp only [link]
  exact if_pos h

theorem link_eq_of_not_linkable (h : ¬ d.Linkable entry) :
    link entry d = .error (.badLink entry d.latest) d := by
  simp only [link]
  exact if_neg h

/-! ## Ending a definition -/

/-- What `link` leaves behind: the entry is the latest one and knows how far back the one before
it lies. All else of the header, and all but the header, is as it was. -/
structure Ends (d d' : Dictionary) (entry : Addr) : Prop where
  latest_le : d.latest.toNat ≤ entry.toNat
  latest_eq : d'.latest = entry
  here_eq : d'.here = d.here
  capacity_eq : d'.capacity = d.capacity
  toNat_linkDistance : (d'.linkDistance entry).toNat = entry.toNat - d.latest.toNat
  nameLength_eq : Header.nameLength (d'.readCell entry) = Header.nameLength (d.readCell entry)
  isLong_eq : Header.isLong (d'.readCell entry) = Header.isLong (d.readCell entry)
  isImmediate_eq : d'.isImmediate entry = d.isImmediate entry
  agreeOn_below : d.AgreeOn d' 6 entry.toNat
  agreeOn_above : d.AgreeOn d' (entry.toNat + Header.size (d.readCell entry)) 65536

theorem Ends.compiling_eq (h : d.Ends d' entry) (hh : d.HasHeader entry) :
    d'.compiling = d.compiling := by
  have hle := hh.le_entry
  rw [toNat_firstEntry] at hle
  unfold compiling
  rw [h.agreeOn_below.reserved (by decide) (by show 8 ≤ entry.toNat; omega)]

theorem Ends.entryBody_eq (h : d.Ends d' entry) : d'.entryBody entry = d.entryBody entry :=
  Dictionary.entryBody_eq (by rw [entryName, entryName, h.isLong_eq, h.nameLength_eq])

theorem of_link_eq_ok (h : link entry d = .ok () d') :
    d' = (d.writeDistance entry (entry - d.latest)).setReservedAddr .latest entry ∧
      d.latest.toNat ≤ entry.toNat ∧
      (Header.isLong (d.readCell entry) = true ∨ entry - d.latest < Header.longDistance) := by
  simp only [link] at h
  split at h
  · rename_i hlink
    cases h
    exact ⟨rfl, hlink.1, hlink.2⟩
  · cases h

/-- The entry that was linked is the latest one, if there is memory to say so. -/
theorem latest_of_link_eq_ok (hcap : 6 ≤ d.capacity) (h : link entry d = .ok () d') :
    d'.latest = entry := by
  obtain ⟨rfl, -, -⟩ := of_link_eq_ok h
  have hread := (d.writeDistance entry (entry - d.latest)).readCell_writeCell
    (a := SystemCell.latest.addr) entry.toInt16 (by rw [capacity_writeDistance]; exact hcap)
  exact (congrArg Int16.toUInt16 hread).trans (UInt16.toUInt16_toInt16 entry)

theorem ends_of_link_eq_ok (hd : d.Ready) (hh : d.HasHeader entry)
    (h : link entry d = .ok () d') : d.Ends d' entry := by
  obtain ⟨hd', hle, hlong⟩ := of_link_eq_ok h
  have hentry := hh.le_entry
  have hname := hh.name_le
  have hbody := hh.body_le
  have hlt := hd.here_lt
  have hcap := d.capacity_le
  have hsize := Header.size_le (d.readCell entry)
  rw [toNat_firstEntry] at hentry
  have hlatest := latest_of_link_eq_ok (by omega) h
  generalize hd1 : d.writeDistance entry (entry - d.latest) = d1 at hd'
  have hbelow1 : d.AgreeOn d1 0 entry.toNat := by
    rw [← hd1]
    exact d.agreeOn_writeDistance _ (by omega) (Or.inr (Nat.le_refl _))
  have habove1 : d.AgreeOn d1 (entry.toNat + Header.size (d.readCell entry)) 65536 := by
    rw [← hd1]
    exact d.agreeOn_writeDistance _ (by omega) (Or.inl (Nat.le_refl _))
  have hcap1 : d1.capacity = d.capacity := by rw [← hd1, capacity_writeDistance]
  have hbelow2 : d1.AgreeOn d' 0 4 := by
    rw [hd']
    exact d1.agreeOn_setReserved .latest _ (Or.inr (Nat.le_refl _))
  have habove2 : d1.AgreeOn d' 6 65536 := by
    rw [hd']
    exact d1.agreeOn_setReserved .latest _ (Or.inl (Nat.le_refl _))
  have hinfo : d'.readCell entry = Header.withDistance (d.readCell entry)
      (Header.field (d.readCell entry) (entry - d.latest)) := by
    rw [habove2.readCell (by omega) (by omega) (by omega), ← hd1]
    exact d.readCell_writeDistance _ (by omega)
  have hisLong : Header.isLong (d'.readCell entry) = Header.isLong (d.readCell entry) := by
    rw [hinfo, Header.isLong_withDistance_field hlong]
  have hsize' := Header.size_eq_of_isLong hisLong
  have hnameLength : Header.nameLength (d'.readCell entry) =
      Header.nameLength (d.readCell entry) := by
    rw [hinfo, Header.nameLength_withDistance _ (Header.toNat_field_lt hlong)]
  have hsize1 : Header.size (d1.readCell entry) = Header.size (d.readCell entry) := by
    rw [← hsize', habove2.readCell (by omega) (by omega) (by omega)]
  refine ⟨hle, hlatest, ?_, ?_, ?_, hnameLength, hisLong, ?_, ?_, ?_⟩
  · exact ((hbelow1.mono (Nat.le_refl _) (by omega)).trans hbelow2).reservedAddr (c := .here)
      (Nat.zero_le _) (Nat.le_refl _)
  · rw [hd', capacity_setReservedAddr, hcap1]
  · calc (d'.linkDistance entry).toNat
        = (d1.linkDistance entry).toNat :=
          congrArg UInt16.toNat (habove2.linkDistance (by omega) (by omega) (by omega))
      _ = (entry - d.latest).toNat := by
          rw [← hd1, linkDistance_writeDistance d (by omega) hlong]
      _ = entry.toNat - d.latest.toNat := UInt16.toNat_sub_of_le entry d.latest hle
  · unfold isImmediate
    rw [hinfo,
      Header.isImmediate_withDistance _ (Header.toNat_field_lt hlong)]
  · exact (hbelow1.mono (Nat.zero_le _) (Nat.le_refl _)).trans
      (habove2.mono (Nat.le_refl _) (by omega))
  · exact habove1.trans (habove2.mono (by omega) (Nat.le_refl _))

end ThreadedForth.Dictionary
