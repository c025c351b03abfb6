import Mathlib.Data.List.Find
import ThreadedForth.Dictionary.Image
import ThreadedForth.Proofs.Dictionary.Chained
import ThreadedForth.Proofs.Dictionary.Input

/-!
# Images restored

An image of one dictionary is restored into another one. Byte for byte
(`readByte_restore_image`) the outcome holds the image, except for the cells and the buffer of the
line that is interpreted and for what lies after the image, which are those of the dictionary
that takes it in.

All that is read from a dictionary whose chain lies below `here` (`Intact`) is then read from the
outcome as well: the chain (`chain?_restore_image`), what is listed (`entries?_restore_image`) and
what each name stands for (`find_restore_image`).
-/

set_option autoImplicit false

namespace ThreadedForth.Dictionary

variable {s t d d' : Dictionary} {addrs : List Addr}

/-! ## Bytes -/

/-- A stretch of one dictionary written into another one is seen where there is memory, unless the
byte is kept. -/
theorem readByte_restoreFrom (s t : Dictionary) (a b : Addr) (n : Nat)
    (htop : a.toNat + n ≤ 65536) :
    (t.restoreFrom a (s.memory.bytesFrom a n)).readByte b =
      if keptByImage b = false ∧ a.toNat ≤ b.toNat ∧ b.toNat < a.toNat + n ∧
          b.toNat < t.capacity then
        s.readByte b
      else t.readByte b := by
  induction n generalizing t a with
  | zero =>
    rw [if_neg (by omega)]
    rfl
  | succ n ih =>
    have hfirst : ∀ c : Addr, (if keptByImage a then t else t.writeByte a (s.readByte a)).readByte c =
        if c = a ∧ keptByImage a = false ∧ a.toNat < t.capacity then s.readByte a
        else t.readByte c := by
      intro c
      by_cases hkept : keptByImage a
      · simp [hkept]
      · simp only [hkept, if_false, Bool.false_eq_true, true_and]
        exact Memory.readByte_writeByte t.memory a c _
    have hcap : (if keptByImage a then t else t.writeByte a (s.readByte a)).capacity =
        t.capacity := by split <;> simp
    rw [Memory.bytesFrom_succ, restoreFrom]
    change (Dictionary.restoreFrom (if keptByImage a then t else t.writeByte a (s.readByte a))
      (a + 1) _).readByte b = _
    by_cases hn : n = 0
    · -- the address after the last one is not met
      subst hn
      rw [Memory.bytesFrom_zero, restoreFrom, hfirst]
      by_cases hb : b = a
      · subst hb
        simp
      · have : b.toNat ≠ a.toNat := fun h => hb (UInt16.toNat_inj.1 h)
        simp only [hb, false_and, if_false]
        rw [if_neg (by omega)]
    · have hnext : (a + 1).toNat = a.toNat + 1 := toNat_add_one (by omega)
      rw [ih _ _ (by omega), hcap, hfirst, hnext]
      by_cases hb : b = a
      · subst hb
        rw [if_neg (by omega)]
        simp
      · have : b.toNat ≠ a.toNat := fun h => hb (UInt16.toNat_inj.1 h)
        simp only [hb, false_and, if_false]
        have hiff : (a.toNat + 1 ≤ b.toNat ∧ b.toNat < a.toNat + 1 + n ∧ b.toNat < t.capacity) ↔
            a.toNat ≤ b.toNat ∧ b.toNat < a.toNat + (n + 1) ∧ b.toNat < t.capacity := by omega
        simp only [hiff]

theorem keptByImage_eq_true_iff (b : Addr) :
    keptByImage b = true ↔ 6 ≤ b.toNat ∧ b.toNat < 96 := by
  rw [keptByImage, Bool.and_eq_true, decide_eq_true_iff, decide_eq_true_iff, UInt16.le_iff_toNat_le,
    UInt16.lt_iff_toNat_lt]
  exact Iff.rfl

theorem keptByImage_eq_false_iff (b : Addr) :
    keptByImage b = false ↔ b.toNat < 6 ∨ 96 ≤ b.toNat := by
  rw [← Bool.not_eq_true, keptByImage_eq_true_iff]
  omega

/-- A restored image is seen below its end, where there is memory and the byte is not kept. -/
theorem readByte_restore_image (s t : Dictionary) (b : Addr) :
    (t.restore s.image).readByte b =
      if (b.toNat < 6 ∨ 96 ≤ b.toNat) ∧ b.toNat < s.here.toNat ∧ b.toNat < t.capacity then
        s.readByte b
      else t.readByte b := by
  have hlt : s.here.toNat < 65536 := s.here.toNat_lt
  have hall : s.image.take 65536 = s.memory.bytesFrom 0 s.here.toNat :=
    List.take_of_length_le (by simpa [image] using Nat.le_of_lt hlt)
  rw [restore, hall, readByte_restoreFrom _ _ _ _ _ (by simpa using Nat.le_of_lt hlt)]
  simp [keptByImage_eq_false_iff]

/-- The line that is interpreted is not touched. -/
theorem agreeOn_restore_kept (s t : Dictionary) : t.AgreeOn (t.restore s.image) 6 96 := by
  intro b hlo hhi
  rw [readByte_restore_image, if_neg (by omega)]

/-- What lies after the image is not touched. -/
theorem agreeOn_restore_rest (s t : Dictionary) :
    t.AgreeOn (t.restore s.image) s.here.toNat 65536 := by
  intro b hlo _
  rw [readByte_restore_image, if_neg (by omega)]

/-- The first three cells are those of the image. -/
theorem agreeOn_restore_cells (h : 6 ≤ s.here.toNat) (hcap : s.here.toNat ≤ t.capacity) :
    s.AgreeOn (t.restore s.image) 0 6 := by
  intro b _ hhi
  rw [readByte_restore_image, if_pos (by omega)]

/-- The definitions are those of the image. -/
theorem agreeOn_restore_entries (hcap : s.here.toNat ≤ t.capacity) :
    s.AgreeOn (t.restore s.image) 96 s.here.toNat := by
  intro b hlo hhi
  rw [readByte_restore_image, if_pos (by omega)]

/-! ## The chain below `here` -/

/-- The first three cells are in use, the chain comes to an end, and each entry on it ends below
`here`. Before anything was defined the chain leads to the first address alone. -/
structure Intact (d : Dictionary) : Prop where
  le_here : 6 ≤ d.here.toNat
  chain : ∃ addrs, d.chain? = some addrs ∧
    ∀ a ∈ addrs, d.HasHeader a ∨ a = Layout.firstEntry ∧ d.here = Layout.firstEntry

/-- A chain of finished definitions is intact. -/
theorem intact_of_chained {fs : List Definition} (h : d.Chained fs)
    (hlatest : d.latest = newestAddr fs) (hroot : Rooted fs) : d.Intact where
  le_here := by
    obtain ⟨f, hf, -⟩ := hroot
    have hmem : f ∈ fs := List.mem_of_getLast? hf
    have hheader := (h.holds_of_mem hmem).hasHeader
    have hle := hheader.le_entry
    have hbody := hheader.body_le
    have hlt := hheader.lt_body
    change 96 ≤ _ at hle
    omega
  chain := by
    refine ⟨trail fs, chain?_of_chained h hlatest, ?_⟩
    intro a ha
    rw [trail_of_rooted h hroot] at ha
    obtain ⟨f, hf, rfl⟩ := List.mem_map.1 ha
    exact .inl (h.holds_of_mem hf).hasHeader

/-- The header of an entry lies below `here`. -/
theorem HasHeader.readCell_eq {a : Addr} (h : d.HasHeader a)
    (hd : d.AgreeOn d' 96 d.here.toNat) : d'.readCell a = d.readCell a := by
  have hlo := h.le_entry
  have hbody := h.body_le
  have hlt := h.lt_body
  have htop := d.here.toNat_lt
  exact hd.readCell hlo (by omega) (by change _ < 65536 at htop; omega)

/-- The name of an entry lies below `here`. -/
theorem HasHeader.text_entryName_eq {a : Addr} (h : d.HasHeader a)
    (hd : d.AgreeOn d' 96 d.here.toNat) :
    d'.text (d'.entryName a) = d.text (d.entryName a) := by
  have hlo : 96 ≤ a.toNat := h.le_entry
  have hbody := h.body_le
  have hname := h.name_le
  have htop : d.here.toNat < 65536 := d.here.toNat_lt
  have hsize := Header.size_le (d.readCell a)
  have hstart := toNat_start_entryName d a (by omega)
  rw [entryName_eq (h.readCell_eq hd)]
  have hlength := length_entryName d a
  exact hd.bytesFrom (by omega) (by rw [hlength]; omega) (by rw [hlength]; omega)

theorem HasHeader.entryAt_eq {a : Addr} (h : d.HasHeader a)
    (hd : d.AgreeOn d' 96 d.here.toNat) : d'.entryAt a = d.entryAt a := by
  have hcell := h.readCell_eq hd
  rw [entryAt, entryAt, entryName_eq hcell, isImmediate_eq hcell, entryBody_eq (entryName_eq hcell)]

/-- From an entry the way leads on as before. -/
theorem older?_eq_of_agreeOn {a : Addr} (h : d.HasHeader a ∨ a = Layout.firstEntry)
    (hd : d.AgreeOn d' 96 d.here.toNat) : d'.older? a = d.older? a := by
  rcases h with h | rfl
  · have hlo : 96 ≤ a.toNat := h.le_entry
    have hbody := h.body_le
    have hname := h.name_le
    have htop : d.here.toNat < 65536 := d.here.toNat_lt
    rw [older?, older?, hd.linkDistance hlo (by omega) (by omega)]
  · rw [older?_firstEntry, older?_firstEntry]

theorem chainFrom?_eq_of_agreeOn {n : Nat} {a : Addr} (hd : d.AgreeOn d' 96 d.here.toNat)
    (h : d.chainFrom? n a = some addrs)
    (hh : ∀ b ∈ addrs, d.HasHeader b ∨ b = Layout.firstEntry) :
    d'.chainFrom? n a = some addrs := by
  induction n generalizing a addrs with
  | zero => simp [chainFrom?] at h
  | succ n ih =>
    rw [chainFrom?] at h ⊢
    by_cases hlow : a < Layout.firstEntry
    · rwa [if_pos hlow] at h ⊢
    · rw [if_neg hlow] at h ⊢
      -- the walk meets `a` itself, so its header is as before
      have hmem : a ∈ addrs := by
        cases holder : d.older? a with
        | none =>
          rw [holder] at h
          cases h
          exact List.mem_singleton_self a
        | some b =>
          rw [holder] at h
          obtain ⟨rest, -, rfl⟩ := Option.map_eq_some_iff.1 h
          exact List.mem_cons_self
      rw [older?_eq_of_agreeOn (hh a hmem) hd]
      cases holder : d.older? a with
      | none =>
        rw [holder] at h
        exact h
      | some b =>
        rw [holder] at h
        obtain ⟨rest, hrest, rfl⟩ := Option.map_eq_some_iff.1 h
        have := ih hrest fun c hc => hh c (List.mem_cons_of_mem a hc)
        simp [this]

/-! ## What is restored -/

variable (hs : s.Intact) (hcap : s.here.toNat ≤ t.capacity)

include hs hcap

theorem reserved_restore_image {c : SystemCell} (hc : c.addr.toNat + 2 ≤ 6) :
    (t.restore s.image).reserved c = s.reserved c :=
  (agreeOn_restore_cells hs.le_here hcap).reserved (Nat.zero_le _) hc

theorem here_restore_image : (t.restore s.image).here = s.here :=
  congrArg Int16.toUInt16 (reserved_restore_image hs hcap (c := .here) (by decide))

theorem latest_restore_image : (t.restore s.image).latest = s.latest :=
  congrArg Int16.toUInt16 (reserved_restore_image hs hcap (c := .latest) (by decide))

/-- The chain is the one of the image. -/
theorem chain?_restore_image : (t.restore s.image).chain? = s.chain? := by
  obtain ⟨addrs, hchain, hheaders⟩ := hs.chain
  rw [hchain, chain?, latest_restore_image hs hcap]
  exact chainFrom?_eq_of_agreeOn (agreeOn_restore_entries hcap) hchain
    fun a ha => (hheaders a ha).imp_right And.left

omit hs hcap in
theorem compiling_restore_image (s t : Dictionary) :
    (t.restore s.image).compiling = t.compiling := by
  rw [compiling, compiling, (agreeOn_restore_kept s t).reserved (by decide) (by decide)]

omit hs hcap in
/-- While nothing is compiled, all entries are seen, or none is. -/
theorem isVisible_of_not_compiling (h : d.compiling = false) (a : Addr) :
    d.isVisible a = (d.here != Layout.firstEntry) := by
  simp [isVisible, h]

variable (hcs : s.compiling = false) (hct : t.compiling = false)

include hcs hct

theorem isVisible_restore_image (a : Addr) :
    (t.restore s.image).isVisible a = s.isVisible a := by
  rw [isVisible_of_not_compiling ((compiling_restore_image s t).trans hct),
    isVisible_of_not_compiling hcs, here_restore_image hs hcap]

/-- The entries that are seen are those of the image, and so is all that is told of them. -/
theorem entries?_restore_image : ∃ es, s.entries? = some es ∧
    (t.restore s.image).entries? = some es ∧
      ∀ e ∈ es, (t.restore s.image).text e.name = s.text e.name := by
  obtain ⟨addrs, hchain, hheaders⟩ := hs.chain
  have hagree := agreeOn_restore_entries (t := t) hcap
  -- an entry that is seen was defined, so its header is in the image
  have hheader : ∀ a ∈ addrs.filter s.isVisible, s.HasHeader a := by
    intro a ha
    obtain ⟨hmem, hvisible⟩ := List.mem_filter.1 ha
    rcases hheaders a hmem with h | ⟨-, hhere⟩
    · exact h
    · simp [isVisible, hhere] at hvisible
  have hvisible : (t.restore s.image).isVisible = s.isVisible :=
    funext (isVisible_restore_image hs hcap hcs hct)
  refine ⟨(addrs.filter s.isVisible).map s.entryAt, by rw [entries?, hchain]; rfl, ?_, ?_⟩
  · rw [entries?, chain?_restore_image hs hcap, hchain, hvisible]
    exact congrArg some (List.map_congr_left fun a ha => (hheader a ha).entryAt_eq hagree)
  · intro e he
    obtain ⟨a, ha, rfl⟩ := List.mem_map.1 he
    have hentry := hheader a ha
    have hname := hentry.text_entryName_eq hagree
    rwa [entryName_eq (hentry.readCell_eq hagree)] at hname

/-- A name is resolved as in the dictionary of the image, wherever it is spelled there. -/
theorem find_restore_image {s' : Dictionary} (hinput : s.InputOnly s') {u v : Span}
    (htext : (t.restore s.image).text v = s'.text u) :
    (t.restore s.image).find v = s'.find u := by
  obtain ⟨addrs, hchain, hheaders⟩ := hs.chain
  have hagree := agreeOn_restore_entries (t := t) hcap
  have hagree' : s.AgreeOn s' 96 s.here.toNat :=
    hinput.agreeOn_above.mono (Nat.le_refl _) (Nat.le_of_lt s.here.toNat_lt)
  have hempty : v.isEmpty = u.isEmpty := by
    have hlength := congrArg List.length htext
    rw [text, text, Memory.length_bytesFrom, Memory.length_bytesFrom] at hlength
    rw [Span.isEmpty, Span.isEmpty, UInt16.toNat_inj.1 hlength]
  -- an entry fits or not by its name and by whether it is seen, and both are those of the image
  have hfits : ∀ a ∈ addrs, (t.restore s.image).fits v a = s'.fits u a := by
    intro a ha
    have hseen : (t.restore s.image).isVisible a = s'.isVisible a := by
      rw [isVisible_restore_image hs hcap hcs hct, isVisible_of_not_compiling hcs,
        isVisible_of_not_compiling (hinput.compiling_eq.trans hcs), hinput.here_eq]
    rw [fits, fits, hseen, sameText_eq, sameText_eq, htext]
    rcases hheaders a ha with h | ⟨-, hhere⟩
    · rw [h.text_entryName_eq hagree, h.text_entryName_eq hagree']
    · simp [isVisible, hinput.here_eq, hhere]
  have hchain' : s'.chainFrom? walkLimit s'.latest = some addrs := by
    rw [hinput.latest_eq]
    exact chainFrom?_eq_of_agreeOn hagree' hchain fun a ha => (hheaders a ha).imp_right And.left
  have hrestored : (t.restore s.image).chainFrom? walkLimit (t.restore s.image).latest =
      some addrs := (chain?_restore_image hs hcap).trans hchain
  rw [find, find, hempty, searchFrom_of_chainFrom? hrestored, searchFrom_of_chainFrom? hchain']
  rw [List.find?_congr hfits]

end ThreadedForth.Dictionary
