import ThreadedForth.Dictionary.Entry
import ThreadedForth.Proofs.Dictionary.Room

/-!
# Headers

A header packs the length of a name, the immediate bit and a distance into one cell, or into two
where the distance is long. The first part of this module says that the three fields do not
disturb each other. What is read of an entry is read between its address and its body, so it stays
the same as long as those bytes do (`entryName_eq`, `AgreeOn.linkDistance`). The last two parts are
about what is written: a distance, which is then the one that is read
(`linkDistance_writeDistance`), and the bytes of a name (`bytesFrom_copyBytes`).
-/

set_option autoImplicit false

namespace ThreadedForth

/-! ## The first cell -/

namespace Header

theorem toNat_toUInt16_make {n k : UInt16} (hn : n.toNat < 64) (hk : k.toNat < 1024) :
    (make n k).toUInt16.toNat = n.toNat + k.toNat * 64 := by
  simp only [make, UInt16.toUInt16_toInt16, UInt16.toNat_add, UInt16.toNat_mul]
  show (_ + _ * 64 % 65536) % 65536 = _
  omega

theorem nameLength_make {n k : UInt16} (hn : n.toNat < 32) (hk : k.toNat < 1024) :
    nameLength (make n k) = n := by
  apply UInt16.toNat_inj.1
  unfold nameLength
  rw [UInt16.toNat_mod, toNat_toUInt16_make (by omega) hk]
  show _ % 32 = _
  omega

theorem distance_make {n k : UInt16} (hn : n.toNat < 32) (hk : k.toNat < 1024) :
    distance (make n k) = k := by
  apply UInt16.toNat_inj.1
  unfold distance
  rw [UInt16.toNat_div, toNat_toUInt16_make (by omega) hk]
  show _ / 64 = _
  omega

theorem isImmediate_make {n k : UInt16} (hn : n.toNat < 32) (hk : k.toNat < 1024) :
    isImmediate (make n k) = false := by
  have h : ((make n k).toUInt16 / 32 % 2).toNat = 0 := by
    rw [UInt16.toNat_mod, UInt16.toNat_div, toNat_toUInt16_make (by omega) hk]
    show _ / 32 % 2 = 0
    omega
  unfold isImmediate
  rw [UInt16.toNat_inj.1 (h.trans UInt16.toNat_zero.symm)]
  rfl

theorem toNat_toUInt16_withDistance (info : Cell) {k : UInt16} (hk : k.toNat < 1024) :
    (withDistance info k).toUInt16.toNat = info.toUInt16.toNat % 64 + k.toNat * 64 := by
  simp only [withDistance, UInt16.toUInt16_toInt16, UInt16.toNat_add, UInt16.toNat_mul,
    UInt16.toNat_mod]
  show (_ % 64 + _ * 64 % 65536) % 65536 = _
  omega

theorem nameLength_withDistance (info : Cell) {k : UInt16} (hk : k.toNat < 1024) :
    nameLength (withDistance info k) = nameLength info := by
  apply UInt16.toNat_inj.1
  unfold nameLength
  rw [UInt16.toNat_mod, UInt16.toNat_mod,
    toNat_toUInt16_withDistance info hk]
  show _ % 32 = _ % 32
  omega

theorem isImmediate_withDistance (info : Cell) {k : UInt16} (hk : k.toNat < 1024) :
    isImmediate (withDistance info k) = isImmediate info := by
  have h : (withDistance info k).toUInt16 / 32 % 2 = info.toUInt16 / 32 % 2 := by
    apply UInt16.toNat_inj.1
    rw [UInt16.toNat_mod, UInt16.toNat_mod, UInt16.toNat_div, UInt16.toNat_div,
      toNat_toUInt16_withDistance info hk]
    show _ / 32 % 2 = _ / 32 % 2
    omega
  unfold isImmediate
  rw [h]

theorem distance_withDistance (info : Cell) {k : UInt16} (hk : k.toNat < 1024) :
    distance (withDistance info k) = k := by
  apply UInt16.toNat_inj.1
  unfold distance
  rw [UInt16.toNat_div, toNat_toUInt16_withDistance info hk]
  show _ / 64 = _
  omega

/-- The cells of a header before the name, in bytes. -/
def size (info : Cell) : Nat := if isLong info then 4 else 2

theorem size_eq_of_isLong {info info' : Cell} (h : isLong info = isLong info') :
    size info = size info' := by rw [size, size, h]

theorem isLong_eq_of_size {info info' : Cell} (h : size info = size info') :
    isLong info = isLong info' := by
  unfold size at h
  cases hlong : isLong info <;> cases hlong' : isLong info' <;> simp_all

theorem size_eq_two_or_four (info : Cell) : size info = 2 ∨ size info = 4 := by
  unfold size
  split
  · exact Or.inr rfl
  · exact Or.inl rfl

theorem size_le (info : Cell) : 2 ≤ size info ∧ size info ≤ 4 := by
  unfold size
  split <;> omega

/-- What the first cell tells of a distance: the distance, or that it is in the second cell. -/
def field (info : Cell) (k : UInt16) : UInt16 := if isLong info then longDistance else k

theorem toNat_field_lt {info : Cell} {k : UInt16} (h : isLong info = true ∨ k < longDistance) :
    (field info k).toNat < 1024 := by
  unfold field
  split
  · decide
  · rename_i hshort
    exact Nat.lt_succ_of_lt (UInt16.lt_iff_toNat_lt.1 (h.resolve_left hshort))

/-- A header has as many cells with its distance as without it. -/
theorem isLong_withDistance_field {info : Cell} {k : UInt16}
    (h : isLong info = true ∨ k < longDistance) :
    isLong (withDistance info (field info k)) = isLong info := by
  rw [isLong, distance_withDistance _ (toNat_field_lt h), field]
  by_cases hlong : isLong info = true
  · rw [if_pos hlong, hlong]
    rfl
  · have hlt := UInt16.lt_iff_toNat_lt.1 (h.resolve_left hlong)
    rw [if_neg hlong, Bool.eq_false_iff.2 hlong]
    refine beq_false_of_ne fun heq => ?_
    rw [heq] at hlt
    exact Nat.lt_irrefl _ hlt

/-- The first cell of a header is made of what it tells. -/
theorem eq_of_parts {info info' : Cell} (hlength : nameLength info' = nameLength info)
    (himmediate : isImmediate info' = isImmediate info)
    (hdistance : distance info' = distance info) : info' = info := by
  have hl := congrArg UInt16.toNat hlength
  have hd := congrArg UInt16.toNat hdistance
  have hmod : ∀ x : UInt16, (x / 32 % 2).toNat = x.toNat / 32 % 2 := fun x => by
    rw [UInt16.toNat_mod, UInt16.toNat_div]
    rfl
  have hflag : ∀ x : UInt16, (x / 32 % 2 == 1) = decide ((x / 32 % 2).toNat = 1) := fun x => by
    rw [Bool.eq_iff_iff, beq_iff_eq, decide_eq_true_iff, ← UInt16.toNat_inj]
    rfl
  unfold isImmediate at himmediate
  rw [hflag, hflag, decide_eq_decide, hmod, hmod] at himmediate
  rw [nameLength, nameLength, UInt16.toNat_mod, UInt16.toNat_mod] at hl
  rw [distance, distance, UInt16.toNat_div, UInt16.toNat_div] at hd
  change _ % 32 = _ % 32 at hl
  change _ / 64 = _ / 64 at hd
  have heq : info'.toUInt16 = info.toUInt16 := UInt16.toNat_inj.1 (by omega)
  rw [← Int16.toInt16_toUInt16 info', heq, Int16.toInt16_toUInt16]

end Header

namespace Dictionary

variable {d d' : Dictionary} {lo hi : Nat} {entry : Addr}

/-! ## Reading an entry -/

theorem length_entryName (d : Dictionary) (entry : Addr) :
    (d.entryName entry).length = Header.nameLength (d.readCell entry) := Span.length_ofLength ..

theorem toNat_start_entryName (d : Dictionary) (entry : Addr)
    (h : entry.toNat + Header.size (d.readCell entry) < 65536) :
    (d.entryName entry).start.toNat = entry.toNat + Header.size (d.readCell entry) := by
  have hsize := Header.size_le (d.readCell entry)
  have h2 : (entry + cellSize).toNat = entry.toNat + 2 := toNat_add_cellSize (by omega)
  simp only [entryName, Span.start_ofLength]
  by_cases hlong : Header.isLong (d.readCell entry) = true
  · rw [Header.size, if_pos hlong] at h ⊢
    rw [if_pos hlong, toNat_add_cellSize (by omega), h2]
  · rw [Header.size, if_neg hlong] at h ⊢
    rw [if_neg hlong, UInt16.add_zero, h2]

theorem toNat_stop_entryName (d : Dictionary) (entry : Addr)
    (h : entry.toNat + Header.size (d.readCell entry) +
      (Header.nameLength (d.readCell entry)).toNat < 65536) :
    (d.entryName entry).stop.toNat = entry.toNat + Header.size (d.readCell entry) +
      (Header.nameLength (d.readCell entry)).toNat := by
  have hsum : (d.entryName entry).stop =
      (d.entryName entry).start + Header.nameLength (d.readCell entry) := rfl
  rw [hsum, UInt16.toNat_add, d.toNat_start_entryName entry (by omega)]
  exact Nat.mod_eq_of_lt h

theorem toNat_aligned {a : Addr} (h : a.toNat + 1 < 65536) :
    (aligned a).toNat = a.toNat + a.toNat % 2 := by
  unfold aligned
  rw [UInt16.toNat_mul, UInt16.toNat_div, toNat_add_one h]
  show _ / 2 * 2 % 65536 = _
  omega

/-- A body begins at the first even address after the name. -/
theorem toNat_entryBody (d : Dictionary) (entry : Addr) (stop : Nat)
    (hstop : entry.toNat + Header.size (d.readCell entry) +
      (Header.nameLength (d.readCell entry)).toNat = stop) (htop : stop + 1 < 65536) :
    (d.entryBody entry).toNat = stop + stop % 2 := by
  have hname := d.toNat_stop_entryName entry (by omega)
  rw [hstop] at hname
  unfold entryBody
  rw [toNat_aligned (by omega), hname]

/-- All that a header's first cell tells is the same if that cell is. -/
theorem entryName_eq (h : d'.readCell entry = d.readCell entry) :
    d'.entryName entry = d.entryName entry := by rw [entryName, entryName, h]

theorem isImmediate_eq (h : d'.readCell entry = d.readCell entry) :
    d'.isImmediate entry = d.isImmediate entry := by rw [isImmediate, isImmediate, h]

theorem entryBody_eq (h : d'.entryName entry = d.entryName entry) :
    d'.entryBody entry = d.entryBody entry := by rw [entryBody, entryBody, h]

theorem AgreeOn.linkDistance (h : d.AgreeOn d' lo hi) (hlo : lo ≤ entry.toNat)
    (hhi : entry.toNat + Header.size (d.readCell entry) ≤ hi)
    (htop : entry.toNat + Header.size (d.readCell entry) < 65536) :
    d'.linkDistance entry = d.linkDistance entry := by
  have hsize := Header.size_le (d.readCell entry)
  have hinfo : d'.readCell entry = d.readCell entry := h.readCell hlo (by omega) (by omega)
  simp only [Dictionary.linkDistance, hinfo]
  by_cases hlong : Header.isLong (d.readCell entry) = true
  · rw [Header.size, if_pos hlong] at hhi htop
    have h2 : (entry + cellSize).toNat = entry.toNat + 2 := toNat_add_cellSize (by omega)
    rw [if_pos hlong, if_pos hlong, h.readCell (by omega) (by omega) (by omega)]
  · rw [if_neg hlong, if_neg hlong]

/-! ## Writing a distance -/

/-- The dictionary with a distance in the header of an entry. -/
def writeDistance (d : Dictionary) (entry k : Addr) : Dictionary :=
  let info := d.readCell entry
  let d' := if Header.isLong info then d.writeCell (entry + cellSize) k.toInt16 else d
  d'.writeCell entry (Header.withDistance info (Header.field info k))

variable {k : Addr}

/-- A distance is written to the cells of the header and nowhere else. -/
theorem agreeOn_writeDistance (d : Dictionary) (k : Addr)
    (htop : entry.toNat + Header.size (d.readCell entry) < 65536)
    (h : entry.toNat + Header.size (d.readCell entry) ≤ lo ∨ hi ≤ entry.toNat) :
    d.AgreeOn (d.writeDistance entry k) lo hi := by
  have hsize := Header.size_le (d.readCell entry)
  have hsecond : d.AgreeOn (if Header.isLong (d.readCell entry) then
      d.writeCell (entry + cellSize) k.toInt16 else d) lo hi := by
    split
    · rename_i hlong
      have h4 : Header.size (d.readCell entry) = 4 := if_pos hlong
      have h2 : (entry + cellSize).toNat = entry.toNat + 2 := toNat_add_cellSize (by omega)
      exact d.agreeOn_writeCell _ (by omega) (by omega)
    · exact .refl _ _ _
  exact hsecond.trans (agreeOn_writeCell _ _ (by omega) (by omega))

@[simp] theorem capacity_writeDistance (d : Dictionary) (entry k : Addr) :
    (d.writeDistance entry k).capacity = d.capacity := by
  simp only [writeDistance, capacity_writeCell]
  split
  · exact capacity_writeCell ..
  · rfl

theorem readCell_writeDistance (d : Dictionary) (k : Addr) (hcap : entry.toNat + 1 < d.capacity) :
    (d.writeDistance entry k).readCell entry =
      Header.withDistance (d.readCell entry) (Header.field (d.readCell entry) k) := by
  refine readCell_writeCell _ _ ?_
  split
  · rw [capacity_writeCell]
    exact hcap
  · exact hcap

/-- The distance that was written is the one that is read. -/
theorem linkDistance_writeDistance (d : Dictionary)
    (hcap : entry.toNat + Header.size (d.readCell entry) < d.capacity)
    (h : Header.isLong (d.readCell entry) = true ∨ k < Header.longDistance) :
    (d.writeDistance entry k).linkDistance entry = k := by
  have hle := d.capacity_le
  have hsize := Header.size_le (d.readCell entry)
  rw [linkDistance, readCell_writeDistance d k (by omega), Header.isLong_withDistance_field h]
  by_cases hlong : Header.isLong (d.readCell entry) = true
  · have h4 : Header.size (d.readCell entry) = 4 := if_pos hlong
    have h2 : (entry + cellSize).toNat = entry.toNat + 2 := toNat_add_cellSize (by omega)
    have hfirst : (d.writeCell (entry + cellSize) k.toInt16).AgreeOn
        ((d.writeCell (entry + cellSize) k.toInt16).writeCell entry
          (Header.withDistance (d.readCell entry) (Header.field (d.readCell entry) k)))
        (entry.toNat + 2) 65536 := agreeOn_writeCell _ _ (by omega) (by omega)
    simp only [hlong, if_true, writeDistance]
    rw [hfirst.readCell (by omega) (by omega) (by omega), readCell_writeCell _ _ (by omega),
      UInt16.toUInt16_toInt16]
  · simp only [hlong]
    rw [Header.distance_withDistance _ (Header.toNat_field_lt h), Header.field, if_neg hlong]
    rfl

/-! ## Copying a name -/

/-- Copied bytes are written to their target only. -/
theorem agreeOn_copyBytes (d : Dictionary) (source target : Addr) (n : Nat)
    (htop : target.toNat + n < 65536) (h : target.toNat + n ≤ lo ∨ hi ≤ target.toNat) :
    d.AgreeOn (d.copyBytes source target n) lo hi := by
  induction n generalizing d source target with
  | zero => exact .refl _ _ _
  | succ n ih =>
      have h1 : (target + 1).toNat = target.toNat + 1 := toNat_add_one (by omega)
      exact (d.agreeOn_writeByte (d.readByte source) (by omega)).trans
        (ih _ (source + 1) (target + 1) (by omega) (by omega))

@[simp] theorem capacity_copyBytes (d : Dictionary) (source target : Addr) (n : Nat) :
    (d.copyBytes source target n).capacity = d.capacity := by
  induction n generalizing d source target with
  | zero => rfl
  | succ n ih => rw [copyBytes, ih, capacity_writeByte]

/-- Bytes copied from below their target are the ones that were there. -/
theorem bytesFrom_copyBytes (d : Dictionary) (source target : Addr) (n : Nat)
    (hbelow : source.toNat + n ≤ target.toNat) (hcap : target.toNat + n < d.capacity) :
    (d.copyBytes source target n).memory.bytesFrom target n = d.memory.bytesFrom source n := by
  have hle := d.capacity_le
  induction n generalizing d source target with
  | zero => rfl
  | succ n ih =>
      have hs : (source + 1).toNat = source.toNat + 1 := toNat_add_one (by omega)
      have ht : (target + 1).toNat = target.toNat + 1 := toNat_add_one (by omega)
      have hrest := ih (d.writeByte target (d.readByte source)) (source + 1) (target + 1)
        (by omega) (by rw [capacity_writeByte]; omega) (by rw [capacity_writeByte]; exact hle)
      have hbelow' : d.AgreeOn (d.writeByte target (d.readByte source)) 0 target.toNat :=
        d.agreeOn_writeByte _ (Or.inr (Nat.le_refl _))
      have hkeep : (d.writeByte target (d.readByte source)).memory.bytesFrom (source + 1) n =
          d.memory.bytesFrom (source + 1) n :=
        hbelow'.bytesFrom (Nat.zero_le _) (by omega) (by omega)
      have hfirst : (d.copyBytes source target (n + 1)).readByte target = d.readByte source := by
        have hlater : (d.writeByte target (d.readByte source)).AgreeOn
            ((d.writeByte target (d.readByte source)).copyBytes (source + 1) (target + 1) n) 0
            (target.toNat + 1) := agreeOn_copyBytes _ _ _ _ (by omega) (by omega)
        rw [copyBytes, hlater target (Nat.zero_le _) (by omega), readByte, writeByte,
          Memory.readByte_writeByte, if_pos ⟨rfl, by simp only [capacity] at hcap; omega⟩]
      rw [Memory.bytesFrom_succ, Memory.bytesFrom_succ]
      congr 1
      rw [copyBytes, hrest, hkeep]

end Dictionary

end ThreadedForth
