import ThreadedForth.Dictionary.Source
import ThreadedForth.Proofs.Dictionary.Room

/-!
# Reading source text

To load a line and to read a word from it changes the three cells about the source and the input
buffer, which lie side by side, and nothing else: `InputOnly d d'`. A line that is a single word
is read back as it was loaded (`of_nextWord_of_loadInput`).
-/

set_option autoImplicit false

namespace ThreadedForth.Dictionary

variable {d d' d'' : Dictionary} {lo hi : Nat}

/-- Nothing changed but the cells about the source and the input buffer. -/
structure InputOnly (d d' : Dictionary) : Prop where
  capacity_eq : d'.capacity = d.capacity
  agreeOn_below : d.AgreeOn d' 0 10
  agreeOn_above : d.AgreeOn d' 96 65536

namespace InputOnly

theorem refl (d : Dictionary) : d.InputOnly d := ⟨rfl, .refl _ _ _, .refl _ _ _⟩

theorem trans (h : d.InputOnly d') (h' : d'.InputOnly d'') : d.InputOnly d'' :=
  ⟨h'.capacity_eq.trans h.capacity_eq, h.agreeOn_below.trans h'.agreeOn_below,
    h.agreeOn_above.trans h'.agreeOn_above⟩

/-- The cells before those about the source are the same. -/
theorem reserved (h : d.InputOnly d') {c : SystemCell} (hc : c.addr.toNat + 2 ≤ 10) :
    d'.reserved c = d.reserved c :=
  h.agreeOn_below.reserved (Nat.zero_le _) hc

theorem reservedAddr (h : d.InputOnly d') {c : SystemCell} (hc : c.addr.toNat + 2 ≤ 10) :
    d'.reservedAddr c = d.reservedAddr c := congrArg Int16.toUInt16 (h.reserved hc)

theorem here_eq (h : d.InputOnly d') : d'.here = d.here := h.reservedAddr (by decide)

theorem latest_eq (h : d.InputOnly d') : d'.latest = d.latest := h.reservedAddr (by decide)

theorem compiling_eq (h : d.InputOnly d') : d'.compiling = d.compiling := by
  unfold compiling
  rw [h.reserved (by decide)]

theorem hasRoom_iff (h : d.InputOnly d') : d'.HasRoom ↔ d.HasRoom := by
  unfold HasRoom
  rw [h.here_eq, h.capacity_eq]

theorem ready (h : d.InputOnly d') (hd : d.Ready) : d'.Ready :=
  hd.of_here_eq h.here_eq h.capacity_eq

end InputOnly

/-! ## Writing bytes -/

@[simp] theorem capacity_writeBytes (d : Dictionary) (a : Addr) (bytes : List UInt8) :
    (d.writeBytes a bytes).capacity = d.capacity := Memory.capacity_writeBytes ..

/-- Bytes are written to their addresses only. -/
theorem agreeOn_writeBytes (d : Dictionary) (a : Addr) (bytes : List UInt8)
    (htop : a.toNat + bytes.length < 65536)
    (h : a.toNat + bytes.length ≤ lo ∨ hi ≤ a.toNat) :
    d.AgreeOn (d.writeBytes a bytes) lo hi := by
  induction bytes generalizing d a with
  | nil => exact .refl _ _ _
  | cons b bs ih =>
      rw [List.length_cons] at htop h
      have h1 : (a + 1).toNat = a.toNat + 1 := toNat_add_one (by omega)
      exact (d.agreeOn_writeByte b (by omega)).trans
        (ih (d.writeByte a b) (a + 1) (by omega) (by omega))

/-- The bytes that were written are read where there is memory. -/
theorem bytesFrom_writeBytes (d : Dictionary) (a : Addr) (bytes : List UInt8)
    (hcap : a.toNat + bytes.length ≤ d.capacity) (htop : a.toNat + bytes.length < 65536) :
    (d.writeBytes a bytes).memory.bytesFrom a bytes.length = bytes := by
  induction bytes generalizing d a with
  | nil => rfl
  | cons b bs ih =>
      rw [List.length_cons] at hcap htop ⊢
      have h1 : (a + 1).toNat = a.toNat + 1 := toNat_add_one (by omega)
      have hrest := ih (d.writeByte a b) (a + 1) (by rw [capacity_writeByte]; omega) (by omega)
      have hfirst : ((d.writeByte a b).writeBytes (a + 1) bs).readByte a = b := by
        have hlater : (d.writeByte a b).AgreeOn ((d.writeByte a b).writeBytes (a + 1) bs) 0
            (a.toNat + 1) := agreeOn_writeBytes _ _ _ (by omega) (by omega)
        rw [hlater a (Nat.zero_le _) (by omega), readByte, writeByte,
          Memory.readByte_writeByte, if_pos ⟨rfl, by simp only [capacity] at hcap; omega⟩]
      rw [Memory.bytesFrom_succ]
      exact List.cons_eq_cons.2 ⟨hfirst, hrest⟩

/-! ## Loading a line -/

/-- A line with zeros up to the end of the buffer. -/
def padded (line : List UInt8) : List UInt8 :=
  line ++ List.replicate (Layout.inputCapacity - line.length) 0

theorem length_padded {line : List UInt8} (h : line.length ≤ Layout.inputCapacity) :
    (padded line).length = Layout.inputCapacity := by
  rw [padded, List.length_append, List.length_replicate, Nat.add_sub_cancel' h]

/-- What is loaded is the line and the zeros after it. -/
theorem of_loadInput_eq_ok {line : List UInt8} (h : loadInput line d = .ok () d') :
    line.length ≤ Layout.inputCapacity ∧
      d' = (((d.setReservedAddr .source Layout.inputBuffer).setReserved .sourceLength
        (Int16.ofNat line.length)).setReserved .cursor 0).writeBytes Layout.inputBuffer
          (padded line) := by
  simp only [loadInput] at h
  split at h
  · rename_i hlen
    cases h
    exact ⟨hlen, rfl⟩
  · cases h

/-- A line is loaded if it fits into the buffer. -/
theorem exists_loadInput_eq_ok {line : List UInt8} (d : Dictionary)
    (h : line.length ≤ Layout.inputCapacity) : ∃ d', loadInput line d = .ok () d' := by
  simp only [loadInput, if_pos h]
  exact ⟨_, rfl⟩

theorem loadInput_of_long {line : List UInt8} (d : Dictionary)
    (h : Layout.inputCapacity < line.length) :
    loadInput line d = .error (.inputTooLong line.length) d := by
  simp only [loadInput, if_neg (Nat.not_le.2 h)]

theorem eq_of_loadInput_eq_error {line : List UInt8} {e : Error}
    (h : loadInput line d = .error e d') : d' = d := by
  simp only [loadInput] at h
  split at h
  · cases h
  · cases h
    rfl

theorem inputOnly_setReserved (d : Dictionary) (c : SystemCell) (v : Cell)
    (hc : 10 ≤ c.addr.toNat) : d.InputOnly (d.setReserved c v) := by
  have htop := c.toNat_addr_add_two_le
  exact ⟨capacity_setReserved .., d.agreeOn_setReserved c v (Or.inr hc),
    d.agreeOn_setReserved c v (Or.inl (by omega))⟩

theorem inputOnly_of_loadInput {line : List UInt8} (h : loadInput line d = .ok () d') :
    d.InputOnly d' := by
  obtain ⟨hlen, rfl⟩ := of_loadInput_eq_ok h
  have htotal : (padded line).length = 80 := length_padded hlen
  have hsource := d.inputOnly_setReserved .source Layout.inputBuffer.toInt16 (by decide)
  have hlength := hsource.trans
    (inputOnly_setReserved _ .sourceLength (Int16.ofNat line.length) (by decide))
  have hcursor := hlength.trans (inputOnly_setReserved _ .cursor 0 (by decide))
  refine hcursor.trans ⟨?_, ?_, ?_⟩
  · exact capacity_writeBytes ..
  · exact agreeOn_writeBytes _ _ _ (by rw [htotal]; decide) (Or.inr (by decide))
  · exact agreeOn_writeBytes _ _ _ (by rw [htotal]; decide) (Or.inl (by rw [htotal]; decide))

theorem relates_loadInput (line : List UInt8) : Relates InputOnly (loadInput line) :=
  .of_ok .refl eq_of_loadInput_eq_error inputOnly_of_loadInput

theorem inputOnly_nextWord (d : Dictionary) : d.InputOnly d.nextWord.2 :=
  d.inputOnly_setReserved .cursor _ (by decide)

/-- Where there is input, the next word is not empty. -/
theorem length_nextWord_pos (h : d.hasInput = true) : 0 < d.nextWord.1.length.toNat := by
  rw [hasInput_eq] at h
  have htext := d.text_nextWord
  have hblank := List.head?_dropWhile_not Text.isBlank d.unread
  cases hrest : d.unread.dropWhile Text.isBlank with
  | nil =>
      rw [hrest] at h
      cases h
  | cons b bs =>
      rw [hrest] at h hblank htext
      have hword : isWordByte b = true := by
        simp only [isWordByte, Bool.and_eq_true, Bool.not_eq_true']
        exact ⟨by simpa using hblank, h⟩
      rw [List.takeWhile_cons_of_pos hword] at htext
      have hlength := congrArg List.length htext
      rw [text, Memory.length_bytesFrom, List.length_cons] at hlength
      omega

/-- The buffer begins after the reserved cells, so they are read as they were set. -/
theorem agreeOn_of_loadInput_cells {line : List UInt8} (h : loadInput line d = .ok () d') :
    (((d.setReservedAddr .source Layout.inputBuffer).setReserved .sourceLength
      (Int16.ofNat line.length)).setReserved .cursor 0).AgreeOn d' 0 16 := by
  obtain ⟨hlen, rfl⟩ := of_loadInput_eq_ok h
  have htotal : (padded line).length = 80 := length_padded hlen
  exact agreeOn_writeBytes _ _ _ (by rw [htotal]; decide) (Or.inr (by decide))

theorem source_of_loadInput {line : List UInt8} (hcap : 12 ≤ d.capacity)
    (h : loadInput line d = .ok () d') : d'.reservedAddr .source = Layout.inputBuffer := by
  rw [(agreeOn_of_loadInput_cells h).reservedAddr (Nat.zero_le _) (by decide), reservedAddr,
    reserved_setReserved_of_ne _ _ (by decide), reserved_setReserved_of_ne _ _ (by decide)]
  exact (congrArg Int16.toUInt16 (d.readCell_writeCell (a := SystemCell.source.addr) _ hcap)).trans
    (UInt16.toUInt16_toInt16 _)

theorem cursor_of_loadInput {line : List UInt8} (h : loadInput line d = .ok () d') :
    d'.reservedAddr .cursor = 0 := by
  rw [(agreeOn_of_loadInput_cells h).reservedAddr (Nat.zero_le _) (by decide)]
  exact congrArg Int16.toUInt16 (readCell_writeCell_zero _ _)

/-- A line that was loaded is the source, and nothing of it was read. -/
theorem reservedAddr_of_loadInput {line : List UInt8} (hcap : 16 ≤ d.capacity)
    (h : loadInput line d = .ok () d') :
    d'.reservedAddr .source = Layout.inputBuffer ∧
      d'.reservedAddr .sourceLength = UInt16.ofNat line.length ∧ d'.reservedAddr .cursor = 0 := by
  refine ⟨source_of_loadInput (Nat.le_trans (by decide) hcap) h, ?_, cursor_of_loadInput h⟩
  rw [(agreeOn_of_loadInput_cells h).reservedAddr (Nat.zero_le _) (by decide), reservedAddr,
    reserved_setReserved_of_ne _ _ (by decide),
    reserved_setReserved _ _ _ (by rw [capacity_setReservedAddr]; exact hcap)]
  rfl

/-- Where the memory ends before the buffer, there is nothing to read in a line. -/
theorem hasInput_of_capacity_le {line : List UInt8} (hcap : d.capacity ≤ 16)
    (h : loadInput line d = .ok () d') : d'.hasInput = false := by
  have hcap' := (inputOnly_of_loadInput h).capacity_eq
  have hnone : ∀ a : Addr, d'.capacity ≤ a.toNat → d'.memory.readByte a = 0 := fun a ha =>
    Memory.readByte_of_capacity_le ha
  rcases Nat.lt_or_ge 12 d.capacity with hlt | hle
  · -- the line is looked for in the buffer, whose first byte is read as zero
    have hstart : d'.unreadStart = Layout.inputBuffer := by
      unfold unreadStart
      rw [source_of_loadInput (Nat.le_of_lt hlt) h, cursor_of_loadInput h, UInt16.add_zero]
    have hzero : d'.memory.readByte Layout.inputBuffer = 0 := hnone _ (by rw [hcap']; exact hcap)
    have hunread : ∀ n, (d'.memory.bytesFrom Layout.inputBuffer (n + 1)).dropWhile Text.isBlank =
        d'.memory.bytesFrom Layout.inputBuffer (n + 1) := by
      intro n
      rw [Memory.bytesFrom_succ, hzero]
      exact List.dropWhile_cons_of_neg (by decide)
    rw [hasInput_eq, unread, hstart]
    cases d'.unreadLength with
    | zero => rfl
    | succ n =>
        rw [hunread, Memory.bytesFrom_succ, hzero]
        rfl
  · -- not even the length of the line is kept
    have hlength : d'.reservedAddr .sourceLength = 0 := by
      rw [reservedAddr, reserved, readCell, Memory.readCell_eq,
        hnone _ (by rw [hcap']; exact hle),
        hnone _ (by rw [hcap']; exact Nat.le_trans hle (by decide))]
      rfl
    have hunread : d'.unreadLength = 0 := by
      rw [unreadLength, hlength]
      exact Nat.zero_sub _
    rw [hasInput_eq, unread, hunread]
    rfl

/-- A line that was loaded fills the buffer. -/
theorem bytesFrom_buffer_of_loadInput {line : List UInt8} (hcap : 96 ≤ d.capacity)
    (h : loadInput line d = .ok () d') :
    d'.memory.bytesFrom Layout.inputBuffer Layout.inputCapacity = padded line := by
  obtain ⟨hlen, rfl⟩ := of_loadInput_eq_ok h
  have htotal : (padded line).length = 80 := length_padded hlen
  have hbytes := bytesFrom_writeBytes (((d.setReservedAddr .source Layout.inputBuffer).setReserved
    .sourceLength (Int16.ofNat line.length)).setReserved .cursor 0) Layout.inputBuffer (padded line)
    (by rw [htotal, capacity_setReserved, capacity_setReserved, capacity_setReservedAddr]; exact hcap)
    (by rw [htotal]; decide)
  rwa [htotal] at hbytes

/-- A line that was loaded is unread. -/
theorem unread_of_loadInput {line : List UInt8} (hcap : 96 ≤ d.capacity)
    (h : loadInput line d = .ok () d') :
    d'.unreadStart = Layout.inputBuffer ∧ d'.unreadLength = line.length ∧ d'.unread = line := by
  obtain ⟨hsource, hlength, hcursor⟩ := reservedAddr_of_loadInput (by omega) h
  have hlen := (of_loadInput_eq_ok h).1
  change line.length ≤ 80 at hlen
  have hstart : d'.unreadStart = Layout.inputBuffer := by
    unfold unreadStart
    rw [hsource, hcursor, UInt16.add_zero]
  have hunread : d'.unreadLength = line.length := by
    rw [unreadLength, hlength, hcursor, UInt16.toNat_zero,
      UInt16.toNat_ofNat_of_lt' (by show _ < 65536; omega), Nat.sub_zero]
  refine ⟨hstart, hunread, ?_⟩
  have htake := congrArg (List.take line.length) (bytesFrom_buffer_of_loadInput hcap h)
  rw [padded, List.take_left] at htake
  rw [unread, hstart, hunread]
  exact (Memory.take_bytesFrom _ _ hlen).symm.trans htake

/-- No blank stands in front of a word. -/
theorem dropWhile_isBlank_eq {bs : List UInt8} (h : ∀ b ∈ bs.head?, isWordByte b = true) :
    bs.dropWhile Text.isBlank = bs := by
  cases bs with
  | nil => rfl
  | cons b bs =>
      have hb := h b rfl
      unfold isWordByte at hb
      rw [Bool.and_eq_true, Bool.not_eq_true'] at hb
      exact List.dropWhile_cons_of_neg (by rw [hb.1]; decide)

/-- A line that is one word is read as it is, from the input buffer. -/
theorem of_nextWord_of_loadInput {word : List UInt8} (hcap : 96 < d.capacity)
    (hword : ∀ b ∈ word, isWordByte b = true) (h : loadInput word d = .ok () d') :
    d'.nextWord.1 = .ofLength Layout.inputBuffer (UInt16.ofNat word.length) ∧
      d'.nextWord.2.text d'.nextWord.1 = word := by
  have hlen := (of_loadInput_eq_ok h).1
  change word.length ≤ 80 at hlen
  obtain ⟨hstart, hlength, hunread⟩ := unread_of_loadInput (Nat.le_of_lt hcap) h
  -- the word has no blank in front of it and nothing behind it
  have hdrop : word.dropWhile Text.isBlank = word :=
    dropWhile_isBlank_eq fun b hb => hword b (List.mem_of_mem_head? hb)
  have hblanks : d'.leadingBlanks = 0 := by
    have hafter := d'.memory.bytesFrom_after_runLength Text.isBlank d'.unreadStart d'.unreadLength
    have hlen := congrArg List.length hafter
    change d'.unread = word at hunread
    rw [unread] at hunread
    rw [hunread, hdrop, Memory.length_bytesFrom] at hlen
    have hle := d'.memory.runLength_le Text.isBlank d'.unreadStart d'.unreadLength
    rw [leadingBlanks]
    omega
  have htake : word.takeWhile isWordByte = word := by
    have happend : (word ++ []).takeWhile isWordByte = word ++ [].takeWhile isWordByte :=
      List.takeWhile_append_of_pos hword
    simpa only [List.append_nil, List.takeWhile_nil] using happend
  have hrun : d'.memory.runLength isWordByte (d'.unreadStart + UInt16.ofNat d'.leadingBlanks)
      (d'.unreadLength - d'.leadingBlanks) = word.length := by
    have hread : d'.memory.bytesFrom d'.unreadStart d'.unreadLength = word := hunread
    have hzero : d'.unreadStart + UInt16.ofNat 0 = d'.unreadStart := UInt16.add_zero _
    rw [hblanks, hzero, Nat.sub_zero, Memory.runLength_eq, hread, htake]
  have hspan : d'.nextWord.1 = .ofLength Layout.inputBuffer (UInt16.ofNat word.length) := by
    simp only [nextWord, hrun]
    rw [hblanks, hstart]
    rfl
  refine ⟨hspan, ?_⟩
  have htext : d'.text d'.nextWord.1 = word := by rw [text_nextWord, hunread, hdrop, htake]
  -- the cursor lies below the buffer
  have hcursor : d'.AgreeOn d'.nextWord.2 16 65536 :=
    d'.agreeOn_setReserved .cursor _ (Or.inl (by decide))
  rw [hspan] at htext ⊢
  have hend : 16 + (Span.ofLength Layout.inputBuffer (UInt16.ofNat word.length)).length.toNat ≤
      65536 := by
    rw [Span.length_ofLength, UInt16.toNat_ofNat_of_lt' (by show _ < 65536; omega)]
    omega
  have hbegin : 16 ≤ (Span.ofLength Layout.inputBuffer (UInt16.ofNat word.length)).start.toNat :=
    Nat.le_refl 16
  calc d'.nextWord.2.text (.ofLength Layout.inputBuffer (UInt16.ofNat word.length))
      = d'.text (.ofLength Layout.inputBuffer (UInt16.ofNat word.length)) :=
        hcursor.bytesFrom hbegin hend hend
    _ = word := htext

/-! ## Words of the input buffer

In the course of a line the source is the input buffer. What is read of it depends on the cells about
the source and on the buffer alone. -/

/-- The source is in the input buffer, and no more of it was read than there is. -/
structure Buffered (d : Dictionary) : Prop where
  source_eq : d.reservedAddr .source = Layout.inputBuffer
  length_le : (d.reservedAddr .sourceLength).toNat ≤ 80
  cursor_le : (d.reservedAddr .cursor).toNat ≤ 81

theorem buffered_of_loadInput {line : List UInt8} (hcap : 16 ≤ d.capacity)
    (h : loadInput line d = .ok () d') : d'.Buffered := by
  obtain ⟨hsource, hlength, hcursor⟩ := reservedAddr_of_loadInput hcap h
  have hlen := (of_loadInput_eq_ok h).1
  change line.length ≤ 80 at hlen
  refine ⟨hsource, ?_, ?_⟩
  · rw [hlength, UInt16.toNat_ofNat_of_lt' (by show _ < 65536; omega)]
    exact hlen
  · rw [hcursor]
    decide

theorem AgreeOn.writeBytes_next (a : Addr) {bytes : List UInt8} (h : d.AgreeOn d' lo a.toNat)
    (hcap : d'.capacity = d.capacity) (htop : a.toNat + bytes.length < 65536) :
    (d.writeBytes a bytes).AgreeOn (d'.writeBytes a bytes) lo (a.toNat + bytes.length) := by
  induction bytes generalizing d d' a with
  | nil => exact h
  | cons b bs ih =>
      rw [List.length_cons] at htop ⊢
      have h1 : (a + 1).toNat = a.toNat + 1 := toNat_add_one (by omega)
      have hfirst := AgreeOn.writeByte_next a h b hcap
      rw [← h1] at hfirst
      have hrest := ih (a + 1) hfirst (by rw [capacity_writeByte, capacity_writeByte, hcap]) (by omega)
      have hend : a.toNat + (bs.length + 1) = (a + 1).toNat + bs.length := by omega
      rw [hend]
      exact hrest

/-- A line that was loaded into two dictionaries is the same source in both. -/
theorem agreeOn_of_loadInput {line : List UInt8} {d1 d1' : Dictionary}
    (hcap : d'.capacity = d.capacity) (h : loadInput line d = .ok () d1)
    (h' : loadInput line d' = .ok () d1') : d1.AgreeOn d1' 10 96 := by
  obtain ⟨hlen, rfl⟩ := of_loadInput_eq_ok h
  obtain ⟨-, rfl⟩ := of_loadInput_eq_ok h'
  have htotal : (padded line).length = 80 := length_padded hlen
  -- cell after cell, and then the buffer
  have hnone : d.AgreeOn d' 10 SystemCell.source.addr.toNat := fun a hlo hhi =>
    absurd hhi (Nat.not_lt.2 hlo)
  have hsource := AgreeOn.writeCell_next SystemCell.source.addr hnone Layout.inputBuffer.toInt16 hcap
    (by decide)
  have hlength := AgreeOn.writeCell_next SystemCell.sourceLength.addr hsource
    (Int16.ofNat line.length) (by rw [capacity_writeCell, capacity_writeCell, hcap]) (by decide)
  have hcursor := AgreeOn.writeCell_next SystemCell.cursor.addr hlength 0
    (by simp only [capacity_writeCell, hcap]) (by decide)
  have hbuffer := AgreeOn.writeBytes_next Layout.inputBuffer hcursor
    (by simp only [capacity_writeCell, hcap]) (by rw [htotal]; decide)
  rw [htotal] at hbuffer
  exact hbuffer

theorem Buffered.of_agreeOn (h : d.Buffered) (hd : d.AgreeOn d' 10 96) : d'.Buffered := by
  constructor
  · rw [hd.reservedAddr (by decide) (by decide)]
    exact h.source_eq
  · rw [hd.reservedAddr (by decide) (by decide)]
    exact h.length_le
  · rw [hd.reservedAddr (by decide) (by decide)]
    exact h.cursor_le

/-- What is unread lies in the buffer. -/
theorem Buffered.toNat_unreadStart (h : d.Buffered) :
    d.unreadStart.toNat = 16 + (d.reservedAddr .cursor).toNat := by
  have hcursor := h.cursor_le
  rw [unreadStart, h.source_eq, UInt16.toNat_add]
  show (16 + _) % 65536 = _
  omega

theorem Buffered.unreadStart_add_le (h : d.Buffered) (hpos : 0 < d.unreadLength) :
    d.unreadStart.toNat + d.unreadLength ≤ 96 := by
  have hlength := h.length_le
  rw [h.toNat_unreadStart]
  rw [unreadLength] at hpos ⊢
  omega

theorem unreadStart_eq_of_agreeOn (hd : d.AgreeOn d' 10 96) : d'.unreadStart = d.unreadStart := by
  unfold unreadStart
  rw [hd.reservedAddr (by decide) (by decide), hd.reservedAddr (by decide) (by decide)]

theorem unreadLength_eq_of_agreeOn (hd : d.AgreeOn d' 10 96) : d'.unreadLength = d.unreadLength := by
  unfold unreadLength
  rw [hd.reservedAddr (by decide) (by decide), hd.reservedAddr (by decide) (by decide)]

theorem Buffered.unread_eq (h : d.Buffered) (hd : d.AgreeOn d' 10 96) : d'.unread = d.unread := by
  unfold unread
  rw [unreadStart_eq_of_agreeOn hd, unreadLength_eq_of_agreeOn hd]
  rcases Nat.eq_zero_or_pos d.unreadLength with hzero | hpos
  · rw [hzero]
    rfl
  · have hend := h.unreadStart_add_le hpos
    have hstart := h.toNat_unreadStart
    exact hd.bytesFrom (by omega) hend (by omega)

theorem Buffered.hasInput_eq_of_agreeOn (h : d.Buffered) (hd : d.AgreeOn d' 10 96) :
    d'.hasInput = d.hasInput := by
  rw [hasInput_eq, hasInput_eq, h.unread_eq hd]

/-- The text of the next word. -/
def nextText (d : Dictionary) : List UInt8 :=
  (d.unread.dropWhile Text.isBlank).takeWhile isWordByte

theorem leadingBlanks_eq (d : Dictionary) :
    d.leadingBlanks = (d.unread.takeWhile Text.isBlank).length := Memory.runLength_eq ..

/-- The number of bytes of the next word. -/
theorem runLength_nextWord (d : Dictionary) :
    d.memory.runLength isWordByte (d.unreadStart + UInt16.ofNat d.leadingBlanks)
      (d.unreadLength - d.leadingBlanks) = d.nextText.length := by
  have hafter := d.memory.bytesFrom_after_runLength Text.isBlank d.unreadStart d.unreadLength
  rw [Memory.runLength_eq, leadingBlanks, hafter]
  rfl

/-- The next word in terms of the unread text. -/
theorem nextWord_eq (d : Dictionary) : d.nextWord =
    (.ofLength (d.unreadStart + UInt16.ofNat d.leadingBlanks) (UInt16.ofNat d.nextText.length),
      d.setReservedAddr .cursor (d.reservedAddr .cursor + UInt16.ofNat d.leadingBlanks +
        UInt16.ofNat d.nextText.length + 1)) := by
  rw [← runLength_nextWord]
  rfl

/-- The blanks and the next word are a part of what is unread. -/
theorem leadingBlanks_add_length_le (d : Dictionary) :
    d.leadingBlanks + d.nextText.length ≤ d.unreadLength := by
  have hlen : d.unread.length = d.unreadLength := Memory.length_bytesFrom ..
  have hblanks := List.takeWhile_append_dropWhile (p := Text.isBlank) (l := d.unread)
  have hword := (List.takeWhile_prefix isWordByte (l := d.unread.dropWhile Text.isBlank)).length_le
  have hsum := congrArg List.length hblanks
  rw [List.length_append, hlen] at hsum
  rw [leadingBlanks_eq]
  exact Nat.le_trans (Nat.add_le_add_left hword _) (Nat.le_of_eq hsum)

theorem length_nextText_pos (h : d.hasInput = true) : 0 < d.nextText.length := by
  have hpos := length_nextWord_pos h
  have hle := d.leadingBlanks_add_length_le
  have hlt := d.unreadLength_lt
  rw [nextWord_eq, Span.length_ofLength, UInt16.toNat_ofNat_of_lt' (by show _ < 65536; omega)] at hpos
  exact hpos

theorem isWordByte_of_mem_nextText {b : UInt8} (h : b ∈ d.nextText) : isWordByte b = true :=
  List.all_eq_true.1 List.all_takeWhile b h

theorem Buffered.nextText_eq (h : d.Buffered) (hd : d.AgreeOn d' 10 96) :
    d'.nextText = d.nextText := by
  rw [nextText, nextText, h.unread_eq hd]

theorem Buffered.nextWord_fst_eq (h : d.Buffered) (hd : d.AgreeOn d' 10 96) :
    d'.nextWord.1 = d.nextWord.1 := by
  rw [nextWord_eq, nextWord_eq, h.nextText_eq hd, leadingBlanks_eq, leadingBlanks_eq, h.unread_eq hd,
    unreadStart_eq_of_agreeOn hd]

/-- Where there is a word, it lies in the buffer. -/
theorem Buffered.nextWord_within (h : d.Buffered) (hinput : d.hasInput = true) :
    16 ≤ d.nextWord.1.start.toNat ∧
      d.nextWord.1.start.toNat + d.nextWord.1.length.toNat ≤ 96 ∧
      d.nextWord.1.length.toNat = d.nextText.length := by
  have hpos := length_nextText_pos hinput
  have hle := d.leadingBlanks_add_length_le
  have hend := h.unreadStart_add_le (by omega)
  have hstart := h.toNat_unreadStart
  have hlength : (UInt16.ofNat d.nextText.length).toNat = d.nextText.length :=
    UInt16.toNat_ofNat_of_lt' (by show _ < 65536; omega)
  have hsum : (d.unreadStart + UInt16.ofNat d.leadingBlanks).toNat =
      d.unreadStart.toNat + d.leadingBlanks := toNat_add_ofNat (by omega)
  rw [nextWord_eq, Span.start_ofLength, Span.length_ofLength, hsum, hlength]
  omega

/-- The word that is read is the next word, as long as the buffer is the same. -/
theorem Buffered.text_nextWord (h : d.Buffered) (hinput : d.hasInput = true)
    (hd : d.AgreeOn d' 16 96) : d'.text d.nextWord.1 = d.nextText := by
  obtain ⟨hstart, hend, -⟩ := h.nextWord_within hinput
  have hsame : d'.text d.nextWord.1 = d.text d.nextWord.1 :=
    hd.bytesFrom hstart hend (by omega)
  rw [hsame, Dictionary.text_nextWord]
  rfl

theorem agreeOn_nextWord (d : Dictionary) : d.AgreeOn d.nextWord.2 16 65536 :=
  d.agreeOn_setReserved .cursor _ (Or.inl (by decide))

/-- To read a word reads it alike wherever the source is the same. -/
theorem Buffered.agreeOn_nextWord (h : d.Buffered) (hcap : d'.capacity = d.capacity)
    (hd : d.AgreeOn d' 10 96) : d.nextWord.2.AgreeOn d'.nextWord.2 10 96 := by
  rw [nextWord_eq, nextWord_eq d', h.nextText_eq hd, leadingBlanks_eq, leadingBlanks_eq,
    h.unread_eq hd, hd.reservedAddr (by decide) (by decide)]
  exact hd.writeCell _ _ hcap

/-- What follows the longest part in front that satisfies `p`. -/
theorem drop_length_takeWhile (p : UInt8 → Bool) (l : List UInt8) :
    l.drop (l.takeWhile p).length = l.dropWhile p := by
  have happend := congrArg (List.drop (l.takeWhile p).length)
    (List.takeWhile_append_dropWhile (p := p) (l := l))
  rw [List.drop_left] at happend
  exact happend.symm

/-- What is left after a word and the byte that ends it. -/
theorem Buffered.unread_nextWord (h : d.Buffered) (hcap : 16 ≤ d.capacity)
    (hinput : d.hasInput = true) :
    d.nextWord.2.Buffered ∧ d.nextWord.2.unread =
      ((d.unread.dropWhile Text.isBlank).dropWhile isWordByte).tail := by
  have hpos := length_nextText_pos hinput
  have hle := d.leadingBlanks_add_length_le
  have hlength := h.length_le
  have hlen : d.unreadLength = (d.reservedAddr .sourceLength).toNat -
    (d.reservedAddr .cursor).toNat := rfl
  have hsource : d.nextWord.2.reservedAddr .source = d.reservedAddr .source :=
    congrArg Int16.toUInt16 (d.reserved_setReserved_of_ne _ (by decide))
  have hlength' : d.nextWord.2.reservedAddr .sourceLength = d.reservedAddr .sourceLength :=
    congrArg Int16.toUInt16 (d.reserved_setReserved_of_ne _ (by decide))
  have hcursor : d.nextWord.2.reservedAddr .cursor = d.reservedAddr .cursor +
      UInt16.ofNat (d.leadingBlanks + d.nextText.length + 1) := by
    rw [nextWord_eq, reservedAddr, setReservedAddr, reserved_setReserved _ _ _ hcap,
      UInt16.toUInt16_toInt16, UInt16.ofNat_add, UInt16.ofNat_add, UInt16.add_assoc, UInt16.add_assoc,
      UInt16.add_assoc]
    rfl
  have hnum : (d.nextWord.2.reservedAddr .cursor).toNat =
      (d.reservedAddr .cursor).toNat + (d.leadingBlanks + d.nextText.length + 1) := by
    rw [hcursor]
    exact toNat_add_ofNat (by omega)
  have hbuffered : d.nextWord.2.Buffered := by
    refine ⟨hsource.trans h.source_eq, ?_, ?_⟩
    · rw [hlength']
      exact hlength
    · rw [hnum]
      omega
  refine ⟨hbuffered, ?_⟩
  have hstart : d.nextWord.2.unreadStart =
      d.unreadStart + UInt16.ofNat (d.leadingBlanks + d.nextText.length + 1) := by
    unfold unreadStart
    rw [hsource, hcursor, UInt16.add_assoc]
  have hunread : d.nextWord.2.unreadLength =
      d.unreadLength - (d.leadingBlanks + d.nextText.length + 1) := by
    rw [unreadLength, hlength', hnum, hlen]
    omega
  -- the bytes that are left lie in the buffer, which reading does not change
  have hkept : d.nextWord.2.unread = d.unread.drop (d.leadingBlanks + d.nextText.length + 1) := by
    unfold unread
    rw [Memory.drop_bytesFrom, hstart, hunread]
    rcases Nat.eq_zero_or_pos (d.unreadLength - (d.leadingBlanks + d.nextText.length + 1)) with
      hzero | hleft
    · rw [hzero]
      rfl
    · have hend := h.unreadStart_add_le (by omega)
      have hfrom := h.toNat_unreadStart
      have hsum : (d.unreadStart + UInt16.ofNat (d.leadingBlanks + d.nextText.length + 1)).toNat =
          d.unreadStart.toNat + (d.leadingBlanks + d.nextText.length + 1) :=
        toNat_add_ofNat (by omega)
      exact d.agreeOn_nextWord.bytesFrom (by omega) (by omega) (by omega)
  have hblanks : d.unread.drop d.leadingBlanks = d.unread.dropWhile Text.isBlank := by
    rw [leadingBlanks_eq, drop_length_takeWhile]
  have hword : (d.unread.dropWhile Text.isBlank).drop d.nextText.length =
      (d.unread.dropWhile Text.isBlank).dropWhile isWordByte := drop_length_takeWhile _ _
  rw [hkept, ← List.drop_drop, ← List.drop_drop, hblanks, hword, List.drop_one]

/-- A word in front of the unread text is the next one, and the byte that ends it is read as well. -/
theorem Buffered.of_unread_eq {word : List UInt8} (rest : List UInt8) (h : d.Buffered) (hcap : 16 ≤ d.capacity)
    (hunread : d.unread = word ++ rest) (hne : word ≠ []) (hword : ∀ b ∈ word, isWordByte b = true)
    (hrest : ∀ b ∈ rest.head?, isWordByte b = false) :
    d.hasInput = true ∧ d.nextText = word ∧ d.nextWord.2.unread = rest.tail := by
  have hdrop : d.unread.dropWhile Text.isBlank = word ++ rest := by
    rw [hunread]
    obtain ⟨b, bs, rfl⟩ := List.exists_cons_of_ne_nil hne
    refine dropWhile_isBlank_eq fun c hc => ?_
    cases hc
    exact hword _ List.mem_cons_self
  have hinput : d.hasInput = true := by
    rw [hasInput_eq, hdrop]
    cases word with
    | nil => exact absurd rfl hne
    | cons b bs =>
        have hb := hword b List.mem_cons_self
        unfold isWordByte at hb
        rw [Bool.and_eq_true] at hb
        exact hb.2
  have htake : rest.takeWhile isWordByte = [] ∧ rest.dropWhile isWordByte = rest := by
    cases rest with
    | nil => exact ⟨rfl, rfl⟩
    | cons b bs =>
        have hb := hrest b rfl
        exact ⟨List.takeWhile_cons_of_neg (by rw [hb]; decide),
          List.dropWhile_cons_of_neg (by rw [hb]; decide)⟩
  refine ⟨hinput, ?_, ?_⟩
  · rw [nextText, hdrop, List.takeWhile_append_of_pos hword, htake.1, List.append_nil]
  · rw [(h.unread_nextWord hcap hinput).2, hdrop, List.dropWhile_append_of_pos hword, htake.2]

end ThreadedForth.Dictionary
