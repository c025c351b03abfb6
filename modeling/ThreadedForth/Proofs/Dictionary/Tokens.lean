import Mathlib.Tactic.IntervalCases
import ThreadedForth.Proofs.Dictionary.Appends
import ThreadedForth.Proofs.Dictionary.Scanned

/-!
# The words that are read

Words are read one after the other as long as there is input (`Reads`), each from where the one before
it ended. `Sourced` is what stays true between two words: the source is these bytes, and so much of them
was read. From it one word is the next longest run of what is read of the text (`Sourced.next`), and all
of them together are all the runs, in their order, each at its place in memory
(`Sourced.tokenizes_scanned`). Without zeros that is the text itself (`Scanning.tokenizes`). The text can
lie anywhere, also across the highest address, as long as the cursor is not written over it; a line that
is loaded is such a text (`tokenizes_line_and_source`).
-/

set_option autoImplicit false

namespace ThreadedForth

namespace Dictionary

/-! ## Reading word by word -/

/-- Words are read one after the other until there is no input. -/
inductive Reads : Dictionary → List Span → Dictionary → Prop
  | done {d : Dictionary} (ended : d.hasInput = false) : Reads d [] d
  | next {d d' : Dictionary} {words : List Span} (more : d.hasInput = true)
      (rest : Reads d.nextWord.2 words d') : Reads d (d.nextWord.1 :: words) d'

theorem Reads.hasInput_eq_false {d d' : Dictionary} {words : List Span} (h : d.Reads words d') :
    d'.hasInput = false := by
  induction h with
  | done ended => exact ended
  | next more rest ih => exact ih

/-- There is one way to read. -/
theorem Reads.unique {d d' d'' : Dictionary} {words words' : List Span} (h : d.Reads words d')
    (h' : d.Reads words' d'') : words = words' ∧ d' = d'' := by
  induction h generalizing words' with
  | done ended =>
      cases h' with
      | done ended' => exact ⟨rfl, rfl⟩
      | next more' rest' =>
          rw [ended] at more'
          cases more'
  | next more rest ih =>
      cases h' with
      | done ended' =>
          rw [more] at ended'
          cases ended'
      | next more' rest' =>
          obtain ⟨rfl, rfl⟩ := ih rest'
          exact ⟨rfl, rfl⟩

/-- Where the bytes from `i` up to `j` of a text lie that begins at `start`. -/
def place (start : Addr) (word : Nat × Nat) : Span :=
  ⟨start + UInt16.ofNat word.1, start + UInt16.ofNat word.2⟩

theorem ofLength_place (start : Addr) (i n : Nat) :
    Span.ofLength (start + UInt16.ofNat i) (UInt16.ofNat n) = place start (i, i + n) := by
  rw [Span.ofLength, place, UInt16.ofNat_add, UInt16.add_assoc]

theorem length_place {start : Addr} {i j : Nat} (hle : i ≤ j) (hlt : j < 65536) :
    (place start (i, j)).length.toNat = j - i := by
  obtain ⟨n, rfl⟩ := Nat.exists_eq_add_of_le hle
  rw [← ofLength_place, Span.length_ofLength, UInt16.toNat_ofNat_of_lt' (by show _ < 65536; omega)]
  omega

/-- The source is the bytes at `start`, and `k` of them were read. There can be zeros among them. -/
structure Sourced (d : Dictionary) (start : Addr) (text : List UInt8) (k : Nat) : Prop where
  le_capacity : 16 ≤ d.capacity
  source_eq : d.reservedAddr .source = start
  length_eq : (d.reservedAddr .sourceLength).toNat = text.length
  cursor_eq : (d.reservedAddr .cursor).toNat = k
  bytes_eq : d.memory.bytesFrom start text.length = text
  length_le : text.length ≤ 65534
  /-- The cursor is not written over the text. -/
  apart : ∀ i < text.length, start + UInt16.ofNat i ≠ SystemCell.cursor.addr ∧
    start + UInt16.ofNat i ≠ SystemCell.cursor.addr + 1

/-- Read until there is no input, the words are those of the text at `start`: all of them, in their
order, each at its place, where its bytes are read. -/
def Tokenizes (d : Dictionary) (start : Addr) (text : List UInt8) : Prop :=
  ∃ (words : List (Nat × Nat)) (d' : Dictionary), d.Reads (words.map (place start)) d' ∧ d'.hasInput = false ∧
    words.Pairwise (fun v w => v.2 < w.1) ∧ (∀ i j, (i, j) ∈ words ↔ Text.IsWord text i j) ∧
    ∀ w ∈ words, d'.text (place start w) = (text.drop w.1).take (w.2 - w.1)

namespace Sourced

variable {d : Dictionary} {start : Addr} {text : List UInt8} {k : Nat}

theorem unreadStart_eq (h : d.Sourced start text k) :
    d.unreadStart = start + UInt16.ofNat k := by
  rw [unreadStart, h.source_eq, ← h.cursor_eq, UInt16.ofNat_toNat]

theorem unread_eq (h : d.Sourced start text k) : d.unread = text.drop k := by
  have hbytes := congrArg (List.drop k) h.bytes_eq
  rw [Memory.drop_bytesFrom] at hbytes
  rw [unread, h.unreadStart_eq, unreadLength, h.length_eq, h.cursor_eq, hbytes]

/-- What is written to the cursor changes neither the text nor the other cells. -/
theorem setCursor (h : d.Sourced start text k) (v : Addr) :
    (d.setReservedAddr .cursor v).Sourced start text v.toNat where
  le_capacity := by
    rw [capacity_setReservedAddr]
    exact h.le_capacity
  source_eq := (congrArg Int16.toUInt16 (d.reserved_setReserved_of_ne _ (by decide))).trans h.source_eq
  length_eq := by
    rw [← h.length_eq, reservedAddr, setReservedAddr, d.reserved_setReserved_of_ne _ (by decide)]
    rfl
  cursor_eq := by
    rw [reservedAddr, setReservedAddr, reserved_setReserved _ _ _ h.le_capacity,
      UInt16.toUInt16_toInt16]
  bytes_eq := by
    refine Eq.trans (List.map_congr_left fun i hi => ?_) h.bytes_eq
    obtain ⟨hlow, hhigh⟩ := h.apart i (List.mem_range.1 hi)
    exact d.readByte_writeCell_of_ne _ hlow hhigh
  length_le := h.length_le
  apart := h.apart

/-- Where there is no input, only blanks are left. -/
theorem isBlank_of_not_hasInput (h : d.Sourced start text k) (hk : Text.Restarts text k)
    (hinput : d.hasInput = false) {x : Nat} (hx : k ≤ x) :
    ∀ b ∈ (Text.scanned text)[x]?, Text.isBlank b = true := by
  refine hk.isBlank_of_stop (fun b hb => ?_) hx
  rw [hasInput_eq, h.unread_eq] at hinput
  cases hdrop : (text.drop k).dropWhile Text.isBlank with
  | nil =>
      rw [hdrop] at hb
      cases hb
  | cons c cs =>
      rw [hdrop] at hb hinput
      obtain rfl : c = b := Option.some.inj hb
      exact bne_eq_false_iff_eq.1 hinput

/-- The next word lies at its place in the text, and it is read with the byte after it. -/
theorem reads_word (h : d.Sourced start text k) (hinput : d.hasInput = true) :
    0 < d.nextText.length ∧ k + d.leadingBlanks + d.nextText.length ≤ text.length ∧
      d.nextWord.1 = place start (k + d.leadingBlanks, k + d.leadingBlanks + d.nextText.length) ∧
      d.nextWord.2.Sourced start text (k + d.leadingBlanks + d.nextText.length + 1) := by
  have hpos := length_nextText_pos hinput
  have hle := d.leadingBlanks_add_length_le
  have hlen := h.length_le
  rw [unreadLength, h.length_eq, h.cursor_eq] at hle
  refine ⟨hpos, by omega, ?_, ?_⟩
  · rw [nextWord_eq, h.unreadStart_eq, UInt16.add_assoc, ← UInt16.ofNat_add, ofLength_place]
  · have hcursor : (d.reservedAddr .cursor + UInt16.ofNat d.leadingBlanks +
        UInt16.ofNat d.nextText.length + 1).toNat = k + d.leadingBlanks + d.nextText.length + 1 := by
      have hone : (1 : UInt16) = UInt16.ofNat 1 := rfl
      rw [hone, UInt16.add_assoc, UInt16.add_assoc, ← UInt16.ofNat_add, ← UInt16.ofNat_add,
        toNat_add_ofNat (by rw [h.cursor_eq]; omega), h.cursor_eq]
      omega
    have hnext := h.setCursor (d.reservedAddr .cursor + UInt16.ofNat d.leadingBlanks +
      UInt16.ofNat d.nextText.length + 1)
    rw [hcursor] at hnext
    rw [nextWord_eq]
    exact hnext

/-- The next word is the first longest run from `k` on, and it is read with the byte after it. -/
theorem next (h : d.Sourced start text k) (hk : Text.Restarts text k) (hinput : d.hasInput = true) :
    ∃ i j, k ≤ i ∧ Text.IsWord (Text.scanned text) i j ∧
      (∀ x, k ≤ x → x < i → ∀ b ∈ (Text.scanned text)[x]?, Text.isBlank b = true) ∧
      d.nextWord.1 = place start (i, j) ∧ d.nextWord.2.Sourced start text (j + 1) ∧
      Text.Restarts text (j + 1) := by
  obtain ⟨hpos, -, hplace, hrest⟩ := h.reads_word hinput
  have hunread := h.unread_eq
  have hskip := d.leadingBlanks_eq
  rw [hunread] at hskip
  have hword : d.nextText = (text.drop (k + d.leadingBlanks)).takeWhile isWordByte := by
    rw [nextText, hunread, ← drop_length_takeWhile, ← hskip, List.drop_drop]
  obtain ⟨hblank, hisWord, hrestarts⟩ := hk.next hskip.symm (congrArg List.length hword.symm) hpos
  exact ⟨_, _, Nat.le_add_right _ _, hisWord, hblank, hplace, hrest, hrestarts⟩

/-- The bytes of a word are read at its place. -/
theorem text_place (h : d.Sourced start text k) {i j : Nat} (hle : i ≤ j) (hj : j ≤ text.length) :
    d.text (place start (i, j)) = (text.drop i).take (j - i) := by
  have hlen := h.length_le
  have hbytes := congrArg (List.take (j - i)) (congrArg (List.drop i) h.bytes_eq)
  rw [Memory.drop_bytesFrom, Memory.take_bytesFrom _ _ (by omega)] at hbytes
  rw [Dictionary.text, length_place hle (by omega)]
  exact hbytes

/-- From the first byte that was not read on, the words that are read are those of the text. The
induction is on what was not read. -/
theorem exists_reads (h : d.Sourced start text k) (hk : Text.Restarts text k) :
    ∃ (words : List (Nat × Nat)) (d' : Dictionary) (k' : Nat),
      d.Reads (words.map (place start)) d' ∧ d'.Sourced start text k' ∧
      words.Pairwise (fun v w => v.2 < w.1) ∧
      ∀ i j, (i, j) ∈ words ↔ k ≤ i ∧ Text.IsWord (Text.scanned text) i j := by
  induction hleft : (Text.scanned text).length + 1 - k using Nat.strongRecOn generalizing d k with
  | ind left ih =>
  by_cases hinput : d.hasInput = true
  · obtain ⟨i, j, hi, hword, hblank, hplace, hnext, hrestarts⟩ := h.next hk hinput
    have hlt := hword.lt
    have hle := hword.le_length
    obtain ⟨words, d', k', hreads, hend, hsorted, hmem⟩ := ih _ (by omega) hnext hrestarts rfl
    refine ⟨(i, j) :: words, d', k', ?_, hend, List.pairwise_cons.2 ⟨?_, hsorted⟩, fun x y => ?_⟩
    · rw [List.map_cons, ← hplace]
      exact .next hinput hreads
    · intro w hw
      have hafter := ((hmem w.1 w.2).1 hw).1
      show j < w.1
      omega
    · rw [List.mem_cons, hmem x y, Prod.mk.injEq]
      constructor
      · rintro (⟨rfl, rfl⟩ | ⟨hx, hxy⟩)
        · exact ⟨hi, hword⟩
        · exact ⟨by omega, hxy⟩
      · rintro ⟨hx, hxy⟩
        exact (hword.eq_or_lt hblank hx hxy).imp_right fun hjx => ⟨hjx, hxy⟩
  · have hended : d.hasInput = false := Bool.eq_false_iff.2 hinput
    refine ⟨[], d, k, .done hended, h, .nil, fun i j => ⟨fun hmem => absurd hmem List.not_mem_nil, ?_⟩⟩
    rintro ⟨hi, hword⟩
    have hlt := hword.lt
    have hle := hword.le_length
    obtain ⟨b, hb⟩ : ∃ b, (Text.scanned text)[i]? = some b := ⟨_, List.getElem?_eq_getElem (by omega)⟩
    have hyes := h.isBlank_of_not_hasInput hk hended hi b hb
    rw [hword.not_blank i (Nat.le_refl _) hlt b hb] at hyes
    cases hyes

/-- All words are read of what is read of the text. -/
theorem tokenizes_scanned (h : d.Sourced start text 0) : d.Tokenizes start (Text.scanned text) := by
  obtain ⟨words, d', k', hreads, hend, hsorted, hmem⟩ := h.exists_reads (Text.restarts_zero text)
  have hwords : ∀ i j, (i, j) ∈ words ↔ Text.IsWord (Text.scanned text) i j := fun i j =>
    (hmem i j).trans ⟨And.right, fun hword => ⟨Nat.zero_le i, hword⟩⟩
  refine ⟨words, d', hreads, hreads.hasInput_eq_false, hsorted, hwords, fun w hw => ?_⟩
  have hword := (hwords w.1 w.2).1 hw
  obtain ⟨hle, hbytes⟩ := hword.of_scanned
  rw [← hbytes]
  exact hend.text_place (Nat.le_of_lt hword.lt) hle

end Sourced

/-- The source is the text at `start`, which has no zeros, and `k` of its bytes were read. -/
structure Scanning (d : Dictionary) (start : Addr) (text : List UInt8) (k : Nat) : Prop where
  le_capacity : 16 ≤ d.capacity
  source_eq : d.reservedAddr .source = start
  length_eq : (d.reservedAddr .sourceLength).toNat = text.length
  cursor_eq : (d.reservedAddr .cursor).toNat = k
  bytes_eq : d.memory.bytesFrom start text.length = text
  ne_zero : ∀ b ∈ text, b ≠ 0
  length_le : text.length ≤ 65534
  /-- The cursor is not written over the text. -/
  apart : ∀ i < text.length, start + UInt16.ofNat i ≠ SystemCell.cursor.addr ∧
    start + UInt16.ofNat i ≠ SystemCell.cursor.addr + 1

namespace Scanning

variable {d : Dictionary} {start : Addr} {text : List UInt8} {k : Nat}

theorem sourced (h : d.Scanning start text k) : d.Sourced start text k :=
  ⟨h.le_capacity, h.source_eq, h.length_eq, h.cursor_eq, h.bytes_eq, h.length_le, h.apart⟩

theorem of_sourced (h : d.Sourced start text k) (hzero : ∀ b ∈ text, b ≠ 0) :
    d.Scanning start text k :=
  ⟨h.le_capacity, h.source_eq, h.length_eq, h.cursor_eq, h.bytes_eq, hzero, h.length_le, h.apart⟩

/-- All words of the text are read. -/
theorem tokenizes (h : d.Scanning start text 0) : d.Tokenizes start text := by
  have hall := h.sourced.tokenizes_scanned
  rwa [Text.scanned_of_ne_zero h.ne_zero] at hall

end Scanning

/-! ## A line that was loaded -/

theorem writeBytes_append (d : Dictionary) (a : Addr) (xs ys : List UInt8) :
    d.writeBytes a (xs ++ ys) = (d.writeBytes a xs).writeBytes (a + UInt16.ofNat xs.length) ys := by
  induction xs generalizing d a with
  | nil => exact congrArg (fun a => d.writeBytes a ys) a.add_zero.symm
  | cons x xs ih =>
      have hnext : a + 1 + UInt16.ofNat xs.length = a + UInt16.ofNat (x :: xs).length := by
        rw [List.length_cons, Nat.add_comm, UInt16.ofNat_add, UInt16.add_assoc]
        rfl
      rw [← hnext]
      exact ih (d.writeByte a x) (a + 1)

variable {d d' : Dictionary} {line : List UInt8}

/-- What the memory holds of a line in the input buffer. Past its end zeros are read. -/
def held (d : Dictionary) (line : List UInt8) : List UInt8 :=
  line.take (d.capacity - Layout.inputBuffer.toNat) ++
    List.replicate (line.length - (d.capacity - Layout.inputBuffer.toNat)) 0

theorem held_of_le (h : Layout.inputBuffer.toNat + line.length ≤ d.capacity) : d.held line = line := by
  rw [held, List.take_of_length_le (by omega), Nat.sub_eq_zero_of_le (by omega)]
  exact List.append_nil line

theorem length_held (d : Dictionary) (line : List UInt8) : (d.held line).length = line.length := by
  rw [held, List.length_append, List.length_take, List.length_replicate]
  omega

theorem bytesFrom_of_capacity_le {a : Addr} {n : Nat}
    (h : ∀ i < n, d.capacity ≤ (a + UInt16.ofNat i).toNat) :
    d.memory.bytesFrom a n = List.replicate n 0 := by
  refine List.eq_replicate_iff.2 ⟨Memory.length_bytesFrom .., fun b hb => ?_⟩
  obtain ⟨i, hi, rfl⟩ := List.mem_map.1 hb
  exact Memory.readByte_of_capacity_le (h i (List.mem_range.1 hi))

/-- The bytes of the line that lie in the memory are read there, and no others. -/
theorem bytesFrom_of_loadInput (hcap : Layout.inputBuffer.toNat ≤ d.capacity)
    (h : loadInput line d = .ok () d') :
    d'.memory.bytesFrom Layout.inputBuffer line.length = d.held line := by
  have hbuffer : Layout.inputBuffer.toNat = 16 := rfl
  have hcapacity := (inputOnly_of_loadInput h).capacity_eq
  obtain ⟨hlen, hd'⟩ := of_loadInput_eq_ok h
  change line.length ≤ 80 at hlen
  rw [hbuffer] at hcap
  have hplace : ∀ i, i ≤ 80 → (Layout.inputBuffer + UInt16.ofNat i).toNat = 16 + i :=
    fun i hi => toNat_add_ofNat (by show 16 + i < 65536; omega)
  have htake : (line.take (d.capacity - 16)).length = min (d.capacity - 16) line.length :=
    List.length_take
  have hfront : d'.memory.bytesFrom Layout.inputBuffer (line.take (d.capacity - 16)).length =
      line.take (d.capacity - 16) := by
    generalize hcells : ((d.setReservedAddr .source Layout.inputBuffer).setReserved .sourceLength
      (Int16.ofNat line.length)).setReserved .cursor 0 = d1 at hd'
    have hcap1 : d1.capacity = d.capacity := by
      rw [← hcells, capacity_setReserved, capacity_setReserved, capacity_setReservedAddr]
    -- what is written after these bytes leaves them alone
    have hparts := List.take_append_drop (d.capacity - 16) line
    generalize line.take (d.capacity - 16) = front at hparts htake ⊢
    generalize line.drop (d.capacity - 16) = back at hparts
    subst hparts
    rw [List.length_append] at hlen htake
    rw [padded, List.append_assoc, writeBytes_append] at hd'
    have hend := hplace front.length (by omega)
    have hrest : (d1.writeBytes Layout.inputBuffer front).AgreeOn d' 0 (16 + front.length) := by
      rw [hd']
      refine agreeOn_writeBytes _ _ _ ?_ (.inr (Nat.le_of_eq hend.symm))
      rw [hend, List.length_append, List.length_append, List.length_replicate]
      show 16 + front.length + (back.length + (80 - (front.length + back.length))) < 65536
      omega
    rw [hrest.bytesFrom (Nat.zero_le _) (by rw [hbuffer]) (by omega),
      bytesFrom_writeBytes _ _ _ (by rw [hbuffer, hcap1]; omega) (by omega)]
  have hback : d'.memory.bytesFrom
      (Layout.inputBuffer + UInt16.ofNat (line.take (d.capacity - 16)).length)
      (line.length - (line.take (d.capacity - 16)).length) =
      List.replicate (line.length - (d.capacity - 16)) 0 := by
    rw [htake]
    have hsame : line.length - min (d.capacity - 16) line.length = line.length - (d.capacity - 16) := by
      omega
    rw [hsame]
    refine bytesFrom_of_capacity_le fun i hi => ?_
    rw [UInt16.add_assoc, ← UInt16.ofNat_add, hplace _ (by omega), hcapacity]
    omega
  have hle : (line.take (d.capacity - 16)).length ≤ line.length := by
    rw [htake]
    exact Nat.min_le_right _ _
  rw [← Memory.take_bytesFrom _ _ hle] at hfront
  rw [← Memory.drop_bytesFrom] at hback
  have hall := List.take_append_drop (line.take (d.capacity - 16)).length
    (d'.memory.bytesFrom Layout.inputBuffer line.length)
  rw [hfront, hback] at hall
  exact hall.symm

/-- A line is the source from its first byte on, as far as the memory holds it. -/
theorem sourced_of_loadInput (hcap : Layout.inputBuffer.toNat ≤ d.capacity)
    (h : loadInput line d = .ok () d') : d'.Sourced Layout.inputBuffer (d.held line) 0 := by
  have hbytes := bytesFrom_of_loadInput hcap h
  change 16 ≤ d.capacity at hcap
  obtain ⟨hsource, hlength, hcursor⟩ := reservedAddr_of_loadInput hcap h
  have hcapacity := (inputOnly_of_loadInput h).capacity_eq
  have hlen : line.length ≤ 80 := (of_loadInput_eq_ok h).1
  have hheld := length_held d line
  refine ⟨by omega, hsource, ?_, by rw [hcursor]; rfl, ?_, by omega, fun i hi => ?_⟩
  · rw [hlength, hheld, UInt16.toNat_ofNat_of_lt' (by show _ < 65536; omega)]
  · rw [hheld, hbytes]
  · have hnum : (Layout.inputBuffer + UInt16.ofNat i).toNat = 16 + i :=
      toNat_add_ofNat (by show 16 + i < 65536; omega)
    constructor
    · intro heq
      rw [heq] at hnum
      change 14 = _ at hnum
      omega
    · intro heq
      rw [heq] at hnum
      change 15 = _ at hnum
      omega

/-- A line without zeros is the source from its first byte on if there is memory for it, and for
nothing more. -/
theorem scanning_of_loadInput (hcap : Layout.inputBuffer.toNat + line.length ≤ d.capacity)
    (hzero : ∀ b ∈ line, b ≠ 0) (h : loadInput line d = .ok () d') :
    d'.Scanning Layout.inputBuffer line 0 := by
  have hsourced := sourced_of_loadInput (Nat.le_of_add_right_le hcap) h
  rw [held_of_le hcap] at hsourced
  exact .of_sourced hsourced hzero

/-- The words that are read are the words of the text, of a line that was loaded where there is memory
for it, and of any part of memory that is made the source. -/
theorem tokenizes_line_and_source :
    (∀ (d : Dictionary) (line : List UInt8), line.length ≤ Layout.inputCapacity →
      (∀ b ∈ line, b ≠ 0) → Layout.inputBuffer.toNat + line.length ≤ d.capacity →
      ∃ d', loadInput line d = .ok () d' ∧ d'.Tokenizes Layout.inputBuffer line) ∧
    ∀ (d : Dictionary) (start : Addr) (text : List UInt8), d.Scanning start text 0 →
      d.Tokenizes start text := by
  refine ⟨fun d line hlen hzero hcap => ?_, fun d start text h => h.tokenizes⟩
  obtain ⟨d', hload⟩ := exists_loadInput_eq_ok d hlen
  exact ⟨d', hload, (scanning_of_loadInput hcap hzero hload).tokenizes⟩

instance (d : Dictionary) (start : Addr) (text : List UInt8) (k : Nat) :
    Decidable (d.Scanning start text k) :=
  decidable_of_iff (_ ∧ _ ∧ _ ∧ _ ∧ _ ∧ 0 ∉ text ∧ _ ∧ _)
    ⟨fun ⟨h, h', h'', h₃, h₄, h₅, h₆, h₇⟩ =>
        ⟨h, h', h'', h₃, h₄, fun _ hb hzero => h₅ (hzero ▸ hb), h₆, h₇⟩,
      fun ⟨h, h', h'', h₃, h₄, h₅, h₆, h₇⟩ => ⟨h, h', h'', h₃, h₄, fun h => h₅ 0 h rfl, h₆, h₇⟩⟩

/-- The source of a dictionary is the bytes that are at the address. -/
def withSource (d : Dictionary) (start length : Addr) : Dictionary :=
  ((d.setReservedAddr .source start).setReservedAddr .sourceLength length).setReserved .cursor 0

/-- A line in a memory that ends with it, and a text across the highest address. -/
theorem tokenizes_shortMemory_and_wrapped :
    (∃ d', loadInput [32, 97, 9, 9, 98, 99] ⟨.sparse (.zeros 22)⟩ = .ok () d' ∧
      d'.Tokenizes Layout.inputBuffer [32, 97, 9, 9, 98, 99]) ∧
    (((⟨.sparse (.zeros 65536)⟩ : Dictionary).writeBytes 0xfffe [97, 32, 98, 10]).withSource
      0xfffe 4).Tokenizes 0xfffe [97, 32, 98, 10] := by
  obtain ⟨hline, hsource⟩ := tokenizes_line_and_source
  exact ⟨hline _ _ (by decide +kernel) (by decide +kernel) (by decide +kernel),
    hsource _ _ _ (by decide +kernel)⟩

/-! ## Memory that ends too early -/

/-- Reading goes on for ever where the cursor does not stay. -/
theorem not_reads_of_nextWord_eq {words : List Span} (hinput : d.hasInput = true)
    (hsame : d.nextWord.2 = d) : ¬ d.Reads words d' := by
  intro h
  induction h with
  | done ended =>
      rw [hinput] at ended
      cases ended
  | next more rest ih => exact ih (by rw [hsame, hinput]) (by rw [hsame, hsame])

/-- A memory that ends within the line drops its last byte, and a text is read over and over where the
memory ends before the cursor. -/
theorem not_tokenizes_crampedMemory :
    (∃ d', loadInput [97, 98] ⟨.sparse (.zeros 17)⟩ = .ok () d' ∧
      ¬ d'.Tokenizes Layout.inputBuffer [97, 98]) ∧
    ∃ d : Dictionary, d.capacity = 14 ∧ d.reservedAddr .source = 2 ∧
      d.reservedAddr .sourceLength = 1 ∧ d.reservedAddr .cursor = 0 ∧
      d.memory.bytesFrom 2 1 = [96] ∧ ¬ d.Tokenizes 2 [96] := by
  constructor
  · have hfacts : let d := lastState (loadInput [97, 98] ⟨.sparse (.zeros 17)⟩)
        value? (loadInput [97, 98] ⟨.sparse (.zeros 17)⟩) = some () ∧ d.hasInput = true ∧
          d.nextWord.1 = ⟨16, 17⟩ ∧ d.nextWord.2.hasInput = false := by
      decide +kernel
    obtain ⟨hload, hinput, hword, hended⟩ := hfacts
    refine ⟨_, eq_ok_lastState hload, ?_⟩
    rintro ⟨words, d', hreads, -, -, hwords, -⟩
    have hboth : Text.IsWord [97, 98] 0 2 := by
      refine ⟨by decide, by decide, fun k _ hk => ?_, fun h => absurd h (by decide),
        by decide +kernel⟩
      interval_cases k <;> decide +kernel
    have hmem := List.mem_map_of_mem (f := place Layout.inputBuffer) ((hwords 0 2).2 hboth)
    generalize words.map (place Layout.inputBuffer) = spans at hreads hmem
    cases hreads with
    | done ended =>
        rw [hinput] at ended
        cases ended
    | next more rest =>
        rw [hword] at hmem
        cases rest with
        | done ended => exact absurd hmem (by decide)
        | next more' rest' =>
            rw [hended] at more'
            cases more'
  · refine ⟨((⟨.sparse (.zeros 14)⟩ : Dictionary).writeBytes 2 [96]).withSource 2 1, ?_⟩
    have hfacts : let d := ((⟨.sparse (.zeros 14)⟩ : Dictionary).writeBytes 2 [96]).withSource 2 1
        d.capacity = 14 ∧ d.reservedAddr .source = 2 ∧ d.reservedAddr .sourceLength = 1 ∧
          d.reservedAddr .cursor = 0 ∧ d.memory.bytesFrom 2 1 = [96] ∧ d.hasInput = true := by
      decide +kernel
    obtain ⟨hcap, hsource, hlength, hcursor, hbytes, hinput⟩ := hfacts
    refine ⟨hcap, hsource, hlength, hcursor, hbytes, ?_⟩
    rintro ⟨words, d', hreads, -⟩
    exact not_reads_of_nextWord_eq hinput rfl hreads

end Dictionary

end ThreadedForth
