import ThreadedForth.Proofs.Dictionary.Uncommented
import ThreadedForth.Proofs.Dictionary.Zeros

/-!
# What is left to read of the input buffer

The words that are left to read (`ReadsOut`) are those of the bytes from the cursor on: each zero that
stands directly after a word is read as a blank, and any other one ends them (`Sourced.readsOut_iff`).

A line that is loaded fills all of the input buffer, with zeros after its end (`Buffers`). Where the
source is the buffer but the cells about it are those of another line, what is read is the loaded line as
far as the other one went, from the place up to which the other one was read (`Buffers.sourced`).
-/

set_option autoImplicit false

namespace ThreadedForth

namespace Text

variable {text : List UInt8}

/-- The words that are read of a text from the byte `k` on. -/
def wordsFrom (text : List UInt8) (k : Nat) : List (List UInt8) := words (scanned (text.drop k))

/-- Before a word it does not matter what stands in front of it. -/
theorem scannedAfter_eq_of_takeWhile_ne_nil (h : text.takeWhile Dictionary.isWordByte ≠ []) :
    scannedAfter false text = scannedAfter true text := by
  cases text with
  | nil => rfl
  | cons b bs =>
      have hne : b ≠ 0 := by
        rintro rfl
        exact h rfl
      rw [scannedAfter_cons_of_ne_zero hne, scannedAfter_cons_of_ne_zero hne]

/-- The first word that is read of a text, and what follows the byte after it. -/
theorem words_scanned {word : List UInt8}
    (hword : (text.dropWhile isBlank).takeWhile Dictionary.isWordByte = word) (hne : word ≠ []) :
    words (scanned text) =
      word :: words (scanned ((text.dropWhile isBlank).drop (word.length + 1))) := by
  generalize hrest : text.dropWhile isBlank = rest at hword
  have htake := takeWhile_scannedAfter true rest
  have hdrop := drop_scannedAfter_true rest
  rw [hword] at htake hdrop
  have hbyte : ∀ b ∈ word, isBlank b = false := by
    intro b hb
    rw [← htake] at hb
    simpa using List.mem_takeWhile_imp hb
  have hblank : ∀ b ∈ ((scannedAfter true rest).drop word.length).head?, isBlank b = true := by
    intro b hb
    rw [List.head?_drop, ← htake] at hb
    simpa using of_mem_at_length_takeWhile _ _ b hb
  calc words (scanned text) = words (scannedAfter true rest) := by
        rw [← words_dropWhile, scanned, (dropWhile_isBlank_scannedAfter text).1, hrest,
          scannedAfter_eq_of_takeWhile_ne_nil (hword ▸ hne)]
    _ = words (word ++ (scannedAfter true rest).drop word.length) := by
        rw [← htake, Dictionary.drop_length_takeWhile, List.takeWhile_append_dropWhile]
    _ = word :: words (scanned (rest.drop (word.length + 1))) := by
        rw [words_append hne hbyte hblank, List.tail_drop, hdrop]
        rfl

end Text

namespace Dictionary

variable {d d' : Dictionary} {start : Addr} {text line : List UInt8} {k n : Nat} {ws : List (List UInt8)}

/-! ## The words that are left -/

/-- Read to the end, the words are these. -/
def ReadsOut (d : Dictionary) (ws : List (List UInt8)) : Prop :=
  ∃ spans d', d.Reads spans d' ∧ spans.map d.text = ws

/-- Where there is no input, no word is read. -/
theorem words_scanned_eq_nil (h : d.hasInput = false) : Text.words (Text.scanned d.unread) = [] := by
  rw [hasInput_eq] at h
  rw [← Text.words_dropWhile, Text.scanned, (Text.dropWhile_isBlank_scannedAfter _).1]
  cases hrest : d.unread.dropWhile Text.isBlank with
  | nil => rfl
  | cons b bs =>
      rw [hrest] at h
      obtain rfl : b = 0 := by simpa using h
      rfl

/-- The words are read one after the other. The induction is on what was not read. -/
theorem Sourced.exists_reads_from (h : d.Sourced start text k) :
    ∃ (places : List (Nat × Nat)) (d' : Dictionary), d.Reads (places.map (place start)) d' ∧
      (∀ w ∈ places, w.1 ≤ w.2 ∧ w.2 ≤ text.length) ∧
      places.map (fun w => (text.drop w.1).take (w.2 - w.1)) = Text.wordsFrom text k := by
  induction hleft : text.length + 1 - k using Nat.strongRecOn generalizing d k with
  | ind left ih =>
  have hunread := h.unread_eq
  cases hinput : d.hasInput with
  | false =>
      refine ⟨[], d, .done hinput, fun w hw => absurd hw List.not_mem_nil, ?_⟩
      rw [Text.wordsFrom, ← hunread, words_scanned_eq_nil hinput]
      rfl
  | true =>
      obtain ⟨hpos, hle, hplace, hnext⟩ := h.reads_word hinput
      obtain ⟨places, d', hreads, hbounds, hwords⟩ := ih _ (by omega) hnext rfl
      have hskip : (text.drop k).dropWhile Text.isBlank = text.drop (k + d.leadingBlanks) := by
        rw [← drop_length_takeWhile, d.leadingBlanks_eq, hunread, List.drop_drop]
      have htext : ((text.drop k).dropWhile Text.isBlank).takeWhile isWordByte = d.nextText := by
        rw [nextText, hunread]
      have hfirst : (text.drop (k + d.leadingBlanks)).take d.nextText.length = d.nextText := by
        rw [← htext, hskip]
        exact (List.prefix_iff_eq_take.1 (List.takeWhile_prefix isWordByte)).symm
      refine ⟨(k + d.leadingBlanks, k + d.leadingBlanks + d.nextText.length) :: places, d', ?_,
        List.forall_mem_cons.2 ⟨⟨Nat.le_add_right _ _, hle⟩, hbounds⟩, ?_⟩
      · rw [List.map_cons, ← hplace]
        exact .next hinput hreads
      · rw [List.map_cons, hwords, Text.wordsFrom, Text.wordsFrom,
          Text.words_scanned htext (List.ne_nil_of_length_pos hpos), hskip, List.drop_drop,
          Nat.add_sub_cancel_left, hfirst, Nat.add_assoc _ _ 1]

/-- The words that are left are those of the text from the first unread byte on. -/
theorem Sourced.readsOut_iff (h : d.Sourced start text k) :
    d.ReadsOut ws ↔ ws = Text.wordsFrom text k := by
  obtain ⟨places, d', hreads, hbounds, hwords⟩ := h.exists_reads_from
  have htexts : (places.map (place start)).map d.text = Text.wordsFrom text k := by
    rw [← hwords, List.map_map]
    exact List.map_congr_left fun w hw => h.text_place (hbounds w hw).1 (hbounds w hw).2
  constructor
  · rintro ⟨spans, d'', hspans, rfl⟩
    rw [(hspans.unique hreads).1, htexts]
  · rintro rfl
    exact ⟨_, d', hreads, htexts⟩

/-! ## A buffer that was filled again -/

/-- The input buffer is as it was filled with a line. -/
structure Buffers (d : Dictionary) (line : List UInt8) : Prop where
  length_le : line.length ≤ Layout.inputCapacity
  bytes_eq : d.memory.bytesFrom Layout.inputBuffer Layout.inputCapacity = padded line

/-- A line that is loaded fills the buffer. -/
theorem buffers_of_loadInput (hcap : 96 ≤ d.capacity) (h : loadInput line d = .ok () d') :
    d'.Buffers line :=
  ⟨(of_loadInput_eq_ok h).1, bytesFrom_buffer_of_loadInput hcap h⟩

theorem Buffers.of_agreeOn (h : d.Buffers line) (hd : d.AgreeOn d' 16 96) : d'.Buffers line :=
  ⟨h.length_le, (hd.bytesFrom (by decide) (by decide) (by decide)).trans h.bytes_eq⟩

/-- Behind the end of a line there is no word in the buffer. -/
theorem wordsFrom_padded_eq_nil (h : line.length ≤ k) :
    Text.wordsFrom ((padded line).take n) k = [] := by
  obtain ⟨j, hj⟩ : ∃ j, ((padded line).take n).drop k = List.replicate j 0 := by
    rw [List.drop_take, padded, List.drop_append, List.drop_eq_nil_of_le h, List.nil_append,
      List.drop_replicate, List.take_replicate]
    exact ⟨_, rfl⟩
  rw [Text.wordsFrom, hj]
  cases j <;> rfl

/-- Where the cells about the source are those of a line of `n` bytes of which `k` were read, the source
is the line in the buffer, as far as the other one went. -/
theorem Buffers.sourced (h : d.Buffers line) (hcap : 16 ≤ d.capacity)
    (hsource : d.reservedAddr .source = Layout.inputBuffer)
    (hlength : (d.reservedAddr .sourceLength).toNat = n) (hn : n ≤ Layout.inputCapacity)
    (hcursor : (d.reservedAddr .cursor).toNat = k) :
    d.Sourced Layout.inputBuffer ((padded line).take n) k := by
  have hlen : ((padded line).take n).length = n := by
    rw [List.length_take, length_padded h.length_le, Nat.min_eq_left hn]
  change n ≤ 80 at hn
  refine ⟨hcap, hsource, hlength.trans hlen.symm, hcursor, ?_, by omega, fun i hi => ?_⟩
  · rw [hlen, ← h.bytes_eq]
    exact (Memory.take_bytesFrom _ _ hn).symm
  · have hnum : (Layout.inputBuffer + UInt16.ofNat i).toNat = 16 + i :=
      toNat_add_ofNat (by show 16 + i < 65536; omega)
    constructor
    · intro heq
      rw [heq] at hnum
      change 14 = _ at hnum
      omega
    · intro heq
      rw [heq] at hnum
      change 15 = _ at hnum
      omega

end Dictionary

end ThreadedForth
