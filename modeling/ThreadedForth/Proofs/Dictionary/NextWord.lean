import ThreadedForth.Machine.Step
import ThreadedForth.Proofs.Dictionary.Tokens
import ThreadedForth.Proofs.Program

/-!
# The word that is read next

Whether there is a word, and which, is found out twice: `hasInput` looks past the blanks, and `nextWord`
does so again and goes on to the end of the word. `IsNextWord` says what both of them look for, in the
bytes of the source as they are numbered there, whose addresses can wrap and lie past the end of the
memory. There is at most one such word (`IsNextWord.eq`), `hasInput` holds where there is one
(`hasInput_iff_exists`), and `nextWord` reads it (`IsNextWord.nextWord_fst_eq`). Where there is none, the
word that is read is empty (`hasInput_iff_not_isEmpty`).
-/

set_option autoImplicit false

namespace ThreadedForth

namespace Dictionary

variable {d : Dictionary} {i j k : Nat}

/-- A byte of the source, whether it was read or not. -/
def sourceByte (d : Dictionary) (k : Nat) : UInt8 :=
  d.readByte (d.reservedAddr .source + UInt16.ofNat k)

/-- The bytes of the source from `i` up to, and not including, `j` are the next word: there is one, only
blanks are unread before it, it has neither blanks nor zeros, and it ends at such a byte or with the
source. -/
structure IsNextWord (d : Dictionary) (i j : Nat) : Prop where
  cursor_le : (d.reservedAddr .cursor).toNat ≤ i
  lt : i < j
  le_length : j ≤ (d.reservedAddr .sourceLength).toNat
  before : ∀ k, (d.reservedAddr .cursor).toNat ≤ k → k < i → Text.isBlank (d.sourceByte k) = true
  inside : ∀ k, i ≤ k → k < j → isWordByte (d.sourceByte k) = true
  after : j < (d.reservedAddr .sourceLength).toNat → isWordByte (d.sourceByte j) = false

/-! ## The unread bytes by their numbers -/

theorem getElem?_unread (h : k < d.unreadLength) :
    d.unread[k]? = some (d.sourceByte ((d.reservedAddr .cursor).toNat + k)) := by
  have hplace : d.unreadStart + UInt16.ofNat k =
      d.reservedAddr .source + UInt16.ofNat ((d.reservedAddr .cursor).toNat + k) := by
    rw [unreadStart, UInt16.ofNat_add, UInt16.ofNat_toNat, UInt16.add_assoc]
  rw [unread, Memory.bytesFrom, List.getElem?_map, List.getElem?_range h, Option.map_some, hplace]
  rfl

/-- The unread bytes from the first one on that is not a blank. -/
theorem dropWhile_isBlank_unread (d : Dictionary) :
    d.unread.dropWhile Text.isBlank = d.unread.drop d.leadingBlanks := by
  rw [leadingBlanks_eq, drop_length_takeWhile]

theorem isBlank_of_lt_leadingBlanks (h : k < d.leadingBlanks) :
    Text.isBlank (d.sourceByte ((d.reservedAddr .cursor).toNat + k)) = true := by
  have hle := d.leadingBlanks_add_length_le
  rw [leadingBlanks_eq] at h
  exact Text.of_mem_of_lt_length_takeWhile Text.isBlank d.unread h _
    (getElem?_unread (by rw [← leadingBlanks_eq] at h; omega))

theorem not_isBlank_at_leadingBlanks (h : d.leadingBlanks < d.unreadLength) :
    Text.isBlank (d.sourceByte ((d.reservedAddr .cursor).toNat + d.leadingBlanks)) = false := by
  refine Text.of_mem_at_length_takeWhile Text.isBlank d.unread _ ?_
  rw [← leadingBlanks_eq]
  exact getElem?_unread h

theorem isWordByte_of_lt_length_nextText (h : k < d.nextText.length) :
    isWordByte (d.sourceByte ((d.reservedAddr .cursor).toNat + d.leadingBlanks + k)) = true := by
  have hle := d.leadingBlanks_add_length_le
  refine Text.of_mem_of_lt_length_takeWhile isWordByte _ h _ ?_
  rw [dropWhile_isBlank_unread, List.getElem?_drop, Nat.add_assoc]
  exact getElem?_unread (by omega)

theorem not_isWordByte_at_length_nextText (h : d.leadingBlanks + d.nextText.length < d.unreadLength) :
    isWordByte (d.sourceByte
      ((d.reservedAddr .cursor).toNat + d.leadingBlanks + d.nextText.length)) = false := by
  refine Text.of_mem_at_length_takeWhile isWordByte (d.unread.dropWhile Text.isBlank) _ ?_
  rw [dropWhile_isBlank_unread, List.getElem?_drop, Nat.add_assoc, ← dropWhile_isBlank_unread]
  exact getElem?_unread h

/-! ## The next word -/

theorem isBlank_eq_false_of_isWordByte {b : UInt8} (h : isWordByte b = true) : Text.isBlank b = false := by
  rw [isWordByte, Bool.and_eq_true, Bool.not_eq_true'] at h
  exact h.1

theorem ne_zero_of_isWordByte {b : UInt8} (h : isWordByte b = true) : b ≠ 0 := by
  rw [isWordByte, Bool.and_eq_true, bne_iff_ne] at h
  exact h.2

/-- A text that is not empty after the blanks is the next word. -/
theorem isNextWord_of_pos (h : 0 < d.nextText.length) :
    d.IsNextWord ((d.reservedAddr .cursor).toNat + d.leadingBlanks)
      ((d.reservedAddr .cursor).toNat + d.leadingBlanks + d.nextText.length) := by
  have hle := d.leadingBlanks_add_length_le
  have hlen : d.unreadLength = (d.reservedAddr .sourceLength).toNat -
    (d.reservedAddr .cursor).toNat := rfl
  refine ⟨Nat.le_add_right _ _, by omega, by omega, fun k hk hki => ?_, fun k hk hkj => ?_, fun hlt => ?_⟩
  · obtain ⟨n, rfl⟩ := Nat.exists_eq_add_of_le hk
    exact isBlank_of_lt_leadingBlanks (Nat.lt_of_add_lt_add_left hki)
  · obtain ⟨n, rfl⟩ := Nat.exists_eq_add_of_le hk
    exact isWordByte_of_lt_length_nextText (Nat.lt_of_add_lt_add_left hkj)
  · exact not_isWordByte_at_length_nextText (by omega)

/-- The next word begins after the blanks and is as long as its text. -/
theorem IsNextWord.eq (h : d.IsNextWord i j) :
    i = (d.reservedAddr .cursor).toNat + d.leadingBlanks ∧
      j = (d.reservedAddr .cursor).toNat + d.leadingBlanks + d.nextText.length := by
  have hle := d.leadingBlanks_add_length_le
  have hcursor := h.cursor_le
  have hlt := h.lt
  have hlength := h.le_length
  have hlen : d.unreadLength = (d.reservedAddr .sourceLength).toNat -
    (d.reservedAddr .cursor).toNat := rfl
  -- the run of blanks stops neither before the word nor inside it
  have hstart : i = (d.reservedAddr .cursor).toNat + d.leadingBlanks := by
    rcases Nat.lt_trichotomy i ((d.reservedAddr .cursor).toNat + d.leadingBlanks) with hi | hi | hi
    · have hblank := d.isBlank_of_lt_leadingBlanks
        (k := i - (d.reservedAddr .cursor).toNat) (by omega)
      have hword := isBlank_eq_false_of_isWordByte (h.inside i (Nat.le_refl i) hlt)
      rw [Nat.add_sub_cancel' hcursor, hword] at hblank
      cases hblank
    · exact hi
    · have hstop := not_isBlank_at_leadingBlanks (d := d) (by omega)
      rw [h.before _ (Nat.le_add_right _ _) hi] at hstop
      cases hstop
  subst hstart
  -- and the run of word bytes stops where the word does
  refine ⟨rfl, ?_⟩
  rcases Nat.lt_trichotomy j ((d.reservedAddr .cursor).toNat + d.leadingBlanks + d.nextText.length) with
    hj | hj | hj
  · have hword := d.isWordByte_of_lt_length_nextText
      (k := j - ((d.reservedAddr .cursor).toNat + d.leadingBlanks)) (by omega)
    rw [Nat.add_sub_cancel' (Nat.le_of_lt hlt), h.after (by omega)] at hword
    cases hword
  · exact hj
  · have hstop := not_isWordByte_at_length_nextText (d := d) (by omega)
    rw [h.inside _ (Nat.le_add_right _ _) hj] at hstop
    cases hstop

theorem IsNextWord.hasInput (h : d.IsNextWord i j) : d.hasInput = true := by
  have hlt := h.lt
  have hcursor := h.cursor_le
  have hlength := h.le_length
  have hlen : d.unreadLength = (d.reservedAddr .sourceLength).toNat -
    (d.reservedAddr .cursor).toNat := rfl
  have hword := h.inside i (Nat.le_refl i) hlt
  obtain ⟨rfl, -⟩ := h.eq
  -- the byte after the blanks is the first one of the word
  have hrest : (d.unread.dropWhile Text.isBlank)[0]? =
      some (d.sourceByte ((d.reservedAddr .cursor).toNat + d.leadingBlanks)) := by
    rw [dropWhile_isBlank_unread, List.getElem?_drop, Nat.add_zero]
    exact getElem?_unread (by omega)
  rw [hasInput_eq]
  cases hbytes : d.unread.dropWhile Text.isBlank with
  | nil =>
      rw [hbytes] at hrest
      cases hrest
  | cons b bs =>
      rw [hbytes] at hrest
      obtain rfl := Option.some.inj hrest
      exact bne_iff_ne.2 (ne_zero_of_isWordByte hword)

theorem hasInput_iff_exists (d : Dictionary) : d.hasInput = true ↔ ∃ i j, d.IsNextWord i j :=
  ⟨fun h => ⟨_, _, isNextWord_of_pos (length_nextText_pos h)⟩, fun ⟨_, _, h⟩ => h.hasInput⟩

theorem length_nextWord (d : Dictionary) : d.nextWord.1.length.toNat = d.nextText.length := by
  have hle := d.leadingBlanks_add_length_le
  have hlt := d.unreadLength_lt
  rw [nextWord_eq, Span.length_ofLength]
  exact UInt16.toNat_ofNat_of_lt' (by show _ < 65536; omega)

theorem isEmpty_eq_false_iff (s : Span) : s.isEmpty = false ↔ 0 < s.length.toNat := by
  have hzero : s.length = 0 ↔ s.length.toNat = 0 := UInt16.toNat_inj.symm
  rw [Span.isEmpty, beq_eq_false_iff_ne, Ne, hzero, Nat.pos_iff_ne_zero]

theorem hasInput_iff_not_isEmpty (d : Dictionary) : d.hasInput = true ↔ d.nextWord.1.isEmpty = false := by
  rw [isEmpty_eq_false_iff, length_nextWord]
  exact ⟨length_nextText_pos, fun h => (isNextWord_of_pos h).hasInput⟩

theorem IsNextWord.nextWord_fst_eq (h : d.IsNextWord i j) :
    d.nextWord.1 = place (d.reservedAddr .source) (i, j) := by
  obtain ⟨rfl, rfl⟩ := h.eq
  rw [nextWord_eq, unreadStart, ← ofLength_place, UInt16.ofNat_add, UInt16.ofNat_toNat, UInt16.add_assoc]

/-- The cursor is moved past the byte that ends the word, or past the end of the source. -/
theorem IsNextWord.nextWord_snd_eq (h : d.IsNextWord i j) :
    d.nextWord.2 = d.setReservedAddr .cursor (UInt16.ofNat (j + 1)) := by
  obtain ⟨-, rfl⟩ := h.eq
  rw [nextWord_eq, UInt16.ofNat_add, UInt16.ofNat_add, UInt16.ofNat_add, UInt16.ofNat_toNat]
  rfl

end Dictionary

namespace Machine

open Dictionary

variable {H : Type} {hooks : Hooks H} {call : Interpreter H} {n : Nat} {m m' : Machine H}

/-- The word that was awaited is the next one of a dictionary that had input, however many lines were
asked for before. -/
theorem exists_of_awaitWord_eq_ok {name : Span} (h : awaitWord hooks call n m = .ok name m') :
    ∃ d : Dictionary, d.hasInput = true ∧ name = d.nextWord.1 ∧ m'.dictionary = d.nextWord.2 := by
  induction n generalizing m with
  | zero => cases h
  | succ n ih =>
      rw [awaitWord] at h
      obtain ⟨hasInput, m1, hget, h1⟩ := exists_of_bind_eq_ok h
      cases hget
      split at h1
      · rename_i hinput
        cases h1
        exact ⟨m.dictionary, hinput, rfl, rfl⟩
      · obtain ⟨_, m2, -, h2⟩ := exists_of_bind_eq_ok h1
        exact ih h2

/-- There is input where the next word is not empty. It is then the one that is looked for, so a word
that was awaited always has a name. -/
theorem next_word_predicted (d : Dictionary) (hooks : Hooks H) (call : Interpreter H) (n : Nat)
    (m : Machine H) :
    (d.hasInput = true ↔ d.nextWord.1.isEmpty = false) ∧
    (d.hasInput = true ↔ ∃ i j, d.IsNextWord i j) ∧
    (∀ i j, d.IsNextWord i j →
      d.nextWord.1 = place (d.reservedAddr .source) (i, j) ∧ d.nextWord.1.length.toNat = j - i ∧
      ∀ b ∈ d.text d.nextWord.1, Text.isBlank b = false ∧ b ≠ 0) ∧
    (∀ name m', awaitWord hooks call n m = .ok name m' → name.isEmpty = false ∧
      ∃ d' : Dictionary, d'.hasInput = true ∧ name = d'.nextWord.1 ∧ m'.dictionary = d'.nextWord.2) := by
  refine ⟨d.hasInput_iff_not_isEmpty, d.hasInput_iff_exists, fun i j h => ?_, fun name m' h => ?_⟩
  · obtain ⟨hi, hj⟩ := h.eq
    have hlength : d.nextText.length = j - i := by omega
    refine ⟨h.nextWord_fst_eq, d.length_nextWord.trans hlength, fun b hb => ?_⟩
    rw [Dictionary.text_nextWord] at hb
    have hword := isWordByte_of_mem_nextText hb
    exact ⟨isBlank_eq_false_of_isWordByte hword, ne_zero_of_isWordByte hword⟩
  · obtain ⟨d', hinput, rfl, hd'⟩ := exists_of_awaitWord_eq_ok h
    exact ⟨d'.hasInput_iff_not_isEmpty.1 hinput, d', hinput, rfl, hd'⟩

/-- A text across the highest address, of which the word there is read next. -/
theorem next_word_predicted_wrapped :
    let d := ((⟨.sparse (.zeros 65536)⟩ : Dictionary).writeBytes 0xfffe [32, 97, 9, 98]).withSource 0xfffe 4
    d.hasInput = true ∧ d.nextWord.1 = ⟨0xffff, 0⟩ ∧
      ∃ (name : Span) (m' : Machine Unit),
        awaitWord {} (fun _ => throw .outOfFuel) 1 (ofDictionary d () {}) = .ok name m' ∧
          name.isEmpty = false := by
  intro d
  have hfacts : 0 < d.nextText.length ∧ (d.reservedAddr .cursor).toNat + d.leadingBlanks = 1 ∧
      d.nextText.length = 1 ∧ d.reservedAddr .source = 0xfffe ∧
      value? (awaitWord {} (fun _ => throw .outOfFuel) 1 (ofDictionary d () {})) =
        some ⟨0xffff, 0⟩ := by
    decide +kernel
  obtain ⟨hpos, hstart, hlength, hsource, hawait⟩ := hfacts
  have hword := isNextWord_of_pos hpos
  rw [hstart, hlength] at hword
  obtain ⟨-, hexists, hplace, hawaited⟩ := next_word_predicted d {} (fun _ => throw .outOfFuel) 1
    (ofDictionary d () {})
  refine ⟨hexists.2 ⟨1, 2, hword⟩, ?_, _, _, eq_ok_lastState hawait,
    (hawaited _ _ (eq_ok_lastState hawait)).1⟩
  rw [(hplace 1 2 hword).1, hsource]
  rfl

end Machine

end ThreadedForth
