import Mathlib.Logic.Relation
import ThreadedForth.Numeral
import ThreadedForth.Proofs.Dictionary.NextWord
import ThreadedForth.Proofs.Encoding

/-!
# Where a word stands that was missed

As long as a line is only read, and nothing else is written to the buffer and to the cells about the source
(`OnlyReads`), the cursor stands behind a byte that belongs to no word (`InLine`). So the word that is read
next is a whole one of the line and lies at its place (`InLine.next`), and if it is then found to be unknown
(`Misses`), its name leads back to the bytes that were read (`Misses.exists_occurs`). What stands before and
behind these bytes is ASCII, and that is where a text may be cut (`Text.Occurs.isCut`).
-/

set_option autoImplicit false

namespace ThreadedForth

/-! ## Words between bytes of no word -/

namespace Text

variable {text : List UInt8} {i j : Nat}

/-- The bytes from `i` up to, and not including, `j` are a word of the text as it is read: there is one, all
of them belong to words, and on both sides the text ends or a byte follows that does not. -/
structure Occurs (text : List UInt8) (i j : Nat) : Prop where
  lt : i < j
  le_length : j ≤ text.length
  inside : ∀ k, i ≤ k → k < j → ∀ b ∈ text[k]?, Dictionary.isWordByte b = true
  before : 0 < i → ∀ b ∈ text[i - 1]?, Dictionary.isWordByte b = false
  after : ∀ b ∈ text[j]?, Dictionary.isWordByte b = false

/-- Blanks and zeros are ASCII. -/
theorem lt_of_isWordByte_eq_false {b : UInt8} (h : Dictionary.isWordByte b = false) : b < 128 := by
  have hall : ∀ n : Fin 256, Dictionary.isWordByte (UInt8.ofNat n) = false → UInt8.ofNat n < 128 := by
    decide +kernel
  have hb := hall ⟨b.toNat, b.toNat_lt⟩
  rw [UInt8.ofNat_toNat] at hb
  exact hb h

/-- A text may be cut where a word begins and where it ends. -/
theorem Occurs.isCut (h : Occurs text i j) : IsCut text i ∧ IsCut text j := by
  have hlt := h.lt
  have hle := h.le_length
  constructor
  · rcases Nat.eq_zero_or_pos i with rfl | hpos
    · exact .inl rfl
    · have hb : text[i - 1]? = some text[i - 1] := List.getElem?_eq_getElem (by omega)
      exact .inr (.inr (.inl ⟨_, hb, lt_of_isWordByte_eq_false (h.before hpos _ hb)⟩))
  · rcases Nat.eq_or_lt_of_le hle with heq | hin
    · exact .inr (.inl heq)
    · have hb : text[j]? = some text[j] := List.getElem?_eq_getElem hin
      exact .inr (.inr (.inr ⟨_, hb, lt_of_isWordByte_eq_false (h.after _ hb)⟩))

/-- So an encoded text is what is before the word, the word, and what is behind it. -/
theorem Occurs.exists_append {s : String} (h : Occurs (encode s) i j) :
    ∃ before word after, before ++ word ++ after = s ∧ (encode before).length = i ∧
      (encode before).length + (encode word).length = j :=
  exists_append_append_of_isCut (Nat.le_of_lt h.lt) h.le_length h.isCut.1 h.isCut.2

end Text

namespace Dictionary

variable {d d' d'' : Dictionary} {start : Addr} {text : List UInt8} {name : Span} {i j k : Nat}

/-! ## Reading and nothing else -/

/-- A word is read, or something is done that has nothing to do with what is read: it changes neither the
input buffer nor the cells `source`, `sourceLength` and `cursor`. -/
inductive ReadsOnce (d : Dictionary) : Dictionary → Prop
  | word (hinput : d.hasInput = true) : ReadsOnce d d.nextWord.2
  | other {d' : Dictionary} (hcapacity : d'.capacity = d.capacity) (hagree : d.AgreeOn d' 10 96) :
      ReadsOnce d d'

/-- Between two dictionaries words were read, and nothing else was written where these stand. -/
def OnlyReads : Dictionary → Dictionary → Prop := Relation.ReflTransGen ReadsOnce

theorem OnlyReads.refl (d : Dictionary) : d.OnlyReads d := Relation.ReflTransGen.refl

theorem OnlyReads.trans (h : d.OnlyReads d') (h' : d'.OnlyReads d'') : d.OnlyReads d'' :=
  Relation.ReflTransGen.trans h h'

theorem onlyReads_nextWord (h : d.hasInput = true) : d.OnlyReads d.nextWord.2 :=
  .single (.word h)

theorem onlyReads_of_agreeOn (hcapacity : d'.capacity = d.capacity) (h : d.AgreeOn d' 10 96) :
    d.OnlyReads d' := .single (.other hcapacity h)

/-- A name was missed: it was read as the next word, and then it was neither a word nor a number. -/
def Misses (d : Dictionary) (name : Span) (d' : Dictionary) : Prop :=
  ∃ d₁ : Dictionary, d.OnlyReads d₁ ∧ d₁.hasInput = true ∧ d₁.nextWord = (name, d') ∧
    d'.meaning name = .unknown ∧ Numeral.read? d'.base (d'.text name) = none

theorem OnlyReads.misses (h : d.OnlyReads d') (h' : d'.Misses name d'') : d.Misses name d'' := by
  obtain ⟨d₁, hreads, hmissed⟩ := h'
  exact ⟨d₁, h.trans hreads, hmissed⟩

/-! ## The place in the line -/

theorem Sourced.sourceByte_eq (h : d.Sourced start text k) (hj : j < text.length) :
    text[j]? = some (d.sourceByte j) := by
  have hget := congrArg (·[j]?) h.bytes_eq
  simp only [Memory.bytesFrom, List.getElem?_map, List.getElem?_range hj, Option.map_some] at hget
  rw [sourceByte, h.source_eq, ← hget]
  rfl

/-- The line in the input buffer is the source, and `k` of its bytes were read. The last one of these does
not belong to a word. -/
structure InLine (d : Dictionary) (text : List UInt8) (k : Nat) : Prop where
  sourced : d.Sourced Layout.inputBuffer text k
  length_le : text.length ≤ Layout.inputCapacity
  apart : 0 < k → ∀ b ∈ text[k - 1]?, isWordByte b = false

/-- A line that was loaded where there is memory for it. -/
theorem inLine_of_loadInput (hcap : Layout.inputBuffer.toNat + text.length ≤ d.capacity)
    (h : loadInput text d = .ok () d') : d'.InLine text 0 := by
  have hsourced := sourced_of_loadInput (Nat.le_of_add_right_le hcap) h
  rw [held_of_le hcap] at hsourced
  exact ⟨hsourced, (of_loadInput_eq_ok h).1, fun hpos => absurd hpos (Nat.lt_irrefl 0)⟩

theorem InLine.of_agreeOn (h : d.InLine text k) (hcapacity : d'.capacity = d.capacity)
    (hagree : d.AgreeOn d' 10 96) : d'.InLine text k where
  sourced :=
    { le_capacity := hcapacity ▸ h.sourced.le_capacity
      source_eq := (hagree.reservedAddr (by decide) (by decide)).trans h.sourced.source_eq
      length_eq := by
        rw [hagree.reservedAddr (by decide) (by decide)]
        exact h.sourced.length_eq
      cursor_eq := by
        rw [hagree.reservedAddr (by decide) (by decide)]
        exact h.sourced.cursor_eq
      bytes_eq := by
        have hle := h.length_le
        change text.length ≤ 80 at hle
        have hbuffer : Layout.inputBuffer.toNat = 16 := rfl
        rw [hagree.bytesFrom (by decide) (by omega) (by omega)]
        exact h.sourced.bytes_eq
      length_le := h.sourced.length_le
      apart := h.sourced.apart }
  length_le := h.length_le
  apart := h.apart

/-- The next word is a word of the line, from its first byte to its last one, and it is read with the byte
behind it. -/
theorem InLine.next (h : d.InLine text k) (hinput : d.hasInput = true) :
    ∃ i j, Text.Occurs text i j ∧ d.IsNextWord i j ∧ d.nextWord.1 = place Layout.inputBuffer (i, j) ∧
      d.nextWord.2.InLine text (j + 1) := by
  obtain ⟨i, j, hnext⟩ := d.hasInput_iff_exists.1 hinput
  have hlength := h.sourced.length_eq
  have hlt := hnext.lt
  have hle := hnext.le_length
  have hbyte : ∀ x, x < j → text[x]? = some (d.sourceByte x) := fun x hx =>
    h.sourced.sourceByte_eq (by omega)
  have hinside : ∀ x, i ≤ x → x < j → ∀ b ∈ text[x]?, isWordByte b = true := by
    intro x hx hxj b hb
    rw [hbyte x hxj] at hb
    cases hb
    exact hnext.inside x hx hxj
  have hbefore : 0 < i → ∀ b ∈ text[i - 1]?, isWordByte b = false := by
    intro hpos b hb
    rcases Nat.eq_or_lt_of_le hnext.cursor_le with heq | hblanks
    · -- without blanks before it the word begins where the last one was read
      rw [h.sourced.cursor_eq] at heq
      exact h.apart (heq ▸ hpos) b (heq ▸ hb)
    · rw [hbyte (i - 1) (by omega)] at hb
      cases hb
      rw [isWordByte, hnext.before (i - 1) (by omega) (by omega)]
      rfl
  have hafter : ∀ b ∈ text[j]?, isWordByte b = false := by
    intro b hb
    obtain ⟨hj, -⟩ := List.getElem?_eq_some_iff.1 hb
    rw [h.sourced.sourceByte_eq hj] at hb
    cases hb
    exact hnext.after (by omega)
  have hcursor : (UInt16.ofNat (j + 1)).toNat = j + 1 := by
    have hmax := h.sourced.length_le
    exact UInt16.toNat_ofNat_of_lt' (by show _ < 65536; omega)
  refine ⟨i, j, ⟨hlt, by omega, hinside, hbefore, hafter⟩, hnext, ?_, ?_, h.length_le, fun _ => hafter⟩
  · rw [hnext.nextWord_fst_eq, h.sourced.source_eq]
  · have hset := h.sourced.setCursor (UInt16.ofNat (j + 1))
    rw [hcursor] at hset
    rw [hnext.nextWord_snd_eq]
    exact hset

/-- Reading leads from one place in the line to another one. -/
theorem InLine.of_onlyReads (h : d.InLine text k) (hreads : d.OnlyReads d') :
    ∃ k', d'.InLine text k' := by
  induction hreads with
  | refl => exact ⟨k, h⟩
  | tail _ hstep ih =>
      obtain ⟨k₁, h₁⟩ := ih
      cases hstep with
      | word hinput =>
          obtain ⟨-, j, -, -, -, hnext⟩ := h₁.next hinput
          exact ⟨j + 1, hnext⟩
      | other hcapacity hagree => exact ⟨k₁, h₁.of_agreeOn hcapacity hagree⟩

/-- A name that was missed is the place in the line of the word that was read last. -/
theorem Misses.exists_occurs (h : d.InLine text k) (hmisses : d.Misses name d') :
    ∃ i j, Text.Occurs text i j ∧ name = place Layout.inputBuffer (i, j) ∧ d'.InLine text (j + 1) ∧
      (∃ d₁ : Dictionary, d₁.IsNextWord i j ∧ d₁.nextWord = (name, d')) ∧
      d'.text name = (text.drop i).take (j - i) := by
  obtain ⟨d₁, hreads, hinput, hword, -, -⟩ := hmisses
  obtain ⟨k₁, h₁⟩ := h.of_onlyReads hreads
  obtain ⟨i, j, hoccurs, hnext, hplace, hrest⟩ := h₁.next hinput
  rw [hword] at hplace hrest
  refine ⟨i, j, hoccurs, hplace, hrest, ⟨d₁, hnext, hword⟩, ?_⟩
  rw [show name = place Layout.inputBuffer (i, j) from hplace]
  exact hrest.sourced.text_place (Nat.le_of_lt hoccurs.lt) hoccurs.le_length

end Dictionary

end ThreadedForth
