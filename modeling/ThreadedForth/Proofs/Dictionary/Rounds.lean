import Mathlib.Logic.Relation
import ThreadedForth.Proofs.Dictionary.NextWord
import ThreadedForth.Proofs.Dictionary.Requests

/-!
# Reading in rounds

A source is read in rounds: as long as there is input, the next word is taken, and the cursor is moved
past the byte that ends it. So each word begins after the one before it, and reading ends
(`Advances.pairwise`, `Advances.reads`). The cursor is one cell wide. It can be moved to every place in
the source and past its end, but not past the end of the longest source there is: after a word that ends
there (`Wraps`) the cursor is zero again (`IsNextWord.toNat_cursor`), and the source is read once more
from its beginning.

So the cursor goes forward in all rounds if none of them wraps (`exists_advances_iff`). Reading ends even
so if only one of them does, since words can be missing the second time where the cursor itself is part of
the source. After two such rounds it does not (`exists_reads_iff`). There are memories in which it comes to
that (`Filled.wraps_twice`).
-/

set_option autoImplicit false

namespace ThreadedForth.Dictionary

variable {d d' e : Dictionary} {i j : Nat}

/-- One word is read where there is input. -/
def Round (d d' : Dictionary) : Prop := d.hasInput = true ∧ d' = d.nextWord.2

/-- Any number of words are read. -/
def Rounds : Dictionary → Dictionary → Prop := Relation.ReflTransGen Round

/-- The next word ends where the longest source does. -/
def Wraps (d : Dictionary) : Prop := ∃ i, d.IsNextWord i 65535

/-- Words are read until there is no input, and the cursor goes forward each time. -/
inductive Advances : Dictionary → List (Nat × Nat) → Dictionary → Prop
  | done {d : Dictionary} (ended : d.hasInput = false) : Advances d [] d
  | next {d d' : Dictionary} {i j : Nat} {words : List (Nat × Nat)} (word : d.IsNextWord i j)
      (forward : d.reservedAddr .cursor < d.nextWord.2.reservedAddr .cursor)
      (rest : Advances d.nextWord.2 words d') : Advances d ((i, j) :: words) d'

/-! ## One round -/

@[simp] theorem capacity_nextWord (d : Dictionary) : d.nextWord.2.capacity = d.capacity :=
  capacity_setReservedAddr ..

/-- A word that is read leaves all reserved cells but the cursor alone. -/
theorem reservedAddr_nextWord {c : SystemCell} (hc : c ≠ .cursor) :
    d.nextWord.2.reservedAddr c = d.reservedAddr c :=
  congrArg Int16.toUInt16 (d.reserved_setReserved_of_ne _ hc)

/-- The cursor is moved past the byte after the word, unless no cell can hold that place. -/
theorem IsNextWord.toNat_cursor (hcap : 16 ≤ d.capacity) (h : d.IsNextWord i j) :
    (d.nextWord.2.reservedAddr .cursor).toNat = (j + 1) % 65536 := by
  rw [h.nextWord_snd_eq, reservedAddr, setReservedAddr, reserved_setReserved _ _ _ hcap,
    UInt16.toUInt16_toInt16]
  exact UInt16.toNat_ofNat'

theorem IsNextWord.lt_cursor_iff (hcap : 16 ≤ d.capacity) (h : d.IsNextWord i j) :
    d.reservedAddr .cursor < d.nextWord.2.reservedAddr .cursor ↔ j ≠ 65535 := by
  have hcursor := h.cursor_le
  have hlt := h.lt
  have hlength := h.le_length
  have htop := (d.reservedAddr .sourceLength).toNat_lt
  rw [UInt16.lt_iff_toNat_lt, h.toNat_cursor hcap]
  omega

/-! ## Rounds that go forward -/

theorem Advances.reads {words : List (Nat × Nat)} (h : d.Advances words d') :
    d.Reads (words.map (place (d.reservedAddr .source))) d' := by
  induction h with
  | done ended => exact .done ended
  | next word _ _ ih =>
      rw [List.map_cons, ← word.nextWord_fst_eq, ← reservedAddr_nextWord (by decide)]
      exact .next word.hasInput ih

/-- All words are read from unread bytes. -/
theorem Advances.cursor_le {words : List (Nat × Nat)} (h : d.Advances words d') :
    ∀ w ∈ words, (d.reservedAddr .cursor).toNat ≤ w.1 := by
  induction h with
  | done ended => exact fun w hw => absurd hw List.not_mem_nil
  | next word forward rest ih =>
      intro w hw
      rcases List.mem_cons.1 hw with rfl | hw
      · exact word.cursor_le
      · exact Nat.le_trans (Nat.le_of_lt (UInt16.lt_iff_toNat_lt.1 forward)) (ih w hw)

/-- Each word ends before the one after it begins. -/
theorem Advances.pairwise {words : List (Nat × Nat)} (hcap : 16 ≤ d.capacity) (h : d.Advances words d') :
    words.Pairwise fun v w => v.2 < w.1 := by
  induction h with
  | done ended => exact .nil
  | @next d d' i j words word forward rest ih =>
      have hlength := word.le_length
      have htop := (d.reservedAddr .sourceLength).toNat_lt
      have hne := (word.lt_cursor_iff hcap).1 forward
      have hcursor : (d.nextWord.2.reservedAddr .cursor).toNat = j + 1 := by
        rw [word.toNat_cursor hcap]
        exact Nat.mod_eq_of_lt (by omega)
      refine List.pairwise_cons.2 ⟨fun w hw => ?_, ih (by rw [capacity_nextWord]; exact hcap)⟩
      have hafter := rest.cursor_le w hw
      rw [hcursor] at hafter
      exact hafter

/-- The cursor goes forward in every round if no word ends where the longest source does. The induction
is on how far it can still go. -/
theorem exists_advances_of_not_wraps (hcap : 16 ≤ d.capacity) (h : ∀ d₁, d.Rounds d₁ → ¬ d₁.Wraps) :
    ∃ words d', d.Advances words d' := by
  induction hleft : 65536 - (d.reservedAddr .cursor).toNat using Nat.strongRecOn generalizing d with
  | ind left ih =>
  by_cases hinput : d.hasInput = true
  · obtain ⟨i, j, hword⟩ := d.hasInput_iff_exists.1 hinput
    have hne : j ≠ 65535 := fun heq => h d .refl ⟨i, heq ▸ hword⟩
    have hforward := (hword.lt_cursor_iff hcap).2 hne
    have hlt := UInt16.lt_iff_toNat_lt.1 hforward
    have htop := (d.nextWord.2.reservedAddr .cursor).toNat_lt
    obtain ⟨words, d', hrest⟩ := ih _ (by omega) (by rw [capacity_nextWord]; exact hcap)
      (fun d₁ hd₁ => h d₁ (.head ⟨hinput, rfl⟩ hd₁)) rfl
    exact ⟨(i, j) :: words, d', .next hword hforward hrest⟩
  · exact ⟨[], d, .done (Bool.eq_false_iff.2 hinput)⟩

theorem Advances.not_wraps {words : List (Nat × Nat)} (hcap : 16 ≤ d.capacity) (h : d.Advances words d') :
    ∀ d₁, d.Rounds d₁ → ¬ d₁.Wraps := by
  induction h with
  | done ended =>
      intro d₁ hd₁
      rcases Relation.ReflTransGen.cases_head hd₁ with rfl | ⟨d₂, hround, -⟩
      · rintro ⟨i, hword⟩
        rw [hword.hasInput] at ended
        cases ended
      · rw [hround.1] at ended
        cases ended
  | next word forward rest ih =>
      intro d₁ hd₁
      rcases Relation.ReflTransGen.cases_head hd₁ with rfl | ⟨d₂, hround, htail⟩
      · rintro ⟨i, hwraps⟩
        exact (hwraps.lt_cursor_iff hcap).1 forward rfl
      · obtain rfl := hround.2
        exact ih (by rw [capacity_nextWord]; exact hcap) d₁ htail

theorem exists_advances_iff (hcap : 16 ≤ d.capacity) :
    (∃ words d', d.Advances words d') ↔ ∀ d₁, d.Rounds d₁ → ¬ d₁.Wraps :=
  ⟨fun ⟨_, _, h⟩ => h.not_wraps hcap, exists_advances_of_not_wraps hcap⟩

theorem Rounds.reservedAddr_eq (h : d.Rounds d') {c : SystemCell} (hc : c ≠ .cursor) :
    d'.reservedAddr c = d.reservedAddr c := by
  induction h with
  | refl => rfl
  | tail _ hround ih =>
      obtain ⟨-, rfl⟩ := hround
      rw [reservedAddr_nextWord hc, ih]

theorem Rounds.capacity_eq (h : d.Rounds d') : d'.capacity = d.capacity := by
  induction h with
  | refl => rfl
  | tail _ hround ih =>
      obtain ⟨-, rfl⟩ := hround
      rw [capacity_nextWord, ih]

/-- Only the longest source has a last place that the cursor cannot be moved past. -/
theorem not_wraps_of_sourceLength_ne (h : d.reservedAddr .sourceLength ≠ 0xffff) :
    ∀ d₁, d.Rounds d₁ → ¬ d₁.Wraps := by
  rintro d₁ hd₁ ⟨i, hword⟩
  have hlength := hword.le_length
  have htop := (d₁.reservedAddr .sourceLength).toNat_lt
  rw [hd₁.reservedAddr_eq (by decide)] at hlength htop
  have hsame : (d.reservedAddr .sourceLength).toNat = 65535 := by omega
  exact h (UInt16.toNat_inj.1 hsame)

/-! ## Rounds that go back

Two dictionaries that hold the same bytes are read alike. What is read changes nothing but the cursor, so
after two rounds that wrap the memory holds the same. -/

/-- The memories of both have the same capacity and hold the same bytes. -/
def SameBytes (d e : Dictionary) : Prop := Alike Memory.storage Memory.storage d.memory e.memory

/-- What the memory is asked for has the same result in both. -/
theorem Served.congr {α : Type} {x : Dictionary → α × Dictionary} (hx : Served x) (h : d.SameBytes e) :
    (x d).1 = (x e).1 ∧ (x d).2.SameBytes (x e).2 := by
  obtain ⟨p, hp⟩ := hx
  have hrun := h.run Memory.bytewise_storage Memory.bytewise_storage p
  rw [hp d.memory, hp e.memory] at hrun
  exact hrun

theorem SameBytes.refl (d : Dictionary) : d.SameBytes d := ⟨rfl, fun _ _ => rfl⟩

theorem SameBytes.trans {f : Dictionary} (h : d.SameBytes e) (h' : e.SameBytes f) : d.SameBytes f := by
  refine ⟨h.capacity_eq.trans h'.capacity_eq, fun a ha => ?_⟩
  exact (h.readByte_eq a ha).trans (h'.readByte_eq a (by rw [← h.capacity_eq]; exact ha))

/-- The second one of two writes to the same cell is the one that counts. -/
theorem sameBytes_setReservedAddr (d : Dictionary) (c : SystemCell) (v w : Addr) :
    ((d.setReservedAddr c v).setReservedAddr c w).SameBytes (d.setReservedAddr c w) := by
  refine ⟨?_, fun a _ => ?_⟩
  · show ((d.setReservedAddr c v).setReservedAddr c w).capacity = (d.setReservedAddr c w).capacity
    rw [capacity_setReservedAddr, capacity_setReservedAddr, capacity_setReservedAddr]
  · show (((d.memory.writeCell c.addr v.toInt16).writeCell c.addr w.toInt16).readByte a =
      (d.memory.writeCell c.addr w.toInt16).readByte a)
    rw [Memory.readByte_writeCell, Memory.readByte_writeCell, Memory.readByte_writeCell,
      Memory.capacity_writeCell]
    by_cases hhigh : a = c.addr + 1 ∧ (c.addr + 1).toNat < d.memory.capacity
    · rw [if_pos hhigh, if_pos hhigh]
    · by_cases hlow : a = c.addr ∧ c.addr.toNat < d.memory.capacity
      · rw [if_neg hhigh, if_pos hlow, if_neg hhigh, if_pos hlow]
      · rw [if_neg hhigh, if_neg hlow, if_neg hhigh, if_neg hlow, if_neg hhigh, if_neg hlow]

theorem Rounds.sameBytes (h : d.Rounds d') (v : Addr) :
    (d'.setReservedAddr .cursor v).SameBytes (d.setReservedAddr .cursor v) := by
  induction h with
  | refl => exact .refl _
  | tail _ hround ih =>
      obtain ⟨-, rfl⟩ := hround
      refine .trans ?_ ih
      rw [nextWord_eq]
      exact sameBytes_setReservedAddr ..

theorem SameBytes.hasInput_eq (h : d.SameBytes e) : d.hasInput = e.hasInput :=
  (Served.congr Looks.hasInput h).1

theorem Reads.of_sameBytes {words : List Span} (h : d.Reads words d') (he : d.SameBytes e) :
    ∃ e', e.Reads words e' := by
  induction h generalizing e with
  | done ended => exact ⟨e, .done (he.hasInput_eq ▸ ended)⟩
  | next more rest ih =>
      obtain ⟨hword, hnext⟩ := Served.congr .nextWord he
      obtain ⟨e', hrest⟩ := ih hnext
      exact ⟨e', hword ▸ .next (he.hasInput_eq ▸ more) hrest⟩

/-- After some of the rounds no more words are left than before. -/
theorem Reads.of_rounds {words : List Span} (h : d.Reads words d') (he : d.Rounds e) :
    ∃ words', e.Reads words' d' ∧ words'.length ≤ words.length := by
  induction he with
  | refl => exact ⟨words, h, Nat.le_refl _⟩
  | tail _ hround ih =>
      obtain ⟨words', hreads, hle⟩ := ih
      obtain ⟨hinput, rfl⟩ := hround
      cases hreads with
      | done ended =>
          rw [ended] at hinput
          cases hinput
      | next _ rest => exact ⟨_, rest, Nat.le_of_succ_le hle⟩

/-- After two rounds that wrap it goes on for ever: what is read between them is read again. -/
theorem not_reads_of_wraps_twice {d₁ d₂ : Dictionary} {words : List Span} (h₁ : d.Rounds d₁)
    (hwraps₁ : d₁.Wraps) (h₂ : d₁.nextWord.2.Rounds d₂) (hwraps₂ : d₂.Wraps) : ¬ d.Reads words d' := by
  intro hreads
  obtain ⟨i₁, hword₁⟩ := hwraps₁
  obtain ⟨i₂, hword₂⟩ := hwraps₂
  have hround₁ : d₁.Round d₁.nextWord.2 := ⟨hword₁.hasInput, rfl⟩
  have hround₂ : d₂.Round d₂.nextWord.2 := ⟨hword₂.hasInput, rfl⟩
  have hsame : d₂.nextWord.2.SameBytes d₁.nextWord.2 := by
    rw [hword₁.nextWord_snd_eq, hword₂.nextWord_snd_eq]
    exact Rounds.sameBytes (.head hround₁ h₂) _
  -- the words after the first one are those after the second one, which are fewer
  obtain ⟨words₁, hreads₁, -⟩ := hreads.of_rounds (h₁.tail hround₁)
  obtain ⟨words₂, hreads₂, hle⟩ := hreads₁.of_rounds h₂
  cases hreads₂ with
  | done ended =>
      rw [hround₂.1] at ended
      cases ended
  | next _ rest =>
      obtain ⟨d₃, hagain⟩ := rest.of_sameBytes hsame
      rw [(hreads₁.unique hagain).1, List.length_cons] at hle
      omega

/-- If no two rounds wrap, reading ends: before the one that does the cursor goes forward, and so it does
after it. -/
theorem exists_reads_of_not_wraps_twice (hcap : 16 ≤ d.capacity)
    (h : ∀ d₁ d₂, d.Rounds d₁ → d₁.Wraps → d₁.nextWord.2.Rounds d₂ → ¬ d₂.Wraps) :
    ∃ words d', d.Reads words d' := by
  induction hleft : 65536 - (d.reservedAddr .cursor).toNat using Nat.strongRecOn generalizing d with
  | ind left ih =>
  have hcap' : 16 ≤ d.nextWord.2.capacity := by
    rw [capacity_nextWord]
    exact hcap
  by_cases hinput : d.hasInput = true
  · obtain ⟨i, j, hword⟩ := d.hasInput_iff_exists.1 hinput
    have hrest : ∃ words d', d.nextWord.2.Reads words d' := by
      by_cases hj : j = 65535
      · subst hj
        obtain ⟨words, d', hadvances⟩ := exists_advances_of_not_wraps hcap'
          fun d₂ hd₂ => h d d₂ .refl ⟨i, hword⟩ hd₂
        exact ⟨_, d', hadvances.reads⟩
      · have hlt := UInt16.lt_iff_toNat_lt.1 ((hword.lt_cursor_iff hcap).2 hj)
        have htop := (d.nextWord.2.reservedAddr .cursor).toNat_lt
        exact ih _ (by omega) hcap' (fun d₁ d₂ hd₁ => h d₁ d₂ (.head ⟨hinput, rfl⟩ hd₁)) rfl
    obtain ⟨words, d', hreads⟩ := hrest
    exact ⟨_, d', .next hinput hreads⟩
  · exact ⟨[], d, .done (Bool.eq_false_iff.2 hinput)⟩

theorem exists_reads_iff (hcap : 16 ≤ d.capacity) :
    (∃ words d', d.Reads words d') ↔
      ¬ ∃ d₁ d₂, d.Rounds d₁ ∧ d₁.Wraps ∧ d₁.nextWord.2.Rounds d₂ ∧ d₂.Wraps := by
  constructor
  · rintro ⟨words, d', hreads⟩ ⟨d₁, d₂, h₁, hwraps₁, h₂, hwraps₂⟩
    exact not_reads_of_wraps_twice h₁ hwraps₁ h₂ hwraps₂ hreads
  · intro hnone
    exact exists_reads_of_not_wraps_twice hcap fun d₁ d₂ h₁ hwraps₁ h₂ hwraps₂ =>
      hnone ⟨d₁, d₂, h₁, hwraps₁, h₂, hwraps₂⟩

/-! ## A memory that is read for ever

The source is the whole memory, and every byte of it belongs to a word. Only the cursor, which is part of
the source, ends one when it is zero. -/

/-- The longest source from 0x6161 on, with the cursor at `v`, in a memory whose other bytes are all part
of a word. -/
structure Filled (d : Dictionary) (v : Addr) : Prop where
  capacity_eq : d.capacity = 65536
  source_eq : d.reservedAddr .source = 0x6161
  length_eq : d.reservedAddr .sourceLength = 0xffff
  cursor_eq : d.reservedAddr .cursor = v
  inside : ∀ a : Addr, a ≠ 14 → a ≠ 15 → isWordByte (d.readByte a) = true

namespace Filled

variable {v : Addr}

theorem le_capacity (h : d.Filled v) : 16 ≤ d.capacity := by
  rw [h.capacity_eq]
  decide

theorem setCursor (h : d.Filled v) (w : Addr) : (d.setReservedAddr .cursor w).Filled w where
  capacity_eq := (capacity_setReservedAddr ..).trans h.capacity_eq
  source_eq := (congrArg Int16.toUInt16 (d.reserved_setReserved_of_ne _ (by decide))).trans h.source_eq
  length_eq := (congrArg Int16.toUInt16 (d.reserved_setReserved_of_ne _ (by decide))).trans h.length_eq
  cursor_eq := by
    rw [reservedAddr, setReservedAddr, reserved_setReserved _ _ _ h.le_capacity,
      UInt16.toUInt16_toInt16]
  inside a hlow hhigh := by
    have hsame : (d.setReservedAddr .cursor w).readByte a = d.readByte a :=
      d.readByte_writeCell_of_ne _ hlow hhigh
    rw [hsame]
    exact h.inside a hlow hhigh

/-- The bytes at 14 and 15 are those of the cursor. -/
theorem readByte_cursor (h : d.Filled v) :
    d.readByte 14 = Cell.lowByte v.toInt16 ∧ d.readByte 15 = Cell.highByte v.toInt16 := by
  have hcell : Cell.ofBytes (d.readByte 14) (d.readByte 15) = v.toInt16 := by
    rw [← h.cursor_eq, reservedAddr, Int16.toInt16_toUInt16]
    exact (Memory.readCell_eq d.memory SystemCell.cursor.addr).symm
  rw [← hcell]
  exact ⟨(Cell.lowByte_ofBytes ..).symm, (Cell.highByte_ofBytes ..).symm⟩

/-- The address of a byte of the source. -/
theorem toNat_place (h : d.Filled v) {k : Nat} (hk : k < 65536) :
    (d.reservedAddr .source + UInt16.ofNat k).toNat = (24929 + k) % 65536 := by
  rw [h.source_eq, UInt16.toNat_add, UInt16.toNat_ofNat_of_lt' hk]
  rfl

theorem isWordByte_sourceByte (h : d.Filled v) {k : Nat} (hk : k < 65536) (hlow : k ≠ 40621)
    (hhigh : k ≠ 40622) : isWordByte (d.sourceByte k) = true := by
  have hplace := h.toNat_place hk
  refine h.inside _ (fun heq => ?_) (fun heq => ?_)
  · rw [heq] at hplace
    change 14 = _ at hplace
    omega
  · rw [heq] at hplace
    change 15 = _ at hplace
    omega

theorem sourceByte_cursor (h : d.Filled v) : d.sourceByte 40621 = Cell.lowByte v.toInt16 ∧
    d.sourceByte 40622 = Cell.highByte v.toInt16 := by
  unfold sourceByte
  rw [h.source_eq]
  exact h.readByte_cursor

/-- From the beginning the word goes as far as the cursor, which is zero. -/
theorem isNextWord_zero (h : d.Filled 0) : d.IsNextWord 0 40621 where
  cursor_le := by
    rw [h.cursor_eq]
    exact Nat.le_refl 0
  lt := by decide
  le_length := by
    rw [h.length_eq]
    decide
  before k _ hk := absurd hk (Nat.not_lt_zero k)
  inside k _ hk := h.isWordByte_sourceByte (by omega) (by omega) (by omega)
  after _ := by
    rw [h.sourceByte_cursor.1]
    decide

/-- The cursor is not zero then, and the next word goes from its second byte as far as the source. -/
theorem isNextWord_afterCursor (h : d.Filled 40622) : d.IsNextWord 40622 65535 where
  cursor_le := by
    rw [h.cursor_eq]
    exact Nat.le_refl 40622
  lt := by decide
  le_length := by
    rw [h.length_eq]
    decide
  before k hle hlt := by
    rw [h.cursor_eq] at hle
    exact absurd hlt (Nat.not_lt.2 hle)
  inside k hle hlt := by
    rcases Nat.eq_or_lt_of_le hle with rfl | hgt
    · rw [h.sourceByte_cursor.2]
      decide
    · exact h.isWordByte_sourceByte (by omega) (by omega) (by omega)
  after hlt := by
    rw [h.length_eq] at hlt
    exact absurd hlt (by decide)

/-- From the beginning two words are read, and the second one wraps. -/
theorem pass (h : d.Filled 0) : d.Round d.nextWord.2 ∧ d.nextWord.2.Wraps ∧
    d.nextWord.2.Round d.nextWord.2.nextWord.2 ∧ d.nextWord.2.nextWord.2.Filled 0 := by
  have hfirst := h.isNextWord_zero
  have hmiddle : d.nextWord.2.Filled 40622 := by
    rw [hfirst.nextWord_snd_eq]
    exact h.setCursor _
  have hsecond := hmiddle.isNextWord_afterCursor
  refine ⟨⟨hfirst.hasInput, rfl⟩, ⟨_, hsecond⟩, ⟨hsecond.hasInput, rfl⟩, ?_⟩
  rw [hsecond.nextWord_snd_eq]
  exact hmiddle.setCursor _

/-- The same words are read once more, so two rounds wrap. -/
theorem wraps_twice (h : d.Filled 0) :
    ∃ d₁ d₂, d.Rounds d₁ ∧ d₁.Wraps ∧ d₁.nextWord.2.Rounds d₂ ∧ d₂.Wraps := by
  obtain ⟨hround, hwraps, -, hback⟩ := h.pass
  obtain ⟨hround', hwraps', -, -⟩ := hback.pass
  exact ⟨_, _, .single hround, hwraps, .single hround', hwraps'⟩

end Filled

/-- In a memory of letters the length and the cursor are left to be set. -/
theorem filled_of_letters (hcap : d.capacity = 65536) (hletters : ∀ a, d.readByte a = 97) :
    ((d.setReservedAddr .sourceLength 0xffff).setReservedAddr .cursor 0).Filled 0 := by
  have hsource : d.reservedAddr .source = 0x6161 := by
    have hcell : d.reserved .source = Cell.ofBytes (d.readByte 10) (d.readByte 11) :=
      Memory.readCell_eq ..
    rw [reservedAddr, hcell, hletters, hletters]
    rfl
  refine Filled.setCursor (v := (d.setReservedAddr .sourceLength 0xffff).reservedAddr .cursor)
    ⟨?_, ?_, ?_, rfl, ?_⟩ 0
  · rw [capacity_setReservedAddr, hcap]
  · exact (congrArg Int16.toUInt16 (d.reserved_setReserved_of_ne _ (by decide))).trans hsource
  · rw [reservedAddr, setReservedAddr, reserved_setReserved _ _ _ (by rw [hcap]; decide),
      UInt16.toUInt16_toInt16]
  · intro a _ _
    have hbyte : (d.setReservedAddr .sourceLength 0xffff).readByte a =
        if a = 13 ∧ 13 < d.memory.capacity then 255
        else if a = 12 ∧ 12 < d.memory.capacity then 255 else d.readByte a :=
      Memory.readByte_writeCell ..
    rw [hbyte, hletters]
    split
    · decide
    · split <;> decide

/-- A memory of letters. -/
def letters : FlatMemory := ⟨Array.replicate 65536 97, Nat.le_of_eq Array.size_replicate⟩

theorem readByte_letters (a : Addr) : letters.readByte a = 97 := by
  simp only [letters, FlatMemory.readByte, Array.getD_eq_getD_getElem?, Array.getElem?_replicate]
  rw [if_pos a.toNat_lt]
  rfl

theorem exists_filled : ∃ d : Dictionary, d.Filled 0 := by
  have hcap : letters.capacity = 65536 := Array.size_replicate
  exact ⟨_, filled_of_letters (d := ⟨.flat letters⟩) hcap readByte_letters⟩

/-! ## All rounds -/

/-- Each round moves the cursor past its word, which is forward unless the word ends where the longest
source does. If the cursor only goes forward, the words are read from one part of the source after the
other. It does so if no round wraps, as in all but the longest sources. Reading ends if no two rounds
wrap, and only then. -/
theorem reading_in_rounds (hcap : 16 ≤ d.capacity) :
    (∀ d₁ i j, d.Rounds d₁ → d₁.IsNextWord i j →
      (d₁.nextWord.2.reservedAddr .cursor).toNat = (j + 1) % 65536 ∧
      (d₁.reservedAddr .cursor < d₁.nextWord.2.reservedAddr .cursor ↔ j ≠ 65535)) ∧
    (∀ words d', d.Advances words d' →
      d.Reads (words.map (place (d.reservedAddr .source))) d' ∧
      words.Pairwise fun v w => v.2 < w.1) ∧
    ((∃ words d', d.Advances words d') ↔ ∀ d₁, d.Rounds d₁ → ¬ d₁.Wraps) ∧
    (d.reservedAddr .sourceLength ≠ 0xffff → ∃ words d', d.Advances words d') ∧
    ((∃ words d', d.Reads words d') ↔
      ¬ ∃ d₁ d₂, d.Rounds d₁ ∧ d₁.Wraps ∧ d₁.nextWord.2.Rounds d₂ ∧ d₂.Wraps) := by
  refine ⟨fun d₁ i j hd₁ hword => ?_, fun words d' h => ⟨h.reads, h.pairwise hcap⟩,
    exists_advances_iff hcap, fun h => ?_, exists_reads_iff hcap⟩
  · have hcap₁ : 16 ≤ d₁.capacity := by
      rw [hd₁.capacity_eq]
      exact hcap
    exact ⟨hword.toNat_cursor hcap₁, hword.lt_cursor_iff hcap₁⟩
  · exact exists_advances_of_not_wraps hcap (not_wraps_of_sourceLength_ne h)

/-- The longest source there is, with its last byte unread, which is a word. -/
def lastByteUnread : Dictionary :=
  (((⟨.sparse (.zeros 65536)⟩ : Dictionary).writeByte 254 97).withSource 256 0xffff).setReservedAddr
    .cursor 0xfffe

/-- After the last byte the cursor is zero, and reading ends with the second round. Where the source is
one byte shorter, the cursor goes forward. And a memory of letters is read for ever. -/
theorem reading_in_rounds_lastByteUnread :
    lastByteUnread.IsNextWord 65534 65535 ∧
    (lastByteUnread.nextWord.2.reservedAddr .cursor).toNat = 0 ∧
    (¬ ∃ words d', lastByteUnread.Advances words d') ∧
    (¬ ∃ d₁ d₂, lastByteUnread.Rounds d₁ ∧ d₁.Wraps ∧ d₁.nextWord.2.Rounds d₂ ∧ d₂.Wraps) ∧
    (∃ words d', (lastByteUnread.setReservedAddr .sourceLength 0xfffe).Advances words d') ∧
    ∃ d : Dictionary, d.Filled 0 ∧ ¬ ∃ words d', d.Reads words d' := by
  have hfacts : 0 < lastByteUnread.nextText.length ∧
      (lastByteUnread.reservedAddr .cursor).toNat + lastByteUnread.leadingBlanks = 65534 ∧
      lastByteUnread.nextText.length = 1 ∧ 16 ≤ lastByteUnread.capacity ∧
      lastByteUnread.hasInput = true ∧ lastByteUnread.nextWord.2.hasInput = false ∧
      16 ≤ (lastByteUnread.setReservedAddr .sourceLength 0xfffe).capacity ∧
      (lastByteUnread.setReservedAddr .sourceLength 0xfffe).reservedAddr .sourceLength ≠ 0xffff := by
    decide +kernel
  obtain ⟨hpos, hstart, hlength, hcap, hinput, hended, hcap', hne⟩ := hfacts
  have hword := isNextWord_of_pos hpos
  rw [hstart, hlength] at hword
  obtain ⟨hround, -, hadvances, -, hreads⟩ := reading_in_rounds hcap
  obtain ⟨d, hfilled⟩ := exists_filled
  refine ⟨hword, (hround _ _ _ .refl hword).1, fun h => ?_, hreads.1 ⟨_, _, .next hinput (.done hended)⟩,
    (reading_in_rounds hcap').2.2.2.1 hne, d, hfilled, fun hd => ?_⟩
  · exact hadvances.1 h _ .refl ⟨_, hword⟩
  · exact (reading_in_rounds hfilled.le_capacity).2.2.2.2.1 hd hfilled.wraps_twice

end ThreadedForth.Dictionary
