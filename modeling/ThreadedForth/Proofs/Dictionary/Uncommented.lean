import ThreadedForth.Proofs.Dictionary.Reading

/-!
# Texts without their comments

A comment begins with one of two words. After `(` it goes as far as the first `)`, or as far as the text
if there is none, and after `\` as far as the text. `Text.uncommented` puts a single blank in place of
each comment. It does so byte by byte, without cutting the text into words first, since a comment ends in
the middle of a word as well as behind one.

Word by word it means this (`Text.words_uncommented_append`): the words of the text stay, those in a
comment are left out, and behind a comment the text goes on as if it began there. What is read of a
dictionary that way is told by `Dictionary.Remains`.
-/

set_option autoImplicit false

namespace ThreadedForth

namespace Text

/-- The words that begin a comment. -/
def commentWords : List (List UInt8) := [[40], [92]]

/-- What follows the first closing parenthesis. -/
def afterComment (text : List UInt8) : List UInt8 := (text.dropWhile (· ≠ 41)).tail

/-- What is left after the comment that a word begins in front of a text. -/
def beyond (w text : List UInt8) : List UInt8 := if w = [92] then [] else afterComment text

/-- What follows the first word and the blank after it. -/
def behindWord (text : List UInt8) : List UInt8 :=
  ((text.dropWhile isBlank).dropWhile fun b => !isBlank b).tail

/-- What follows so many words. -/
def behind : Nat → List UInt8 → List UInt8
  | 0, text => text
  | k + 1, text => behind k (behindWord text)

/-- What was read of a text, so far as the rest depends on it. -/
inductive Stage where
  /-- Between two words. -/
  | between
  | word
  /-- In a comment that ends with a parenthesis. -/
  | comment

/-- The rest of a text with a blank in place of each comment. -/
def uncommentedFrom : Stage → List UInt8 → List UInt8
  | _, [] => []
  | .between, b :: text =>
    -- it is a word of one byte if nothing but a blank can follow
    if b = 92 ∧ text.head?.all isBlank then [32]
    else if b = 40 ∧ text.head?.all isBlank then 32 :: uncommentedFrom .comment text
    else b :: uncommentedFrom (if isBlank b then .between else .word) text
  | .word, b :: text => b :: uncommentedFrom (if isBlank b then .between else .word) text
  | .comment, b :: text => uncommentedFrom (if b = 41 then .between else .comment) text

/-- The text with a blank in place of each comment. -/
def uncommented (text : List UInt8) : List UInt8 := uncommentedFrom .between text

variable {b : UInt8} {text w s : List UInt8}

/-! ## Bytes -/

/-- The words that begin a comment have no letters. -/
theorem eq_of_same_commentWord {n : List UInt8} (hw : w ∈ commentWords) (h : same w n = true) : n = w := by
  have hbyte : ∀ c : UInt8, (lower c = 40 → c = 40) ∧ (lower c = 92 → c = 92) := by
    intro c
    unfold lower
    split <;> grind
  simp only [commentWords, List.mem_cons, List.not_mem_nil, or_false] at hw
  rw [same_iff] at h
  cases n with
  | nil => rcases hw with rfl | rfl <;> cases h
  | cons c n =>
      rcases hw with rfl | rfl
      · obtain ⟨hc, hn⟩ := List.cons.inj h
        rw [(hbyte c).1 hc.symm, List.map_eq_nil_iff.1 hn.symm]
      · obtain ⟨hc, hn⟩ := List.cons.inj h
        rw [(hbyte c).2 hc.symm, List.map_eq_nil_iff.1 hn.symm]

theorem length_uncommentedFrom_le (stage : Stage) (text : List UInt8) :
    (uncommentedFrom stage text).length ≤ text.length := by
  induction text generalizing stage with
  | nil => simp [uncommentedFrom]
  | cons b text ih =>
      cases stage with
      | between =>
          simp only [uncommentedFrom]
          split
          · simp
          · split <;> simpa using ih _
      | word => simpa [uncommentedFrom] using ih _
      | comment => exact Nat.le_succ_of_le (ih _)

/-- No byte is added but blanks. -/
theorem mem_uncommentedFrom (stage : Stage) (h : b ∈ uncommentedFrom stage text) :
    b ∈ text ∨ b = 32 := by
  induction text generalizing stage with
  | nil => simp [uncommentedFrom] at h
  | cons c text ih =>
      have hrest : ∀ stage', b ∈ uncommentedFrom stage' text → b ∈ c :: text ∨ b = 32 :=
        fun stage' hb => (ih stage' hb).imp_left (List.mem_cons_of_mem c)
      cases stage with
      | between =>
          simp only [uncommentedFrom] at h
          split at h
          · exact .inr (List.mem_singleton.1 h)
          · split at h
            · rcases List.mem_cons.1 h with hb | hb
              · exact .inr hb
              · exact hrest _ hb
            · rcases List.mem_cons.1 h with rfl | hb
              · exact .inl List.mem_cons_self
              · exact hrest _ hb
      | word =>
          rcases List.mem_cons.1 h with rfl | hb
          · exact .inl List.mem_cons_self
          · exact hrest _ hb
      | comment => exact hrest _ h

theorem length_uncommented_le (text : List UInt8) : (uncommented text).length ≤ text.length :=
  length_uncommentedFrom_le .between text

theorem zero_notMem_uncommented (h : 0 ∉ text) : 0 ∉ uncommented text := by
  intro hzero
  rcases mem_uncommentedFrom .between hzero with hmem | hblank
  · exact h hmem
  · exact absurd hblank (by decide)

/-! ## Words -/

@[simp] theorem afterComment_nil : afterComment [] = [] := rfl

theorem afterComment_cons_of_ne (h : b ≠ 41) : afterComment (b :: text) = afterComment text := by
  simp [afterComment, h]

/-- A comment goes as far as the parenthesis. -/
theorem uncommentedFrom_comment (text : List UInt8) :
    uncommentedFrom .comment text = uncommented (afterComment text) := by
  induction text with
  | nil => rfl
  | cons b text ih =>
      by_cases hb : b = 41
      · simp [uncommentedFrom, afterComment, uncommented, hb]
      · rw [afterComment_cons_of_ne hb, ← ih]
        simp [uncommentedFrom, hb]

/-- Inside a word all is kept. -/
theorem uncommentedFrom_word_append (h : ∀ b ∈ w, isBlank b = false) :
    uncommentedFrom .word (w ++ s) = w ++ uncommentedFrom .word s := by
  induction w with
  | nil => rfl
  | cons b w ih =>
      have hb := h b List.mem_cons_self
      have hrest := ih fun c hc => h c (List.mem_cons_of_mem b hc)
      simp [uncommentedFrom, hb, hrest]

/-- The first word of a text and what follows the blank after it. -/
theorem words_append (hne : w ≠ []) (hw : ∀ b ∈ w, isBlank b = false)
    (hs : ∀ b ∈ s.head?, isBlank b = true) : words (w ++ s) = w :: words s.tail := by
  have hnot : ∀ b ∈ w, (!isBlank b) = true := fun b hb => by rw [hw b hb]; rfl
  have hstop : s.takeWhile (fun b => !isBlank b) = [] ∧ s.dropWhile (fun b => !isBlank b) = s := by
    cases s with
    | nil => exact ⟨rfl, rfl⟩
    | cons c s => simp [hs c rfl]
  have htake : (w ++ s).takeWhile (fun b => !isBlank b) = w := by
    rw [List.takeWhile_append_of_pos hnot, hstop.1, List.append_nil]
  have hdrop : (w ++ s).dropWhile (fun b => !isBlank b) = s := by
    rw [List.dropWhile_append_of_pos hnot, hstop.2]
  cases w with
  | nil => exact absurd rfl hne
  | cons b w =>
      rw [List.cons_append] at htake hdrop ⊢
      rw [words_cons_of_not_isBlank (hw b List.mem_cons_self), htake, hdrop]

/-- Blanks in front make no difference. -/
theorem words_uncommented_dropWhile (text : List UInt8) :
    words (uncommented (text.dropWhile isBlank)) = words (uncommented text) := by
  induction text with
  | nil => rfl
  | cons b text ih =>
      by_cases hb : isBlank b = true
      · have hne : b ≠ 92 ∧ b ≠ 40 := by
          constructor <;> (rintro rfl; exact absurd hb (by decide))
        have hkept : uncommented (b :: text) = b :: uncommented text := by
          simp [uncommented, uncommentedFrom, hne, hb]
        rw [List.dropWhile_cons_of_pos hb, ih, hkept, words_cons_of_isBlank hb]
      · rw [List.dropWhile_cons_of_neg hb]

/-- Where there are no words, there are none without comments. -/
theorem words_uncommented_eq_nil (h : words text = []) : words (uncommented text) = [] := by
  rw [← words_uncommented_dropWhile]
  rw [← words_dropWhile] at h
  have hblank := List.head?_dropWhile_not isBlank text
  cases hrest : text.dropWhile isBlank with
  | nil => rfl
  | cons b rest =>
      rw [hrest] at h hblank
      rw [words_cons_of_not_isBlank (by simpa using hblank)] at h
      cases h

/-- A word that begins no comment is kept with the blank after it. -/
theorem words_append_uncommentedFrom (hne : w ≠ []) (hw : ∀ b ∈ w, isBlank b = false)
    (hs : ∀ b ∈ s.head?, isBlank b = true) :
    words (w ++ uncommentedFrom .word s) = w :: words (uncommented s.tail) := by
  cases s with
  | nil => exact words_append hne hw (by simp [uncommentedFrom])
  | cons c s =>
      have hc := hs c rfl
      have hkept : uncommentedFrom .word (c :: s) = c :: uncommented s := by
        simp [uncommentedFrom, uncommented, hc]
      rw [hkept]
      exact words_append hne hw (by simp [hc])

/-- A word of the text, with what follows it, is a word without comments as well, or it begins one. -/
theorem words_uncommented_append (hne : w ≠ []) (hw : ∀ b ∈ w, isBlank b = false)
    (hs : ∀ b ∈ s.head?, isBlank b = true) :
    words (uncommented (w ++ s)) =
      if w = [92] then []
      else if w = [40] then words (uncommented (afterComment s.tail))
      else w :: words (uncommented s.tail) := by
  cases w with
  | nil => exact absurd rfl hne
  | cons b w =>
  have hb := hw b List.mem_cons_self
  cases w with
  | nil =>
      -- a blank or nothing at all follows, so this is a word of one byte
      have hend : s.head?.all isBlank = true := by
        cases hhead : s.head? with
        | none => rfl
        | some c => exact hs c hhead
      by_cases hbackslash : b = 92
      · simp [uncommented, uncommentedFrom, hbackslash, hend, words_cons_of_isBlank (b := 32) rfl]
      by_cases hparen : b = 40
      · have htail : afterComment s.tail = afterComment s := by
          cases s with
          | nil => rfl
          | cons c s =>
              refine (afterComment_cons_of_ne ?_).symm
              rintro rfl
              exact absurd (hs 41 rfl) (by decide)
        rw [if_neg (by simp [hbackslash]), if_pos (by rw [hparen]), htail, ← uncommentedFrom_comment]
        simp [uncommented, uncommentedFrom, hparen, hend, words_cons_of_isBlank (b := 32) rfl]
      · rw [if_neg (by simp [hbackslash]), if_neg (by simp [hparen]),
          ← words_append_uncommentedFrom hne hw hs]
        simp [uncommented, uncommentedFrom, hbackslash, hparen, hb]
  | cons c w =>
      have hc := hw c (by simp)
      have hkept : uncommentedFrom .word (c :: w ++ s) = c :: w ++ uncommentedFrom .word s :=
        uncommentedFrom_word_append fun b hb => hw b (List.mem_cons_of_mem _ hb)
      rw [if_neg (by simp), if_neg (by simp), ← words_append_uncommentedFrom hne hw hs]
      change words (uncommented (b :: (c :: w ++ s))) = words (b :: (c :: w ++ uncommentedFrom .word s))
      rw [← hkept]
      simp [uncommented, uncommentedFrom, hb, hc]

end Text

namespace Dictionary

variable {d d' : Dictionary} {u : List UInt8}

/-! ## What is left to read -/

/-- The unread text, which has no zeros. As long as there is any, it lies in the input buffer. -/
structure Remains (d : Dictionary) (u : List UInt8) : Prop where
  unread_eq : d.unread = u
  ne_zero : ∀ b ∈ u, b ≠ 0
  buffered : u ≠ [] → d.Buffered

/-- The next word in front of the text, with a blank or nothing at all behind it. -/
structure FirstWord (u w s : List UInt8) : Prop where
  eq : u.dropWhile Text.isBlank = w ++ s
  ne_nil : w ≠ []
  not_blank : ∀ b ∈ w, Text.isBlank b = false
  blank_after : ∀ b ∈ s.head?, Text.isBlank b = true

theorem FirstWord.words_eq {w s : List UInt8} (h : FirstWord u w s) :
    Text.words u = w :: Text.words s.tail := by
  rw [← Text.words_dropWhile, h.eq]
  exact Text.words_append h.ne_nil h.not_blank h.blank_after

/-- A word that begins no comment is one of the words without comments. -/
theorem FirstWord.words_uncommented_of_notMem {w s : List UInt8} (h : FirstWord u w s)
    (hw : w ∉ Text.commentWords) :
    Text.words (Text.uncommented u) = w :: Text.words (Text.uncommented s.tail) := by
  simp only [Text.commentWords, List.mem_cons, List.not_mem_nil, or_false, not_or] at hw
  rw [← Text.words_uncommented_dropWhile, h.eq,
    Text.words_uncommented_append h.ne_nil h.not_blank h.blank_after, if_neg hw.2, if_neg hw.1]

/-- Without a comment the text goes on behind it. -/
theorem FirstWord.words_uncommented_of_mem {w s : List UInt8} (h : FirstWord u w s)
    (hw : w ∈ Text.commentWords) :
    Text.words (Text.uncommented u) = Text.words (Text.uncommented (Text.beyond w s.tail)) := by
  rw [← Text.words_uncommented_dropWhile, h.eq,
    Text.words_uncommented_append h.ne_nil h.not_blank h.blank_after, Text.beyond]
  simp only [Text.commentWords, List.mem_cons, List.not_mem_nil, or_false] at hw
  rcases hw with rfl | rfl
  · rfl
  · rfl

/-- The word and the blank after it are what has to be skipped. -/
theorem FirstWord.tail_eq {w s : List UInt8} (h : FirstWord u w s) : s.tail = Text.behindWord u := by
  have hnot : ∀ b ∈ w, (!Text.isBlank b) = true := fun b hb => by rw [h.not_blank b hb]; rfl
  have hstop : s.dropWhile (fun b => !Text.isBlank b) = s := by
    have hafter := h.blank_after
    cases s with
    | nil => rfl
    | cons c s => simp [hafter c rfl]
  rw [Text.behindWord, h.eq, List.dropWhile_append_of_pos hnot, hstop]

/-- With the word at least one byte is read. -/
theorem FirstWord.length_tail_lt {w s : List UInt8} (h : FirstWord u w s) : s.tail.length < u.length := by
  have hdrop := (List.dropWhile_suffix Text.isBlank (l := u)).length_le
  have hpos := List.length_pos_iff.2 h.ne_nil
  rw [h.eq, List.length_append] at hdrop
  rw [List.length_tail]
  omega

theorem length_beyond_le (w u : List UInt8) : (Text.beyond w u).length ≤ u.length := by
  rw [Text.beyond]
  split
  · exact Nat.zero_le _
  · have hdrop := (List.dropWhile_suffix (· ≠ 41) (l := u)).length_le
    rw [Text.afterComment, List.length_tail]
    exact Nat.le_trans (Nat.sub_le _ _) hdrop

namespace Remains

theorem reading (h : d.Remains u) (hd : d.Buffered) : d.Reading (Text.words u) :=
  ⟨hd, fun b hb => h.ne_zero b (h.unread_eq ▸ hb), by rw [h.unread_eq]⟩

/-- The same is left where the source is the same. -/
theorem of_agreeOn (h : d.Remains u) (hd : d.Buffered) (hagree : d.AgreeOn d' 10 96) : d'.Remains u :=
  ⟨(hd.unread_eq hagree).trans h.unread_eq, h.ne_zero, fun _ => hd.of_agreeOn hagree⟩

/-- Where there is no input, only blanks are left. -/
theorem words_eq_nil (h : d.Remains u) (hinput : d.hasInput = false) : Text.words u = [] := by
  rw [hasInput_eq, h.unread_eq] at hinput
  rw [← Text.words_dropWhile]
  cases hrest : u.dropWhile Text.isBlank with
  | nil => rfl
  | cons b rest =>
      rw [hrest] at hinput
      have hmem : b ∈ u := (List.dropWhile_suffix Text.isBlank).subset (by simp [hrest])
      exact absurd (bne_eq_false_iff_eq.1 hinput) (h.ne_zero b hmem)

theorem ne_nil_of_hasInput (h : d.Remains u) (hinput : d.hasInput = true) : u ≠ [] := by
  rintro rfl
  rw [hasInput_eq, h.unread_eq] at hinput
  cases hinput

/-- A byte of the text is in memory, as it is not zero. -/
theorem lt_capacity (h : d.Remains u) (hu : u ≠ []) : 16 < d.capacity := by
  have hstart := (h.buffered hu).toNat_unreadStart
  cases hlength : d.unreadLength with
  | zero => exact absurd (h.unread_eq ▸ (by rw [unread, hlength]; rfl)) hu
  | succ n =>
      have hunread := h.unread_eq
      rw [unread, hlength, Memory.bytesFrom_succ] at hunread
      have hne := h.ne_zero (d.memory.readByte d.unreadStart) (hunread ▸ List.mem_cons_self)
      refine Nat.lt_of_not_le fun hcap => hne (Memory.readByte_of_capacity_le ?_)
      change d.capacity ≤ _
      omega

/-- Where there is input, the first word is read, and what follows the blank after it is left. -/
theorem exists_firstWord (h : d.Remains u) (hcap : 16 ≤ d.capacity) (hinput : d.hasInput = true) :
    d.Buffered ∧ d.nextWord.2.Buffered ∧
      ∃ s, FirstWord u d.nextText s ∧ d.nextWord.2.Remains s.tail := by
  have hd := h.buffered (h.ne_nil_of_hasInput hinput)
  obtain ⟨hd', hunread⟩ := hd.unread_nextWord hcap hinput
  have hzero : ∀ b ∈ u.dropWhile Text.isBlank, b ≠ 0 := fun b hb =>
    h.ne_zero b ((List.dropWhile_suffix Text.isBlank).subset hb)
  obtain ⟨htake, hdrop⟩ := takeWhile_isWordByte hzero
  rw [h.unread_eq] at hunread
  refine ⟨hd, hd', (u.dropWhile Text.isBlank).dropWhile isWordByte, ?_, hunread, fun b hb => ?_,
    fun _ => hd'⟩
  · refine ⟨?_, ?_, fun b hb => ?_, fun b hb => ?_⟩
    · rw [nextText, h.unread_eq, List.takeWhile_append_dropWhile]
    · exact List.ne_nil_of_length_pos (length_nextText_pos hinput)
    · have hword := isWordByte_of_mem_nextText hb
      rw [isWordByte, Bool.and_eq_true, Bool.not_eq_true'] at hword
      exact hword.1
    · rw [hdrop] at hb
      have hstop := List.head?_dropWhile_not (fun b => !Text.isBlank b) (u.dropWhile Text.isBlank)
      rw [hb] at hstop
      simpa using hstop
  · exact hzero b ((List.dropWhile_suffix isWordByte).subset (List.mem_of_mem_tail hb))

end Remains

/-! ## Several words -/

variable {ns ws : List (List UInt8)}

/-- Words that begin no comments are read. -/
theorem Remains.afterWords (h : d.Remains u) (hd : d.Buffered) (hcap : 16 ≤ d.capacity)
    (hwords : Text.words u = ns ++ ws) (hns : ∀ n ∈ ns, n ∉ Text.commentWords) :
    (d.afterWords ns.length).Remains (Text.behind ns.length u) ∧ (d.afterWords ns.length).Buffered ∧
      (Text.behind ns.length u).length + ns.length ≤ u.length ∧
      Text.words (Text.behind ns.length u) = ws ∧
      Text.words (Text.uncommented u) = ns ++ Text.words (Text.uncommented (Text.behind ns.length u)) := by
  induction ns generalizing d u with
  | nil => exact ⟨h, hd, Nat.le_refl _, hwords, rfl⟩
  | cons n ns ih =>
      have hreading := h.reading hd
      rw [hwords] at hreading
      obtain ⟨hinput, hnext, -⟩ := hreading.cons hcap
      obtain ⟨-, hd', s, hfirst, hrest⟩ := h.exists_firstWord hcap hinput
      rw [hnext] at hfirst
      have hfirstWords := hfirst.words_eq
      have hlt := hfirst.length_tail_lt
      have hkept := hfirst.words_uncommented_of_notMem (hns n List.mem_cons_self)
      rw [hwords] at hfirstWords
      rw [hfirst.tail_eq] at hrest hfirstWords hlt hkept
      obtain ⟨hu', hbuffered, hlength, hleft, hboth⟩ :=
        ih hrest hd' (by rw [d.inputOnly_nextWord.capacity_eq]; exact hcap)
          (List.cons.inj hfirstWords).2.symm fun n hn => hns n (List.mem_cons_of_mem _ hn)
      refine ⟨hu', hbuffered, ?_, hleft, ?_⟩
      · rw [List.length_cons, Text.behind]
        omega
      · rw [hkept, hboth, List.cons_append]
        rfl

/-! ## The cursor -/

/-- As signed cells the cursor and the length compare as they do as addresses. -/
theorem Buffered.cursor_lt_sourceLength_iff (h : d.Buffered) :
    d.reserved .cursor < d.reserved .sourceLength ↔ d.unread ≠ [] := by
  have hcursor := h.cursor_le
  have hlength := h.length_le
  rw [← List.length_pos_iff, unread, Memory.length_bytesFrom, unreadLength]
  unfold reservedAddr at *
  rw [Int16.lt_iff_toInt_lt, toInt_eq, toInt_eq, if_pos (by omega), if_pos (by omega)]
  omega

/-- The byte at the cursor is the first one of the unread text. -/
theorem Buffered.readByte_cursor {b : UInt8} (h : d.Buffered) (hunread : d.unread = b :: u) (c : Cell) :
    (d.setReserved .cursor c).readByte (d.reserved .cursor + d.reserved .source).toUInt16 = b := by
  have haddr : (d.reserved .cursor + d.reserved .source).toUInt16 = d.unreadStart := by
    rw [Int16.toUInt16_add, UInt16.add_comm]
    rfl
  have hstart := h.toNat_unreadStart
  have hagree : d.AgreeOn (d.setReserved .cursor c) 16 65536 :=
    d.agreeOn_setReserved .cursor c (.inl (by decide))
  have hread : d.readByte d.unreadStart = b := by
    cases hlength : d.unreadLength with
    | zero =>
        rw [unread, hlength] at hunread
        cases hunread
    | succ n =>
        rw [unread, hlength, Memory.bytesFrom_succ] at hunread
        exact (List.cons.inj hunread).1
  rw [haddr, hagree _ (by omega) d.unreadStart.toNat_lt, hread]

/-- The cursor is moved by one byte, which is then read. -/
theorem Buffered.moveCursor (h : d.Buffered) (hcap : 16 ≤ d.capacity) :
    let d' := d.setReserved .cursor (d.reserved .cursor + 1)
    d'.unread = d.unread.tail ∧ (d.unread ≠ [] → d'.Buffered) := by
  intro d'
  have hcursor := h.cursor_le
  have hlength := h.length_le
  have hlen : d.unreadLength = (d.reservedAddr .sourceLength).toNat -
    (d.reservedAddr .cursor).toNat := rfl
  have hsource : d'.reservedAddr .source = d.reservedAddr .source :=
    congrArg Int16.toUInt16 (d.reserved_setReserved_of_ne _ (by decide))
  have hlength' : d'.reservedAddr .sourceLength = d.reservedAddr .sourceLength :=
    congrArg Int16.toUInt16 (d.reserved_setReserved_of_ne _ (by decide))
  have hcursor' : d'.reservedAddr .cursor = d.reservedAddr .cursor + 1 := by
    rw [reservedAddr, reserved_setReserved _ _ _ hcap, Int16.toUInt16_add]
    rfl
  have hnum : (d'.reservedAddr .cursor).toNat = (d.reservedAddr .cursor).toNat + 1 := by
    rw [hcursor']
    exact toNat_add_one (by omega)
  have hstart : d'.unreadStart = d.unreadStart + 1 := by
    rw [unreadStart, unreadStart, hsource, hcursor', UInt16.add_assoc]
  have hleft : d'.unreadLength = d.unreadLength - 1 := by
    rw [unreadLength, hlength', hnum, hlen]
    omega
  have hkept : d.unread ≠ [] → d'.Buffered := by
    intro hne
    rw [← List.length_pos_iff, unread, Memory.length_bytesFrom] at hne
    exact ⟨hsource.trans h.source_eq, by rw [hlength']; exact hlength, by omega⟩
  refine ⟨?_, hkept⟩
  -- the bytes that are left lie in the buffer, above the cursor
  rw [← List.drop_one, unread, unread, Memory.drop_bytesFrom, hstart, hleft]
  rcases Nat.eq_zero_or_pos (d.unreadLength - 1) with hzero | hpos
  · rw [hzero]
    rfl
  · have hend := h.unreadStart_add_le (by omega)
    have hfrom := h.toNat_unreadStart
    have hone : (d.unreadStart + 1).toNat = d.unreadStart.toNat + 1 := toNat_add_one (by omega)
    have hagree : d.AgreeOn d' 16 65536 := d.agreeOn_setReserved .cursor _ (Or.inl (by decide))
    exact hagree.bytesFrom (by omega) (by omega) (by omega)

end Dictionary

end ThreadedForth
