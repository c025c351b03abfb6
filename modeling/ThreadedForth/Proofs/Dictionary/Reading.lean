import ThreadedForth.Proofs.Dictionary.Input

/-!
# The words of a line

The words of a text are the runs of bytes between its blanks. The source of a dictionary is read word
by word: while the unread text has no zero, its first word is the next one that is read, and its other
words are what is left to read (`Reading.cons`). A line that was loaded is read from its first word on
(`reading_of_loadInput`).
-/

set_option autoImplicit false

namespace ThreadedForth

namespace Text

/-- The words of a text, with blanks between them. -/
def words (text : List UInt8) : List (List UInt8) := (text.splitOnP isBlank).filter (· ≠ [])

variable {b : UInt8} {text : List UInt8}

@[simp] theorem words_nil : words [] = [] := rfl

theorem words_cons_of_isBlank (h : isBlank b = true) : words (b :: text) = words text := by
  simp [words, List.splitOnP_cons_eq_if_modifyHead, h]

/-- Blanks before the first word make no difference. -/
theorem words_dropWhile (text : List UInt8) : words (text.dropWhile isBlank) = words text := by
  induction text with
  | nil => rfl
  | cons b text ih =>
      by_cases h : isBlank b = true
      · rw [List.dropWhile_cons_of_pos h, ih, words_cons_of_isBlank h]
      · rw [List.dropWhile_cons_of_neg h]

/-- The first piece of a text ends at its first blank. -/
theorem splitOnP_isBlank (text : List UInt8) : text.splitOnP isBlank =
    text.takeWhile (fun b => !isBlank b) ::
      if (text.dropWhile fun b => !isBlank b).isEmpty then []
      else (text.dropWhile fun b => !isBlank b).tail.splitOnP isBlank := by
  induction text with
  | nil => rfl
  | cons b text ih =>
      by_cases h : isBlank b = true
      · simp [List.splitOnP_cons_eq_if_modifyHead, h]
      · rw [List.splitOnP_cons_eq_if_modifyHead, ih]
        simp [h]

/-- The first word of a text that begins with one. -/
theorem words_cons_of_not_isBlank (h : isBlank b = false) : words (b :: text) =
    (b :: text).takeWhile (fun c => !isBlank c) ::
      words ((b :: text).dropWhile fun c => !isBlank c).tail := by
  rw [words, splitOnP_isBlank, List.filter_cons_of_pos (by simp [h])]
  cases (b :: text).dropWhile fun c => !isBlank c <;> simp [words]

end Text

namespace Dictionary

variable {d d' : Dictionary} {line word : List UInt8} {ws : List (List UInt8)}

/-- Where there is no zero, a word ends at a blank only. -/
theorem takeWhile_isWordByte {text : List UInt8} (h : ∀ b ∈ text, b ≠ 0) :
    text.takeWhile isWordByte = text.takeWhile (fun b => !Text.isBlank b) ∧
      text.dropWhile isWordByte = text.dropWhile fun b => !Text.isBlank b := by
  induction text with
  | nil => exact ⟨rfl, rfl⟩
  | cons b text ih =>
      have hb : isWordByte b = !Text.isBlank b := by
        simp [isWordByte, bne_iff_ne.2 (h b List.mem_cons_self)]
      obtain ⟨htake, hdrop⟩ := ih fun c hc => h c (List.mem_cons_of_mem b hc)
      simp only [List.takeWhile_cons, List.dropWhile_cons, hb, htake, hdrop, and_self]

/-- The words that are unread in the input buffer. -/
structure Reading (d : Dictionary) (ws : List (List UInt8)) : Prop where
  buffered : d.Buffered
  ne_zero : ∀ b ∈ d.unread, b ≠ 0
  words_eq : Text.words d.unread = ws

namespace Reading

theorem of_agreeOn (h : d.Reading ws) (hd : d.AgreeOn d' 10 96) : d'.Reading ws := by
  have hunread := h.buffered.unread_eq hd
  exact ⟨h.buffered.of_agreeOn hd, hunread ▸ h.ne_zero, hunread ▸ h.words_eq⟩

theorem hasInput_of_nil (h : d.Reading []) : d.hasInput = false := by
  have hwords := h.words_eq
  rw [← Text.words_dropWhile] at hwords
  have hblank := List.head?_dropWhile_not Text.isBlank d.unread
  rw [hasInput_eq]
  cases hrest : d.unread.dropWhile Text.isBlank with
  | nil => rfl
  | cons b rest =>
      rw [hrest] at hwords hblank
      rw [Text.words_cons_of_not_isBlank (by simpa using hblank)] at hwords
      cases hwords

/-- The first word is the next one, and the others are left after it. -/
theorem cons (h : d.Reading (word :: ws)) (hcap : 16 ≤ d.capacity) :
    d.hasInput = true ∧ d.nextText = word ∧ d.nextWord.2.Reading ws := by
  have hwords := h.words_eq
  rw [← Text.words_dropWhile] at hwords
  have hblank := List.head?_dropWhile_not Text.isBlank d.unread
  have hzero : ∀ b ∈ d.unread.dropWhile Text.isBlank, b ≠ 0 := by
    intro b hb
    exact h.ne_zero b (List.dropWhile_subset _ hb)
  obtain ⟨htake, hdrop⟩ := takeWhile_isWordByte hzero
  cases hrest : d.unread.dropWhile Text.isBlank with
  | nil =>
      rw [hrest] at hwords
      cases hwords
  | cons b rest =>
      have hinput : d.hasInput = true := by
        rw [hasInput_eq, hrest]
        exact bne_iff_ne.2 (hzero b (by simp [hrest]))
      obtain ⟨hbuffered, hunread⟩ := h.buffered.unread_nextWord hcap hinput
      rw [hrest] at hwords hblank htake hdrop hunread
      rw [Text.words_cons_of_not_isBlank (by simpa using hblank)] at hwords
      injection hwords with hword hwords
      refine ⟨hinput, ?_, hbuffered, ?_, ?_⟩
      · rw [nextText, hrest, htake, hword]
      · intro c hc
        rw [hunread] at hc
        have hmem := List.dropWhile_subset _ (List.mem_of_mem_tail hc)
        exact hzero c (hrest ▸ hmem)
      · rw [hunread, hdrop, hwords]

end Reading

/-- The dictionary after so many words were read. -/
def afterWords : Nat → Dictionary → Dictionary
  | 0, d => d
  | k + 1, d => afterWords k d.nextWord.2

theorem inputOnly_afterWords (k : Nat) (d : Dictionary) : d.InputOnly (d.afterWords k) := by
  induction k generalizing d with
  | zero => exact .refl d
  | succ k ih => exact d.inputOnly_nextWord.trans (ih _)

theorem Reading.afterWords {ns : List (List UInt8)} (h : d.Reading (ns ++ ws)) (hcap : 16 ≤ d.capacity) :
    (d.afterWords ns.length).Reading ws := by
  induction ns generalizing d with
  | nil => exact h
  | cons n ns ih =>
      obtain ⟨-, -, hrest⟩ := h.cons hcap
      exact ih hrest (by rw [d.inputOnly_nextWord.capacity_eq]; exact hcap)

/-- A line that was loaded is read from its first word on. -/
theorem reading_of_loadInput (hcap : 96 ≤ d.capacity) (hline : ∀ b ∈ line, b ≠ 0)
    (h : loadInput line d = .ok () d') : d'.Reading (Text.words line) := by
  obtain ⟨-, -, hunread⟩ := unread_of_loadInput hcap h
  refine ⟨buffered_of_loadInput (by omega) h, ?_, ?_⟩
  · rw [hunread]
    exact hline
  · rw [hunread]

end Dictionary

end ThreadedForth
