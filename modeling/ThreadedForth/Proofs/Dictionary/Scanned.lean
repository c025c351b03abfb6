import Mathlib.Data.List.TakeWhile
import ThreadedForth.Proofs.Dictionary.Input

/-!
# What is read of a text

A word of a text is a longest run of bytes that are not blank (`Text.IsWord`). A zero should end a text.
It does where no word stands directly before it; a zero directly after a word is read along with the
word, as a blank would be, and reading goes on after it (`Text.scanned`). Between two words the text is
read as if it began there (`Text.Restarts`), which one word carries on to the next one
(`Text.Restarts.next`).
-/

set_option autoImplicit false

namespace ThreadedForth

namespace Text

/-! ## Words of a text -/

variable {text : List UInt8} {i j i' j' k : Nat}

/-- The bytes from `i` up to, and not including, `j` are a word of the text: there is one, none is
blank, and on both sides the text ends or a blank follows. -/
structure IsWord (text : List UInt8) (i j : Nat) : Prop where
  lt : i < j
  le_length : j ≤ text.length
  not_blank : ∀ k, i ≤ k → k < j → ∀ b ∈ text[k]?, isBlank b = false
  before : 0 < i → ∀ b ∈ text[i - 1]?, isBlank b = true
  after : ∀ b ∈ text[j]?, isBlank b = true

/-- Between blanks the first word comes before all others. -/
theorem IsWord.eq_or_lt (h : IsWord text i j) (hblank : ∀ x, k ≤ x → x < i → ∀ b ∈ text[x]?,
    isBlank b = true) (hk : k ≤ i') (h' : IsWord text i' j') : i' = i ∧ j' = j ∨ j < i' := by
  have hlen := h.le_length
  have hlen' := h'.le_length
  have hlt' := h'.lt
  -- a word does not begin at a blank, nor inside another word
  have hge : i ≤ i' := by
    refine Nat.le_of_not_lt fun hlt => ?_
    obtain ⟨b, hb⟩ : ∃ b, text[i']? = some b := ⟨_, List.getElem?_eq_getElem (by omega)⟩
    have hyes := hblank i' hk hlt b hb
    rw [h'.not_blank i' (Nat.le_refl _) hlt' b hb] at hyes
    cases hyes
  rcases Nat.eq_or_lt_of_le hge with rfl | hgt
  · left
    refine ⟨rfl, Nat.le_antisymm (Nat.le_of_not_lt fun hlt => ?_) (Nat.le_of_not_lt fun hlt => ?_)⟩
    · obtain ⟨b, hb⟩ : ∃ b, text[j]? = some b := ⟨_, List.getElem?_eq_getElem (by omega)⟩
      have hyes := h.after b hb
      rw [h'.not_blank j (Nat.le_of_lt h.lt) hlt b hb] at hyes
      cases hyes
    · obtain ⟨b, hb⟩ : ∃ b, text[j']? = some b := ⟨_, List.getElem?_eq_getElem (by omega)⟩
      have hyes := h'.after b hb
      rw [h.not_blank j' (Nat.le_of_lt hlt') hlt b hb] at hyes
      cases hyes
  · right
    refine Nat.lt_of_not_le fun hle => ?_
    obtain ⟨b, hb⟩ : ∃ b, text[i' - 1]? = some b := ⟨_, List.getElem?_eq_getElem (by omega)⟩
    have hyes := h'.before (by omega) b hb
    rw [h.not_blank (i' - 1) (by omega) (by omega) b hb] at hyes
    cases hyes

/-- All bytes of the longest part in front satisfy the condition. -/
theorem of_mem_of_lt_length_takeWhile (p : UInt8 → Bool) (text : List UInt8)
    (h : k < (text.takeWhile p).length) : ∀ b ∈ text[k]?, p b = true := by
  intro b hb
  have hfront : (text.takeWhile p)[k]? = text[k]? := by
    rw [List.prefix_iff_eq_take.1 (List.takeWhile_prefix p (l := text))]
    exact List.getElem?_take_of_lt h
  exact List.mem_takeWhile_imp (List.mem_of_getElem? (hfront.trans hb))

/-- The byte after that part does not. -/
theorem of_mem_at_length_takeWhile (p : UInt8 → Bool) (text : List UInt8) :
    ∀ b ∈ text[(text.takeWhile p).length]?, p b = false := by
  intro b hb
  have hhead := List.head?_dropWhile_not p text
  rw [← Dictionary.drop_length_takeWhile, List.head?_eq_getElem?, List.getElem?_drop, Nat.add_zero,
    Option.mem_def.1 hb] at hhead
  simpa using hhead

/-- All `n` bytes from `k` on that are blank, and then all bytes that are not: these are a word. -/
theorem isWord_of_takeWhile {n : Nat} (hn : ((text.drop k).takeWhile isBlank).length = n)
    (hj : ((text.drop (k + n)).takeWhile fun b => !isBlank b).length = j) (hpos : 0 < j)
    (hbefore : 0 < k → ∀ b ∈ text[k - 1]?, isBlank b = true) :
    (∀ x, k ≤ x → x < k + n → ∀ b ∈ text[x]?, isBlank b = true) ∧
      IsWord text (k + n) (k + n + j) := by
  have hblank : ∀ x, k ≤ x → x < k + n → ∀ b ∈ text[x]?, isBlank b = true := by
    intro x hx hlt b hb
    refine of_mem_of_lt_length_takeWhile _ (text.drop k) (k := x - k) (by omega) b ?_
    rw [List.getElem?_drop, Nat.add_sub_cancel' hx]
    exact hb
  have hlen : j ≤ text.length - (k + n) := by
    rw [← hj, ← List.length_drop]
    exact (List.takeWhile_prefix _).length_le
  refine ⟨hblank, by omega, by omega, fun x hx hlt b hb => ?_, fun hi b hb => ?_, fun b hb => ?_⟩
  · have hrun := of_mem_of_lt_length_takeWhile (fun b => !isBlank b) (text.drop (k + n))
      (k := x - (k + n)) (by omega) b
    rw [List.getElem?_drop, Nat.add_sub_cancel' hx] at hrun
    simpa using hrun hb
  · rcases Nat.eq_zero_or_pos n with rfl | hsome
    · exact hbefore hi b hb
    · exact hblank _ (by omega) (by omega) b hb
  · have hrun := of_mem_at_length_takeWhile (fun b => !isBlank b) (text.drop (k + n)) b
    rw [List.getElem?_drop, hj] at hrun
    simpa using hrun hb

/-! ## Zeros in a text -/

/-- What is read of a text, where `inWord` says that a word stands before it. -/
def scannedAfter : Bool → List UInt8 → List UInt8
  | _, [] => []
  | inWord, b :: bs =>
    if b = 0 then if inWord then 32 :: scannedAfter false bs else []
    else b :: scannedAfter (!isBlank b) bs

/-- What is read of a text. A zero directly after a word is read as a blank, and any other one ends
the text. -/
def scanned (text : List UInt8) : List UInt8 := scannedAfter false text

theorem scannedAfter_cons_of_ne_zero {b : UInt8} (h : b ≠ 0) (inWord : Bool) (bs : List UInt8) :
    scannedAfter inWord (b :: bs) = b :: scannedAfter (!isBlank b) bs := by
  rw [scannedAfter, if_neg h]

theorem ne_zero_of_isBlank {b : UInt8} (h : isBlank b = true) : b ≠ 0 := by
  rintro rfl
  cases h

/-- Leading blanks are read as they are. -/
theorem dropWhile_isBlank_scannedAfter (text : List UInt8) :
    (scannedAfter false text).dropWhile isBlank = scannedAfter false (text.dropWhile isBlank) ∧
      (scannedAfter false text).takeWhile isBlank = text.takeWhile isBlank := by
  induction text with
  | nil => exact ⟨rfl, rfl⟩
  | cons b bs ih =>
    by_cases hb : isBlank b = true
    · have hne := ne_zero_of_isBlank hb
      have hcons : scannedAfter false (b :: bs) = b :: scannedAfter false bs := by
        rw [scannedAfter_cons_of_ne_zero hne, hb]
        rfl
      rw [hcons, List.dropWhile_cons_of_pos hb, List.dropWhile_cons_of_pos hb,
        List.takeWhile_cons_of_pos hb, List.takeWhile_cons_of_pos hb, ih.2]
      exact ⟨ih.1, rfl⟩
    · rw [List.dropWhile_cons_of_neg hb, List.takeWhile_cons_of_neg hb]
      by_cases hz : b = 0
      · subst hz
        exact ⟨rfl, rfl⟩
      · rw [scannedAfter_cons_of_ne_zero hz, List.dropWhile_cons_of_neg hb, List.takeWhile_cons_of_neg hb]
        exact ⟨rfl, rfl⟩

/-- The first word is read as it is. -/
theorem takeWhile_scannedAfter (inWord : Bool) (text : List UInt8) :
    (scannedAfter inWord text).takeWhile (fun b => !isBlank b) =
      text.takeWhile Dictionary.isWordByte := by
  induction text generalizing inWord with
  | nil => rfl
  | cons b bs ih =>
    by_cases hz : b = 0
    · subst hz
      cases inWord <;> rfl
    · rw [scannedAfter_cons_of_ne_zero hz]
      cases hb : isBlank b with
      | true => simp [Dictionary.isWordByte, hb]
      | false => simp [Dictionary.isWordByte, hb, hz, ih]

/-- The byte that ends a word is read as a blank, and what follows it as if the text began there. -/
theorem drop_scannedAfter_true (text : List UInt8) :
    (scannedAfter true text).drop ((text.takeWhile Dictionary.isWordByte).length + 1) =
      scannedAfter false (text.drop ((text.takeWhile Dictionary.isWordByte).length + 1)) := by
  induction text with
  | nil => rfl
  | cons b bs ih =>
    by_cases hz : b = 0
    · subst hz
      rfl
    · rw [scannedAfter_cons_of_ne_zero hz]
      cases hb : isBlank b with
      | true => simp [Dictionary.isWordByte, hb]
      | false => simp [Dictionary.isWordByte, hb, hz, ih]

theorem scannedAfter_of_ne_zero (h : ∀ b ∈ text, b ≠ 0) (inWord : Bool) :
    scannedAfter inWord text = text := by
  induction text generalizing inWord with
  | nil => rfl
  | cons b bs ih =>
      rw [scannedAfter_cons_of_ne_zero (h b List.mem_cons_self),
        ih fun c hc => h c (List.mem_cons_of_mem b hc)]

/-- In a text without a zero everything is read. -/
theorem scanned_of_ne_zero (h : ∀ b ∈ text, b ≠ 0) : scanned text = text :=
  scannedAfter_of_ne_zero h false

theorem length_scannedAfter_le (inWord : Bool) (text : List UInt8) :
    (scannedAfter inWord text).length ≤ text.length := by
  induction text generalizing inWord with
  | nil => exact Nat.le_refl 0
  | cons b bs ih =>
      by_cases hz : b = 0
      · subst hz
        cases inWord with
        | false => exact Nat.zero_le _
        | true => exact Nat.succ_le_succ (ih false)
      · rw [scannedAfter_cons_of_ne_zero hz]
        exact Nat.succ_le_succ (ih _)

theorem length_scanned_le (text : List UInt8) : (scanned text).length ≤ text.length :=
  length_scannedAfter_le false text

/-- What is read and not blank is a byte of the text, at the same place. -/
theorem getElem?_of_scannedAfter {inWord : Bool} {b : UInt8} {x : Nat}
    (hb : (scannedAfter inWord text)[x]? = some b) (hblank : isBlank b = false) :
    text[x]? = some b := by
  induction text generalizing inWord x with
  | nil => cases hb
  | cons c cs ih =>
      by_cases hz : c = 0
      · subst hz
        cases inWord with
        | false => cases hb
        | true =>
            cases x with
            | zero =>
                -- a blank is read in the place of the zero
                cases hb
                cases hblank
            | succ x => exact ih hb
      · rw [scannedAfter_cons_of_ne_zero hz] at hb
        cases x with
        | zero => exact hb
        | succ x => exact ih hb

/-- Before `k` no word stands, and from there on the text is read as if it began there. -/
structure Restarts (text : List UInt8) (k : Nat) : Prop where
  drop_eq : (scanned text).drop k = scanned (text.drop k)
  before : 0 < k → ∀ b ∈ (scanned text)[k - 1]?, isBlank b = true

theorem restarts_zero (text : List UInt8) : Restarts text 0 := ⟨rfl, fun h => absurd h (by omega)⟩

/-- After the blanks from `k` on and the word that follows them, and the byte after it, the text is
again read as if it began there. -/
theorem Restarts.next {n w : Nat} (h : Restarts text k)
    (hn : ((text.drop k).takeWhile isBlank).length = n)
    (hw : ((text.drop (k + n)).takeWhile Dictionary.isWordByte).length = w) (hpos : 0 < w) :
    (∀ x, k ≤ x → x < k + n → ∀ b ∈ (scanned text)[x]?, isBlank b = true) ∧
      IsWord (scanned text) (k + n) (k + n + w) ∧ Restarts text (k + n + w + 1) := by
  obtain ⟨hdropWhile, htakeWhile⟩ := dropWhile_isBlank_scannedAfter (text.drop k)
  have hblanks : (((scanned text).drop k).takeWhile isBlank).length = n := by
    rw [h.drop_eq, scanned, htakeWhile, hn]
  have hskip : (scanned text).drop (k + n) = scanned (text.drop (k + n)) :=
    calc (scanned text).drop (k + n) = ((scanned text).drop k).dropWhile isBlank := by
          rw [← Dictionary.drop_length_takeWhile, hblanks, List.drop_drop]
      _ = scannedAfter false ((text.drop k).dropWhile isBlank) := by
          rw [h.drop_eq, scanned, hdropWhile]
      _ = scanned (text.drop (k + n)) := by
          rw [← Dictionary.drop_length_takeWhile, hn, List.drop_drop]
          rfl
  have hword : (((scanned text).drop (k + n)).takeWhile fun b => !isBlank b).length = w := by
    rw [hskip, scanned, takeWhile_scannedAfter, hw]
  obtain ⟨hblank, hisWord⟩ := isWord_of_takeWhile hblanks hword hpos h.before
  refine ⟨hblank, hisWord, ?_, fun _ => hisWord.after⟩
  -- the first byte after the blanks is of a word, so it does not matter what stands before it
  have hafter : scanned (text.drop (k + n)) = scannedAfter true (text.drop (k + n)) := by
    cases hrest : text.drop (k + n) with
    | nil => rfl
    | cons b bs =>
        have hne : b ≠ 0 := by
          rintro rfl
          rw [hrest] at hw
          rw [← hw] at hpos
          cases hpos
        rw [scanned, scannedAfter_cons_of_ne_zero hne, scannedAfter_cons_of_ne_zero hne]
  rw [Nat.add_assoc (k + n), ← List.drop_drop, hskip, hafter, ← hw, drop_scannedAfter_true,
    List.drop_drop]
  rfl

/-- Where the text ends after the blanks from `k` on, or a zero follows them, nothing but blanks is read. -/
theorem Restarts.isBlank_of_stop (h : Restarts text k)
    (hstop : ∀ b ∈ ((text.drop k).dropWhile isBlank).head?, b = 0) {x : Nat} (hx : k ≤ x) :
    ∀ b ∈ (scanned text)[x]?, isBlank b = true := by
  have hrest : ((scanned text).drop k).dropWhile isBlank = [] := by
    rw [h.drop_eq, scanned, (dropWhile_isBlank_scannedAfter _).1]
    cases hdrop : (text.drop k).dropWhile isBlank with
    | nil => rfl
    | cons b bs =>
        rw [hdrop] at hstop
        obtain rfl := hstop b rfl
        rfl
  intro b hb
  have hget : ((scanned text).drop k)[x - k]? = (scanned text)[x]? := by
    rw [List.getElem?_drop, Nat.add_sub_cancel' hx]
  exact List.dropWhile_eq_nil_iff.1 hrest b (List.mem_of_getElem? (hget.trans hb))

/-- A word that is read is bytes of the text, at the same place. -/
theorem IsWord.of_scanned (h : IsWord (scanned text) i j) :
    j ≤ text.length ∧ (text.drop i).take (j - i) = ((scanned text).drop i).take (j - i) := by
  have hlt := h.lt
  have hle := h.le_length
  have hbyte : ∀ x, i ≤ x → x < j → text[x]? = (scanned text)[x]? := by
    intro x hx hxj
    have hb : (scanned text)[x]? = some (scanned text)[x] := List.getElem?_eq_getElem (by omega)
    rw [hb, getElem?_of_scannedAfter hb (h.not_blank x hx hxj _ hb)]
  refine ⟨Nat.le_trans hle (length_scanned_le text), List.ext_getElem? fun x => ?_⟩
  rw [List.getElem?_take, List.getElem?_take]
  split
  · rw [List.getElem?_drop, List.getElem?_drop, hbyte (i + x) (by omega) (by omega)]
  · rfl

end Text

end ThreadedForth
