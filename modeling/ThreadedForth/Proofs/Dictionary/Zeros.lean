import ThreadedForth.Proofs.Dictionary.Tokens

/-!
# Where a zero does not end a text

The words of a text are those before its first zero, unless a word stands directly before that zero and
something follows it that is not again a zero (`Text.RunsOn`). Reading takes the zero for the byte that
ends the word, as it would take a blank, and goes on after it. This is so for every text
(`Text.isWord_scanned_iff`) and for every line that is loaded (`tokenizes_loadInput_iff`).
-/

set_option autoImplicit false

namespace ThreadedForth

namespace Text

variable {text front back : List UInt8} {i j : Nat}

/-- The bytes of a text before its first zero. -/
def beforeZero (text : List UInt8) : List UInt8 := text.takeWhile (· != 0)

/-- A word stands directly before the first zero, and after the blanks that follow the zero there is
something, and no other zero. -/
def RunsOn (text : List UInt8) : Prop :=
  (∃ b ∈ (beforeZero text).getLast?, isBlank b = false) ∧
    ∃ b ∈ ((text.drop ((beforeZero text).length + 1)).dropWhile isBlank).head?, b ≠ 0

instance (text : List UInt8) : Decidable (RunsOn text) := inferInstanceAs (Decidable (_ ∧ _))

/-! ## Words of a text and of its beginning -/

/-- Blanks at the end make no difference to the words. -/
theorem isWord_append_iff (hblank : ∀ b ∈ back, isBlank b = true) :
    IsWord (front ++ back) i j ↔ IsWord front i j := by
  have hsame : ∀ x, x < front.length → (front ++ back)[x]? = front[x]? := fun x hx =>
    List.getElem?_append_left hx
  have hback : ∀ x, front.length ≤ x → ∀ b ∈ (front ++ back)[x]?, isBlank b = true := by
    intro x hx b hb
    rw [List.getElem?_append_right hx] at hb
    exact hblank b (List.mem_of_getElem? hb)
  constructor
  · intro h
    have hlt := h.lt
    have hle : j ≤ front.length := by
      -- the last byte of a word is not blank
      refine Nat.le_of_not_lt fun hgt => ?_
      have hlen := h.le_length
      have hb : (front ++ back)[j - 1]? = some (front ++ back)[j - 1] :=
        List.getElem?_eq_getElem (by omega)
      have hyes := hback (j - 1) (by omega) _ hb
      rw [h.not_blank (j - 1) (by omega) (by omega) _ hb] at hyes
      cases hyes
    refine ⟨hlt, hle, fun x hx hxj b hb => ?_, fun hpos b hb => ?_, fun b hb => ?_⟩
    · exact h.not_blank x hx hxj b (by rwa [hsame x (by omega)])
    · exact h.before hpos b (by rwa [hsame (i - 1) (by omega)])
    · have hj := (List.getElem?_eq_some_iff.1 hb).1
      exact h.after b (by rwa [hsame j hj])
  · intro h
    have hlt := h.lt
    have hle := h.le_length
    refine ⟨hlt, ?_, fun x hx hxj b hb => ?_, fun hpos b hb => ?_, fun b hb => ?_⟩
    · rw [List.length_append]
      omega
    · exact h.not_blank x hx hxj b (by rwa [← hsame x (by omega)])
    · exact h.before hpos b (by rwa [← hsame (i - 1) (by omega)])
    · rcases Nat.lt_or_ge j front.length with hj | hj
      · exact h.after b (by rwa [← hsame j hj])
      · exact hback j hj b hb

/-- What is not blank after a blank is of a word that begins there. -/
theorem exists_isWord_append (front : List UInt8) {c : UInt8} (hc : isBlank c = true)
    (hrest : ∃ b ∈ back, isBlank b = false) :
    ∃ i j, IsWord (front ++ c :: back) i j ∧ front.length < i := by
  have hdrop : (front ++ c :: back).drop (front.length + 1) = back := by
    rw [List.drop_append, List.drop_of_length_le (by omega)]
    simp
  have hskip : (((front ++ c :: back).drop (front.length + 1)).takeWhile isBlank).length =
      (back.takeWhile isBlank).length := by
    rw [hdrop]
  have hword : (((front ++ c :: back).drop (front.length + 1 + (back.takeWhile isBlank).length)).takeWhile
      fun b => !isBlank b).length = ((back.dropWhile isBlank).takeWhile fun b => !isBlank b).length := by
    rw [← List.drop_drop, hdrop, Dictionary.drop_length_takeWhile]
  have hpos : 0 < ((back.dropWhile isBlank).takeWhile fun b => !isBlank b).length := by
    cases hafter : back.dropWhile isBlank with
    | nil =>
        obtain ⟨b, hb, hno⟩ := hrest
        rw [List.dropWhile_eq_nil_iff.1 hafter b hb] at hno
        cases hno
    | cons b bs =>
        have hhead := List.head?_dropWhile_not isBlank back
        rw [hafter] at hhead
        have hb : (!isBlank b) = true := by simpa using hhead
        rw [List.takeWhile_cons_of_pos (p := fun b => !isBlank b) hb]
        exact Nat.succ_pos _
  have hbefore : 0 < front.length + 1 →
      ∀ b ∈ (front ++ c :: back)[front.length + 1 - 1]?, isBlank b = true := by
    intro _ b hb
    rw [Nat.add_sub_cancel, List.getElem?_append_right (Nat.le_refl _), Nat.sub_self] at hb
    obtain rfl : c = b := Option.some.inj hb
    exact hc
  obtain ⟨-, hisWord⟩ := isWord_of_takeWhile hskip hword hpos hbefore
  exact ⟨_, _, hisWord, by omega⟩

/-- What comes after a word and is not all blank adds another word. -/
theorem isWord_append_iff_forall (hhead : ∀ c ∈ back.head?, isBlank c = true) :
    (∀ i j, IsWord (front ++ back) i j ↔ IsWord front i j) ↔ ∀ b ∈ back, isBlank b = true := by
  constructor
  · intro hsame b hb
    cases back with
    | nil => cases hb
    | cons c cs =>
        have hc := hhead c rfl
        rcases List.mem_cons.1 hb with rfl | hb
        · exact hc
        · by_contra hno
          obtain ⟨i, j, hword, hi⟩ := exists_isWord_append front hc
            ⟨b, hb, Bool.eq_false_iff.2 hno⟩
          have hfront := (hsame i j).1 hword
          have hlt := hfront.lt
          have hle := hfront.le_length
          omega
  · exact fun hblank i j => isWord_append_iff hblank

/-! ## Words before the first zero -/

/-- What is read is the bytes before the first zero and what is read after them. -/
theorem scannedAfter_append (hne : ∀ b ∈ front, b ≠ 0) (inWord : Bool) :
    scannedAfter inWord (front ++ back) =
      front ++ scannedAfter (front.foldl (fun _ b => !isBlank b) inWord) back := by
  induction front generalizing inWord with
  | nil => rfl
  | cons b bs ih =>
      rw [List.cons_append, scannedAfter_cons_of_ne_zero (hne b List.mem_cons_self),
        ih (fun c hc => hne c (List.mem_cons_of_mem b hc))]
      rfl

theorem foldl_not_isBlank (front : List UInt8) :
    front.foldl (fun _ b => !isBlank b) false = true ↔ ∃ b ∈ front.getLast?, isBlank b = false := by
  rcases List.eq_nil_or_concat front with rfl | ⟨bs, b, rfl⟩
  · simp
  · simp

/-- Something other than blanks is read where another byte than a zero follows the blanks. -/
theorem exists_mem_scanned_iff (text : List UInt8) :
    (∃ b ∈ scanned text, isBlank b = false) ↔ ∃ b ∈ (text.dropWhile isBlank).head?, b ≠ 0 := by
  have hdrop : (scanned text).dropWhile isBlank = scannedAfter false (text.dropWhile isBlank) :=
    (dropWhile_isBlank_scannedAfter text).1
  have hall : (∃ b ∈ scanned text, isBlank b = false) ↔
      (scanned text).dropWhile isBlank ≠ [] := by
    rw [ne_eq, List.dropWhile_eq_nil_iff]
    simp
  rw [hall, hdrop]
  cases text.dropWhile isBlank with
  | nil => simp [scannedAfter]
  | cons b bs =>
      by_cases hz : b = 0
      · subst hz
        simp [scannedAfter]
      · rw [scannedAfter_cons_of_ne_zero hz]
        simp [hz]

theorem ne_zero_of_mem_beforeZero {b : UInt8} (hb : b ∈ beforeZero text) : b ≠ 0 := by
  simpa using List.mem_takeWhile_imp hb

/-- What is read of a text begins with what comes before its first zero. -/
theorem scanned_eq_append (text : List UInt8) : scanned text = beforeZero text ++
    scannedAfter ((beforeZero text).foldl (fun _ b => !isBlank b) false) (text.dropWhile (· != 0)) := by
  have hparts : beforeZero text ++ text.dropWhile (· != 0) = text := List.takeWhile_append_dropWhile
  rw [← scannedAfter_append fun b hb => ne_zero_of_mem_beforeZero hb, hparts, scanned]

theorem length_beforeZero_le (text : List UInt8) : (beforeZero text).length ≤ text.length :=
  (List.takeWhile_prefix _).length_le

/-- The words that are read are those before the first zero, but where a text runs on. -/
theorem isWord_scanned_iff (text : List UInt8) :
    (∀ i j, IsWord (scanned text) i j ↔ IsWord (beforeZero text) i j) ↔ ¬ RunsOn text := by
  have hrest : text.drop ((beforeZero text).length + 1) = (text.dropWhile (· != 0)).drop 1 := by
    rw [← List.drop_drop]
    exact congrArg (List.drop 1) (Dictionary.drop_length_takeWhile _ text)
  have hhead := List.head?_dropWhile_not (· != 0) text
  rw [RunsOn, hrest, scanned_eq_append, ← foldl_not_isBlank]
  generalize text.dropWhile (· != 0) = back at hhead ⊢
  generalize (beforeZero text).foldl (fun _ b => !isBlank b) false = inWord
  have hnone : ∀ c ∈ ([] : List UInt8).head?, isBlank c = true := fun c hc => nomatch hc
  -- nothing more is read, or a blank in the place of the zero and what is read after it
  cases back with
  | nil => exact (isWord_append_iff_forall hnone).trans (by simp)
  | cons b bs =>
      obtain rfl : b = 0 := by simpa using hhead
      cases inWord with
      | false => exact (isWord_append_iff_forall hnone).trans (by simp)
      | true =>
          have hblank : isBlank 32 = true := by decide
          have hfirst : ∀ c ∈ (32 :: scanned bs).head?, isBlank c = true := by
            intro c hc
            obtain rfl : 32 = c := Option.some.inj hc
            exact hblank
          refine (isWord_append_iff_forall hfirst).trans ?_
          rw [List.drop_succ_cons, List.drop_zero, ← exists_mem_scanned_iff bs]
          simp [hblank]

end Text

namespace Dictionary

variable {d d' d'' : Dictionary} {start : Addr} {text text' : List UInt8}

/-! ## Reading a text with zeros -/

/-- Bytes of the memory lie at different places. -/
theorem place_inj {v w : Nat × Nat} (hv : v.1 < 65536 ∧ v.2 < 65536) (hw : w.1 < 65536 ∧ w.2 < 65536)
    (h : place start v = place start w) : v = w := by
  have hnat : ∀ m n : Nat, m < 65536 → n < 65536 → start + UInt16.ofNat m = start + UInt16.ofNat n →
      m = n := by
    intro m n hm hn heq
    have hbits := congrArg UInt16.toNat (UInt16.add_right_inj start |>.1 heq)
    rwa [UInt16.toNat_ofNat_of_lt' hm, UInt16.toNat_ofNat_of_lt' hn] at hbits
  injection h with hstart hstop
  exact Prod.ext (hnat _ _ hv.1 hw.1 hstart) (hnat _ _ hv.2 hw.2 hstop)

/-- What is read are the words of one text only. -/
theorem Tokenizes.isWord_of_isWord (h : d.Tokenizes start text) (h' : d.Tokenizes start text')
    (hlen : text.length < 65536) (hlen' : text'.length < 65536) {i j : Nat}
    (hword : Text.IsWord text i j) : Text.IsWord text' i j := by
  obtain ⟨words, d1, hreads, -, -, hmem, -⟩ := h
  obtain ⟨words', d2, hreads', -, -, hmem', -⟩ := h'
  have hplaces := (hreads.unique hreads').1
  have hplace : place start (i, j) ∈ words'.map (place start) :=
    hplaces ▸ List.mem_map_of_mem ((hmem i j).2 hword)
  obtain ⟨w, hw, heq⟩ := List.mem_map.1 hplace
  have hword' := (hmem' w.1 w.2).1 hw
  have hlt := hword.lt
  have hle := hword.le_length
  have hlt' := hword'.lt
  have hle' := hword'.le_length
  obtain rfl : w = (i, j) := place_inj ⟨by omega, by omega⟩ ⟨by omega, by omega⟩ heq
  exact hword'

/-- The beginning of a text is read as well as the text if it has the same words. -/
theorem Tokenizes.of_isWord_iff {back : List UInt8} (h : d.Tokenizes start (text ++ back))
    (hwords : ∀ i j, Text.IsWord (text ++ back) i j ↔ Text.IsWord text i j) : d.Tokenizes start text := by
  obtain ⟨words, d', hreads, hended, hsorted, hmem, htext⟩ := h
  refine ⟨words, d', hreads, hended, hsorted, fun i j => (hmem i j).trans (hwords i j), fun w hw => ?_⟩
  have hword := (hwords w.1 w.2).1 ((hmem w.1 w.2).1 hw)
  have hlt := hword.lt
  have hle := hword.le_length
  rw [htext w hw, List.drop_append_of_le_length (by omega), List.take_append_of_le_length]
  rw [List.length_drop]
  omega

/-- A source is read as what is read of it, and as what comes before its first zero unless it runs on. -/
theorem Sourced.tokenizes_beforeZero_iff (h : d.Sourced start text 0) :
    d.Tokenizes start (Text.scanned text) ∧
      (d.Tokenizes start (Text.beforeZero text) ↔ ¬ Text.RunsOn text) := by
  have hall := h.tokenizes_scanned
  have hback := Text.scanned_eq_append text
  have hlen := h.length_le
  have hlength := Text.length_scanned_le text
  have hlength' := Text.length_beforeZero_le text
  refine ⟨hall, fun hzero => (Text.isWord_scanned_iff text).1 fun i j => ⟨?_, ?_⟩, fun hno => ?_⟩
  · exact hall.isWord_of_isWord hzero (by omega) (by omega)
  · exact hzero.isWord_of_isWord hall (by omega) (by omega)
  · have hwords := (Text.isWord_scanned_iff text).2 hno
    rw [hback] at hall hwords
    exact hall.of_isWord_iff hwords

/-! ## A line with zeros -/

variable {line : List UInt8}

theorem tokenizes_nil (start : Addr) (h : d.hasInput = false) : d.Tokenizes start [] := by
  refine ⟨[], d, .done h, h, .nil, fun i j => ⟨fun hmem => absurd hmem List.not_mem_nil, ?_⟩,
    fun w hw => absurd hw List.not_mem_nil⟩
  intro hword
  have hlt := hword.lt
  have hle : j ≤ 0 := hword.le_length
  omega

/-- A line is read as what is read of the bytes that the memory holds of it. These are the words before
the first zero, unless the bytes run on. -/
theorem tokenizes_loadInput_iff (d : Dictionary) (line : List UInt8)
    (hlen : line.length ≤ Layout.inputCapacity) :
    ∃ d', loadInput line d = .ok () d' ∧
      d'.Tokenizes Layout.inputBuffer (Text.scanned (d.held line)) ∧
      (d'.Tokenizes Layout.inputBuffer (Text.beforeZero (d.held line)) ↔
        ¬ Text.RunsOn (d.held line)) := by
  obtain ⟨d', hload⟩ := exists_loadInput_eq_ok d hlen
  refine ⟨d', hload, ?_⟩
  rcases Nat.lt_or_ge d.capacity Layout.inputBuffer.toNat with hsmall | hcap
  · -- the buffer lies outside the memory, and there is nothing to read
    have hheld : d.held line = List.replicate line.length 0 := by
      rw [held, Nat.sub_eq_zero_of_le (Nat.le_of_lt hsmall)]
      rfl
    have hscanned : Text.scanned (d.held line) = [] := by
      rw [hheld]
      cases line.length <;> rfl
    have hzero : Text.beforeZero (d.held line) = [] := by
      rw [hheld]
      cases line.length <;> rfl
    have hnone := tokenizes_nil Layout.inputBuffer
      (hasInput_of_capacity_le (Nat.le_of_lt hsmall) hload)
    rw [hscanned, hzero]
    refine ⟨hnone, fun _ hruns => ?_, fun _ => hnone⟩
    obtain ⟨b, hb, -⟩ := hruns.1
    rw [hzero] at hb
    cases hb
  · exact (sourced_of_loadInput hcap hload).tokenizes_beforeZero_iff

/-- The zero in `a\0b` ends the word `a` and not the text. The one in `a \0b` ends the text. -/
theorem tokenizes_loadInput_zeros :
    (∃ d', loadInput [97, 0, 98] ⟨.sparse (.zeros 65536)⟩ = .ok () d' ∧
      d'.Tokenizes Layout.inputBuffer [97, 32, 98] ∧ ¬ d'.Tokenizes Layout.inputBuffer [97]) ∧
    ∃ d', loadInput [97, 32, 0, 98] ⟨.sparse (.zeros 65536)⟩ = .ok () d' ∧
      d'.Tokenizes Layout.inputBuffer [97, 32] := by
  have hheld : ∀ line : List UInt8, line.length ≤ 80 →
      held ⟨.sparse (.zeros 65536)⟩ line = line := fun line hlen =>
    held_of_le (Nat.le_trans (Nat.add_le_add_left hlen _) (by decide +kernel))
  constructor
  · obtain ⟨d', hload, hscanned, hiff⟩ := tokenizes_loadInput_iff
      ⟨.sparse (.zeros 65536)⟩ [97, 0, 98] (by decide)
    rw [hheld _ (by decide)] at hscanned hiff
    exact ⟨d', hload, hscanned, fun h => hiff.1 h (by decide)⟩
  · obtain ⟨d', hload, -, hiff⟩ := tokenizes_loadInput_iff
      ⟨.sparse (.zeros 65536)⟩ [97, 32, 0, 98] (by decide)
    rw [hheld _ (by decide)] at hiff
    exact ⟨d', hload, hiff.2 (by decide)⟩

end Dictionary

end ThreadedForth
