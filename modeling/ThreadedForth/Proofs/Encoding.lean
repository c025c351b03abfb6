import ThreadedForth.Text.Utf8

/-!
# Where encoded text may be cut

A character is one ASCII byte or several bytes of which none is ASCII (`utf8EncodeChar_ascii_or`). So a text
that is cut before or after an ASCII byte falls into two texts, and no character is cut in two
(`exists_append_of_isCut`).
-/

set_option autoImplicit false

namespace ThreadedForth.Text

variable {i j : Nat}

/-! ## Encoding -/

theorem encode_ofList (cs : List Char) :
    encode (String.ofList cs) = cs.flatMap String.utf8EncodeChar := by
  simp [encode, String.toByteArray_ofList, List.utf8Encode]

theorem encode_empty : encode "" = [] := rfl

theorem encode_append (s t : String) : encode (s ++ t) = encode s ++ encode t := by
  simp [encode]

/-- What was encoded is spelled by its bytes. -/
theorem decode?_encode (s : String) : decode? (encode s) = some s := by
  have hvalid : (⟨s.toByteArray.data.toList.toArray⟩ : ByteArray).IsValidUTF8 := s.isValidUTF8
  rw [decode?, encode, String.toUTF8_eq_toByteArray, String.fromUTF8?, dif_pos hvalid]
  rfl

/-- Bytes that spell a text are its bytes. -/
theorem encode_eq_of_decode?_eq_some {bytes : List UInt8} {s : String} (h : decode? bytes = some s) :
    encode s = bytes := by
  unfold decode? String.fromUTF8? at h
  split at h
  · cases h
    rfl
  · cases h

/-! ## The bytes of a character -/

/-- The mark in the high bits of a byte makes it large. -/
theorem le_ofNat_mod_add {m k : Nat} (v : Nat) (hm : 0 < m) (hk : 128 ≤ k) (h : m + k ≤ 256) :
    128 ≤ UInt8.ofNat (v % m + k) := by
  have hlt := Nat.mod_lt v hm
  rw [UInt8.le_iff_toNat_le, UInt8.toNat_ofNat_of_lt' (by show _ < 256; omega)]
  exact Nat.le_trans hk (Nat.le_add_left k _)

/-- A character is an ASCII byte, or none of its bytes is one. -/
theorem utf8EncodeChar_ascii_or (c : Char) :
    (∃ b, b < 128 ∧ String.utf8EncodeChar c = [b]) ∨ ∀ b ∈ String.utf8EncodeChar c, 128 ≤ b := by
  unfold String.utf8EncodeChar
  dsimp only
  split
  · rename_i hle
    refine .inl ⟨_, ?_, rfl⟩
    rw [UInt8.lt_iff_toNat_lt, UInt8.toNat_ofNat_of_lt' (Nat.lt_of_le_of_lt hle (by decide))]
    exact Nat.lt_succ_of_le hle
  · right
    split
    · simp only [List.mem_cons, List.not_mem_nil, or_false]
      rintro b (rfl | rfl) <;> exact le_ofNat_mod_add _ (by decide) (by decide) (by decide)
    · split
      · simp only [List.mem_cons, List.not_mem_nil, or_false]
        rintro b (rfl | rfl | rfl) <;> exact le_ofNat_mod_add _ (by decide) (by decide) (by decide)
      · simp only [List.mem_cons, List.not_mem_nil, or_false]
        rintro b (rfl | rfl | rfl | rfl) <;>
          exact le_ofNat_mod_add _ (by decide) (by decide) (by decide)

/-! ## Cuts -/

/-- The bytes can be cut at `i` without harm to a character: there they begin or end, or the byte before or
the byte after is ASCII. -/
def IsCut (bytes : List UInt8) (i : Nat) : Prop :=
  i = 0 ∨ i = bytes.length ∨ (∃ b ∈ bytes[i - 1]?, b < 128) ∨ ∃ b ∈ bytes[i]?, b < 128

/-- No cut is inside of a character. -/
theorem IsCut.le_of_utf8EncodeChar_append {c : Char} {bytes : List UInt8}
    (h : IsCut (String.utf8EncodeChar c ++ bytes) i) (hpos : 0 < i) :
    (String.utf8EncodeChar c).length ≤ i := by
  refine Nat.le_of_not_lt fun hlt => ?_
  rcases utf8EncodeChar_ascii_or c with ⟨b, -, heq⟩ | hlarge
  · rw [heq] at hlt
    exact absurd hlt (Nat.not_lt.2 hpos)
  · have hinside : ∀ k < (String.utf8EncodeChar c).length,
        ∀ b ∈ (String.utf8EncodeChar c ++ bytes)[k]?, ¬ b < 128 := by
      intro k hk b hb
      rw [List.getElem?_append_left hk] at hb
      exact UInt8.not_lt.2 (hlarge b (List.mem_of_getElem? hb))
    rcases h with rfl | rfl | ⟨b, hb, hsmall⟩ | ⟨b, hb, hsmall⟩
    · exact Nat.lt_irrefl 0 hpos
    · rw [List.length_append] at hlt
      omega
    · exact hinside (i - 1) (by omega) b hb hsmall
    · exact hinside i hlt b hb hsmall

/-- Behind a character there is a cut where there is one in what follows it. -/
theorem IsCut.of_append {bytes bytes' : List UInt8} (h : IsCut (bytes ++ bytes') (bytes.length + i)) :
    IsCut bytes' i := by
  rcases Nat.eq_zero_or_pos i with rfl | hpos
  · exact .inl rfl
  · rcases h with hzero | hend | ⟨b, hb, hsmall⟩ | ⟨b, hb, hsmall⟩
    · omega
    · rw [List.length_append] at hend
      exact .inr (.inl (by omega))
    · rw [List.getElem?_append_right (by omega)] at hb
      refine .inr (.inr (.inl ⟨b, ?_, hsmall⟩))
      rwa [show bytes.length + i - 1 - bytes.length = i - 1 by omega] at hb
    · rw [List.getElem?_append_right (by omega), Nat.add_sub_cancel_left] at hb
      exact .inr (.inr (.inr ⟨b, hb, hsmall⟩))

/-- At a cut the characters fall in two. The induction is on the characters before it. -/
theorem exists_append_of_isCut_chars (cs : List Char) (hi : i ≤ (cs.flatMap String.utf8EncodeChar).length)
    (h : IsCut (cs.flatMap String.utf8EncodeChar) i) :
    ∃ front back, front ++ back = cs ∧ (front.flatMap String.utf8EncodeChar).length = i := by
  induction cs generalizing i with
  | nil => exact ⟨[], [], rfl, (Nat.le_zero.1 hi).symm⟩
  | cons c cs ih =>
      rcases Nat.eq_zero_or_pos i with rfl | hpos
      · exact ⟨[], c :: cs, rfl, rfl⟩
      · rw [List.flatMap_cons] at hi h
        obtain ⟨k, rfl⟩ := Nat.exists_eq_add_of_le (h.le_of_utf8EncodeChar_append hpos)
        rw [List.length_append] at hi
        obtain ⟨front, back, rfl, hlength⟩ := ih (by omega) h.of_append
        refine ⟨c :: front, back, rfl, ?_⟩
        rw [List.flatMap_cons, List.length_append, hlength]

/-- At a cut a text falls in two. -/
theorem exists_append_of_isCut {s : String} (hi : i ≤ (encode s).length) (h : IsCut (encode s) i) :
    ∃ front back, front ++ back = s ∧ (encode front).length = i := by
  obtain ⟨cs, rfl⟩ := String.exists_eq_ofList s
  rw [encode_ofList] at hi h
  obtain ⟨front, back, rfl, hlength⟩ := exists_append_of_isCut_chars cs hi h
  refine ⟨.ofList front, .ofList back, String.ofList_append.symm, ?_⟩
  rw [encode_ofList, hlength]

/-- Two cuts take a part out of a text. -/
theorem exists_append_append_of_isCut {s : String} (hij : i ≤ j) (hj : j ≤ (encode s).length)
    (h : IsCut (encode s) i) (h' : IsCut (encode s) j) :
    ∃ before part after, before ++ part ++ after = s ∧ (encode before).length = i ∧
      (encode before).length + (encode part).length = j := by
  obtain ⟨before, rest, rfl, rfl⟩ := exists_append_of_isCut (Nat.le_trans hij hj) h
  obtain ⟨k, rfl⟩ := Nat.exists_eq_add_of_le hij
  rw [encode_append] at hj h'
  rw [List.length_append] at hj
  obtain ⟨part, after, rfl, hlength⟩ := exists_append_of_isCut (Nat.le_of_add_le_add_left hj) h'.of_append
  exact ⟨before, part, after, String.append_assoc .., rfl, by rw [hlength]⟩

end ThreadedForth.Text
