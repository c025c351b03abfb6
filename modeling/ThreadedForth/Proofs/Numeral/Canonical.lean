import Mathlib.Data.Nat.Digits.Lemmas
import ThreadedForth.Proofs.Numeral

/-!
# Numerals as they are written

A number has many numerals to a base: letters can be capital, and zeros can stand in front. One of
them is canonical (`Canonical`), and that one is written (`canonical_write`, `denotes_write`). So
what was written is read as the number that it was, wrapped to a cell, and a canonical numeral that
was read is written again as it was if its number fits into a cell (`write_read?_inverse`).

The digits are written from the last one on and read from the first one on. Both are the digits of
`Nat.digits` (`digitsFromLast_eq`), except that zero is written with a digit.
-/

set_option autoImplicit false

namespace ThreadedForth.Numeral

/-- The byte `0`. -/
def zeroDigit : UInt8 := 48

/-- The byte is a capital letter. -/
def IsCapital (b : UInt8) : Prop := 'A'.toNat ≤ b.toNat ∧ b.toNat ≤ 'Z'.toNat

/-- One or more digits below the base: letters are small, and no zero stands in front of another
digit. -/
structure Plain (radix : Nat) (bytes : List UInt8) : Prop where
  isDigit : ∀ b ∈ bytes, ∃ d, d < radix ∧ IsDigit b d
  small : ∀ b ∈ bytes, ¬ IsCapital b
  ne_nil : bytes ≠ []
  zero_alone : bytes.head? = some zeroDigit → bytes = [zeroDigit]

/-- The numeral is plain, or it is a plain one other than zero with a minus sign in front. -/
inductive Canonical (radix : Nat) : List UInt8 → Prop
  | plain {bytes : List UInt8} (h : Plain radix bytes) : Canonical radix bytes
  | negated {bytes : List UInt8} (h : Plain radix bytes) (ne_zero : bytes ≠ [zeroDigit]) :
      Canonical radix (minusSign :: bytes)

variable {radix n d : Nat} {b : UInt8} {bytes text : List UInt8} {digits : List Nat}

/-! ## The digits of a number -/

/-- The digits are those of the number; zero has one digit here. -/
theorem digitsFromLast_eq (hradix : 2 ≤ radix) (n : Nat) :
    digitsFromLast radix n = if n = 0 then [0] else Nat.digits radix n := by
  induction n using Nat.strongRecOn with
  | ind n ih =>
      rw [digitsFromLast]
      by_cases hle : radix ≤ n
      · have hn : n ≠ 0 := by omega
        have hdiv : n / radix ≠ 0 := Nat.div_ne_zero_iff.2 ⟨by omega, hle⟩
        have hdigits : Nat.digits radix n = n % radix :: Nat.digits radix (n / radix) :=
          Nat.digits_def' (by omega) (by omega)
        rw [if_pos ⟨hradix, hle⟩, ih (n / radix) (Nat.div_lt_self (by omega) (by omega)),
          if_neg hdiv, if_neg hn, hdigits]
      · rw [if_neg fun h => hle h.2]
        by_cases hn : n = 0
        · simp [hn]
        · rw [if_neg hn, Nat.digits_of_lt radix n hn (by omega)]

theorem digitsFromLast_ne_nil (hradix : 2 ≤ radix) (n : Nat) : digitsFromLast radix n ≠ [] := by
  rw [digitsFromLast_eq hradix]
  split
  · simp
  · exact Nat.digits_ne_nil_iff_ne_zero.2 ‹_›

theorem lt_of_mem_digitsFromLast (hradix : 2 ≤ radix) (h : d ∈ digitsFromLast radix n) :
    d < radix := by
  rw [digitsFromLast_eq hradix] at h
  split at h
  · rw [List.mem_singleton.1 h]
    omega
  · exact Nat.digits_lt_base (by omega) h

theorem ofDigits_reverse_digitsFromLast (hradix : 2 ≤ radix) (n : Nat) :
    ofDigits radix (digitsFromLast radix n).reverse = n := by
  rw [ofDigits, List.reverse_reverse, digitsFromLast_eq hradix]
  split
  · rename_i hn
    simp [hn]
  · exact Nat.ofDigits_digits radix n

/-- The first digit is zero for the number zero only. -/
theorem eq_zero_of_getLast?_digitsFromLast (hradix : 2 ≤ radix)
    (h : (digitsFromLast radix n).getLast? = some 0) : n = 0 := by
  by_contra hn
  rw [digitsFromLast_eq hradix, if_neg hn,
    List.getLast?_eq_some_getLast (Nat.digits_ne_nil_iff_ne_zero.2 hn), Option.some.injEq] at h
  exact Nat.getLast_digit_ne_zero radix hn h

/-- Digits without a zero in front are the digits of their number. -/
theorem digitsFromLast_ofDigits (hradix : 2 ≤ radix) (hlt : ∀ d ∈ digits, d < radix)
    (hne : digits ≠ []) (hzero : digits.head? = some 0 → digits = [0]) :
    digitsFromLast radix (ofDigits radix digits) = digits.reverse := by
  by_cases hhead : digits.head? = some 0
  · simp [hzero hhead, ofDigits, digitsFromLast_eq hradix]
  · have hlast : ∀ h : digits.reverse ≠ [], digits.reverse.getLast h ≠ 0 := by
      intro h hlast
      apply hhead
      rw [← List.getLast?_reverse, List.getLast?_eq_some_getLast h, hlast]
    have hdigits : Nat.digits radix (ofDigits radix digits) = digits.reverse :=
      Nat.digits_ofDigits radix (by omega) _ (fun d hd => hlt d (List.mem_reverse.1 hd)) hlast
    have hpos : ofDigits radix digits ≠ 0 := by
      rw [← Nat.digits_ne_nil_iff_ne_zero (b := radix), hdigits]
      simpa using hne
    rw [digitsFromLast_eq hradix, if_neg hpos, hdigits]

/-! ## Digits as bytes -/

theorem isDigit_digitByte (h : d < 36) : IsDigit (digitByte d) d :=
  digit?_eq_some_iff.1 (digit?_digitByte h)

theorem toNat_digitByte (h : d < 36) :
    (digitByte d).toNat = if d < 10 then 48 + d else 87 + d := by
  rw [digitByte, UInt8.toNat_ofNat']
  split <;> omega

theorem not_isCapital_digitByte (h : d < 36) : ¬ IsCapital (digitByte d) := by
  have hA : 'A'.toNat = 65 := rfl
  have hZ : 'Z'.toNat = 90 := rfl
  have hbyte := toNat_digitByte h
  rw [IsCapital]
  split at hbyte <;> omega

/-- A digit that is no capital letter is as it is written. -/
theorem IsDigit.eq_digitByte (h : IsDigit b d) (hsmall : ¬ IsCapital b) : b = digitByte d := by
  have h0 : '0'.toNat = 48 := rfl
  have ha : 'a'.toNat = 97 := rfl
  have hA : 'A'.toNat = 65 := rfl
  have hZ : 'Z'.toNat = 90 := rfl
  apply UInt8.toNat_inj.1
  cases h with
  | numeric hlt heq =>
      rw [toNat_digitByte (by omega), if_pos hlt]
      omega
  | small hge hlt heq =>
      rw [toNat_digitByte hlt, if_neg (by omega)]
      omega
  | capital hge hlt heq =>
      rw [IsCapital] at hsmall
      omega

theorem Digits.eq_map_digitByte (h : Digits radix bytes digits)
    (hsmall : ∀ b ∈ bytes, ¬ IsCapital b) : bytes = digits.map digitByte := by
  obtain ⟨hall, -⟩ := h
  induction hall with
  | nil => rfl
  | cons hd hall ih =>
      obtain ⟨hb, hrest⟩ := List.forall_mem_cons.1 hsmall
      rw [List.map_cons, ← hd.eq_digitByte hb, ← ih hrest]

theorem digits_map_digitByte (hradix : radix ≤ 36) (h : ∀ d ∈ digits, d < radix) :
    Digits radix (digits.map digitByte) digits := by
  refine ⟨?_, h⟩
  rw [List.forall₂_map_left_iff, List.forall₂_same]
  intro d hd
  have hlt := h d hd
  exact isDigit_digitByte (by omega)

theorem digitByte_eq_zeroDigit_iff (h : d < 36) : digitByte d = zeroDigit ↔ d = 0 := by
  constructor
  · intro heq
    have hbyte := toNat_digitByte h
    rw [heq] at hbyte
    change 48 = _ at hbyte
    split at hbyte <;> omega
  · rintro rfl
    rfl

/-! ## Numerals without a sign -/

/-- The numeral of a natural number. -/
def numeral (radix n : Nat) : List UInt8 := ((digitsFromLast radix n).map digitByte).reverse

theorem numeral_eq_map (radix n : Nat) :
    numeral radix n = (digitsFromLast radix n).reverse.map digitByte := List.map_reverse.symm

theorem digits_numeral (hradix : 2 ≤ radix) (htop : radix ≤ 36) (n : Nat) :
    Digits radix (numeral radix n) (digitsFromLast radix n).reverse := by
  rw [numeral_eq_map]
  apply digits_map_digitByte htop
  intro d hd
  exact lt_of_mem_digitsFromLast hradix (List.mem_reverse.1 hd)

theorem numeral_ne_nil (hradix : 2 ≤ radix) (n : Nat) : numeral radix n ≠ [] := by
  simpa [numeral] using digitsFromLast_ne_nil hradix n

theorem numeral_zero (hradix : 2 ≤ radix) : numeral radix 0 = [zeroDigit] := by
  rw [numeral, digitsFromLast_eq hradix]
  rfl

theorem plain_numeral (hradix : 2 ≤ radix) (htop : radix ≤ 36) (n : Nat) :
    Plain radix (numeral radix n) := by
  have hmem : ∀ b ∈ numeral radix n, ∃ d, d < radix ∧ b = digitByte d := by
    intro b hb
    rw [numeral_eq_map, List.mem_map] at hb
    obtain ⟨d, hd, rfl⟩ := hb
    exact ⟨d, lt_of_mem_digitsFromLast hradix (List.mem_reverse.1 hd), rfl⟩
  constructor
  · intro b hb
    obtain ⟨d, hlt, rfl⟩ := hmem b hb
    exact ⟨d, hlt, isDigit_digitByte (by omega)⟩
  · intro b hb
    obtain ⟨d, hlt, rfl⟩ := hmem b hb
    exact not_isCapital_digitByte (by omega)
  · exact numeral_ne_nil hradix n
  · intro hhead
    rw [numeral, List.head?_reverse, List.getLast?_map, Option.map_eq_some_iff] at hhead
    obtain ⟨d, hlast, hd⟩ := hhead
    have hlt := lt_of_mem_digitsFromLast hradix (List.mem_of_getLast? hlast)
    obtain rfl : d = 0 := (digitByte_eq_zeroDigit_iff (by omega)).1 hd
    obtain rfl : n = 0 := eq_zero_of_getLast?_digitsFromLast hradix hlast
    exact numeral_zero hradix

/-- Only zero has the numeral zero. -/
theorem numeral_ne_zero (hradix : 2 ≤ radix) (htop : radix ≤ 36) (hn : n ≠ 0) :
    numeral radix n ≠ [zeroDigit] := by
  intro h
  rw [numeral_eq_map, List.map_eq_singleton_iff] at h
  obtain ⟨d, hdigits, hd⟩ := h
  have hlast : (digitsFromLast radix n).getLast? = some d := by
    rw [← List.head?_reverse, hdigits, List.head?_cons]
  have hlt := lt_of_mem_digitsFromLast hradix (List.mem_of_getLast? hlast)
  rw [(digitByte_eq_zeroDigit_iff (Nat.lt_of_lt_of_le hlt htop)).1 hd] at hlast
  exact hn (eq_zero_of_getLast?_digitsFromLast hradix hlast)

/-- A plain numeral is the numeral of its number. -/
theorem Plain.eq_numeral (h : Plain radix bytes) (hradix : 2 ≤ radix)
    (hdigits : Digits radix bytes digits) : bytes = numeral radix (ofDigits radix digits) := by
  have hbytes := hdigits.eq_map_digitByte h.small
  have hne : digits ≠ [] := by
    rintro rfl
    exact h.ne_nil hbytes
  have hzero : digits.head? = some 0 → digits = [0] := by
    intro hhead
    have hmap : digits.map digitByte = [zeroDigit] := by
      rw [← hbytes]
      apply h.zero_alone
      rw [hbytes, List.head?_map, hhead]
      rfl
    obtain ⟨d, rfl, -⟩ := List.map_eq_singleton_iff.1 hmap
    rw [Option.some.inj hhead]
  rw [numeral, digitsFromLast_ofDigits hradix hdigits.lt_radix hne hzero, List.map_reverse,
    List.reverse_reverse, hbytes]

/-! ## Numerals with a sign -/

section Written

variable {base : Cell} {v : Int}

/-- What is written in a base that can be. -/
theorem write_eq (h2 : 2 ≤ base) (h36 : base ≤ 36) (v : Int) :
    write base v = if v < 0 then minusSign :: numeral base.toInt.toNat v.natAbs
      else numeral base.toInt.toNat v.natAbs := by
  have hradix : radix? base = some base.toInt.toNat := by rw [radix?_eq, if_pos ⟨h2, h36⟩]
  rw [write, hradix]
  rfl

theorem radix_bounds (h2 : 2 ≤ base) (h36 : base ≤ 36) :
    2 ≤ base.toInt.toNat ∧ base.toInt.toNat ≤ 36 := by
  have hlow : (2 : Int) ≤ base.toInt := Int16.le_iff_toInt_le.1 h2
  have hhigh : base.toInt ≤ 36 := Int16.le_iff_toInt_le.1 h36
  omega

theorem canonical_write (h2 : 2 ≤ base) (h36 : base ≤ 36) (v : Int) :
    Canonical base.toInt.toNat (write base v) := by
  obtain ⟨hradix, htop⟩ := radix_bounds h2 h36
  have hplain := plain_numeral hradix htop v.natAbs
  rw [write_eq h2 h36]
  by_cases hv : v < 0
  · rw [if_pos hv]
    exact .negated hplain (numeral_ne_zero hradix htop (by omega))
  · rw [if_neg hv]
    exact .plain hplain

theorem denotes_write (h2 : 2 ≤ base) (h36 : base ≤ 36) (v : Int) :
    Denotes base.toInt.toNat (write base v) v := by
  obtain ⟨hradix, htop⟩ := radix_bounds h2 h36
  have hdigits := digits_numeral hradix htop v.natAbs
  have hne := numeral_ne_nil hradix v.natAbs
  have hvalue := ofDigits_reverse_digitsFromLast hradix v.natAbs
  rw [write_eq h2 h36]
  by_cases hv : v < 0
  · have hdenotes := Denotes.negated hdigits hne
    rw [hvalue, Int.ofNat_natAbs_of_nonpos (by omega), Int.neg_neg] at hdenotes
    rwa [if_pos hv]
  · have hdenotes := Denotes.plain hdigits hne
    rw [hvalue, Int.natAbs_of_nonneg (by omega)] at hdenotes
    rwa [if_neg hv]

/-- No digit is a minus sign, so what has one in front is negated. -/
theorem Digits.head?_ne_minusSign (h : Digits radix bytes digits) :
    bytes.head? ≠ some minusSign := by
  intro hhead
  cases h.isDigit with
  | nil => cases hhead
  | cons hd hall => exact hd.ne_minusSign (Option.some.inj hhead)

theorem head?_write_iff (h2 : 2 ≤ base) (h36 : base ≤ 36) (v : Int) :
    (write base v).head? = some minusSign ↔ v < 0 := by
  obtain ⟨hradix, htop⟩ := radix_bounds h2 h36
  have hdigits := digits_numeral hradix htop v.natAbs
  rw [write_eq h2 h36]
  by_cases hv : v < 0
  · simp [hv]
  · simpa [hv] using hdigits.head?_ne_minusSign

/-- A canonical numeral is what is written for the number that it stands for. -/
theorem Canonical.eq_write (h : Canonical base.toInt.toNat text) (h2 : 2 ≤ base) (h36 : base ≤ 36)
    (hv : Denotes base.toInt.toNat text v) : write base v = text := by
  obtain ⟨hradix, htop⟩ := radix_bounds h2 h36
  rw [write_eq h2 h36]
  cases hv with
  | plain hdigits hne =>
      cases h with
      | plain hplain =>
          rw [if_neg (by omega), Int.natAbs_natCast, ← hplain.eq_numeral hradix hdigits]
      | negated => exact absurd rfl hdigits.head?_ne_minusSign
  | @negated bytes digits hdigits hne =>
      cases h with
      | plain hplain =>
          -- a plain numeral has a digit where the sign is
          obtain ⟨d, -, hd⟩ := hplain.isDigit minusSign List.mem_cons_self
          exact absurd rfl hd.ne_minusSign
      | negated hplain hzero =>
          have hbytes := hplain.eq_numeral hradix hdigits
          have hpos : ofDigits base.toInt.toNat digits ≠ 0 := by
            intro h0
            rw [h0, numeral_zero hradix] at hbytes
            exact hzero hbytes
          rw [if_pos (by omega), Int.natAbs_neg, Int.natAbs_natCast, ← hbytes]

/-! ## The main result -/

/-- What was written is read as its number, wrapped to a cell. -/
theorem read?_of_denotes (h2 : 2 ≤ base) (h36 : base ≤ 36)
    (h : Denotes base.toInt.toNat text v) : read? base text = some (Int16.ofInt v) := by
  obtain ⟨w, hw, hmod⟩ := exists_readSigned?_of_denotes h
  have hlow := (DoubleCell.toInt_toCells_fst w).trans hmod
  have hcell : (DoubleCell.toCells w).1 = Int16.ofInt v := by
    apply Cell.eq_of_toInt_modEq
    rw [Int16.toInt_ofInt]
    exact hlow.trans (Int.bmod_emod (m := 2 ^ 16)).symm
  rw [read?, radix?_eq, if_pos ⟨h2, h36⟩]
  dsimp only
  rw [hw, Option.map_some, hcell]

/-- To write and to read are inverse to each other. A number of any size is written in the canonical
way, with a sign if it is negative, and it is read again, wrapped to a cell; and a canonical numeral
of a number that fits into a cell is written as it was read. -/
theorem write_read?_inverse (base : Cell) (h2 : 2 ≤ base) (h36 : base ≤ 36) :
    (∀ v : Int, Canonical base.toInt.toNat (write base v) ∧
        ((write base v).head? = some minusSign ↔ v < 0) ∧
        read? base (write base v) = some (Int16.ofInt v)) ∧
      (∀ c : Cell, read? base (write base c.toInt) = some c) ∧
      ∀ (text : List UInt8) (c : Cell), read? base text = some c →
        Canonical base.toInt.toNat text →
        ∀ n : Int, Denotes base.toInt.toNat text n → -32768 ≤ n → n ≤ 32767 →
          write base c.toInt = text := by
  have hread : ∀ v : Int, read? base (write base v) = some (Int16.ofInt v) := by
    intro v
    exact read?_of_denotes h2 h36 (denotes_write h2 h36 v)
  refine ⟨?_, ?_, ?_⟩
  · intro v
    exact ⟨canonical_write h2 h36 v, head?_write_iff h2 h36 v, hread v⟩
  · intro c
    rw [hread, Int16.ofInt_toInt]
  · intro text c hc hcanonical n hn hlow hhigh
    rw [read?_of_denotes h2 h36 hn, Option.some.injEq] at hc
    have hvalue : c.toInt = n := by
      rw [← hc]
      exact Int16.toInt_ofInt_of_le hlow (by omega)
    rw [hvalue]
    exact hcanonical.eq_write h2 h36 hn

/-- The least double cell in base sixteen: what is left of it in a cell is zero. And the least cell, of
which the numeral was read. -/
theorem write_read?_inverse_least :
    read? 16 (write 16 (-2147483648)) = some 0 ∧ Canonical 16 (write 16 (-2147483648)) ∧
      read? 16 [45, 56, 48, 48, 48] = some (-32768) ∧
      write 16 (-32768 : Cell).toInt = [45, 56, 48, 48, 48] := by
  obtain ⟨hwrite, -, hread⟩ := write_read?_inverse 16 (by decide) (by decide)
  obtain ⟨hcanonical, -, hleast⟩ := hwrite (-2147483648)
  have hbytes : read? 16 [45, 56, 48, 48, 48] = some (-32768) := by decide
  have hdigits : Digits 16 [56, 48, 48, 48] [8, 0, 0, 0] := by
    refine ⟨?_, by decide⟩
    have height : IsDigit 56 8 := digit?_eq_some_iff.1 (by decide)
    have hzero : IsDigit 48 0 := digit?_eq_some_iff.1 (by decide)
    exact .cons height (.cons hzero (.cons hzero (.cons hzero .nil)))
  have hplain : Plain 16 [56, 48, 48, 48] := by
    constructor
    · intro b hb
      have hcases : b = 56 ∨ b = 48 := by simpa using hb
      rcases hcases with rfl | rfl
      · exact ⟨8, by decide, digit?_eq_some_iff.1 (by decide)⟩
      · exact ⟨0, by decide, digit?_eq_some_iff.1 (by decide)⟩
    · simp [IsCapital]
    · simp
    · simp [zeroDigit]
  have hnumeral : Canonical 16 [45, 56, 48, 48, 48] := .negated hplain (by decide)
  have hdenotes : Denotes 16 [45, 56, 48, 48, 48] (-32768) := .negated hdigits (by simp)
  exact ⟨hleast, hcanonical, hbytes,
    hread _ _ hbytes hnumeral (-32768) hdenotes (by decide) (by decide)⟩

end Written

end ThreadedForth.Numeral
