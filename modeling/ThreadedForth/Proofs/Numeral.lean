import Mathlib.Data.Int.ModEq
import Mathlib.Data.Nat.Digits.Defs
import ThreadedForth.Numeral
import ThreadedForth.Proofs.Dictionary.Room

/-!
# What numerals stand for

A numeral to a base is a row of digits below the base, the highest one first, with or without a
minus sign in front of it. The number that it stands for may have any size (`Denotes`). What is read
is the cell that is congruent to this number modulo `2 ^ 16`, and nothing else can be read
(`read?_eq_some_iff`).

The digits are added up in a double cell. This wraps at `2 ^ 32` (`appendDigits?_eq_some_iff`), and
the sign is changed after that, but neither changes what is left at `2 ^ 16`.
-/

set_option autoImplicit false

namespace ThreadedForth

/-! ## Cells and double cells as residues -/

/-- The low half of a double cell is congruent to all of it. -/
theorem DoubleCell.toInt_toCells_fst (d : DoubleCell) :
    (DoubleCell.toCells d).1.toInt ≡ d.toNat [ZMOD 2 ^ 16] := by
  have hlow : (DoubleCell.toCells d).1.toUInt16.toNat = d.toNat % 65536 := by
    rw [DoubleCell.toCells, UInt16.toUInt16_toInt16, UInt32.toNat_toUInt16]
  rw [toInt_eq, hlow, Int.ModEq]
  split <;> omega

theorem DoubleCell.toNat_neg_modEq (d : DoubleCell) :
    ((-d).toNat : Int) ≡ -d.toNat [ZMOD 2 ^ 16] := by
  have hlt := d.toNat_lt
  have hneg : (-d).toNat = (4294967296 - d.toNat) % 4294967296 := UInt32.toNat_neg d
  rw [hneg, Int.ModEq]
  omega

/-- Cells that are congruent are equal. -/
theorem Cell.eq_of_toInt_modEq {c c' : Cell} (h : c.toInt ≡ c'.toInt [ZMOD 2 ^ 16]) : c = c' := by
  have hlt := c.toUInt16.toNat_lt
  have hlt' := c'.toUInt16.toNat_lt
  apply Cell.eq_of_toUInt16_eq
  apply UInt16.toNat_inj.1
  rw [toInt_eq, toInt_eq, Int.ModEq] at h
  split at h <;> split at h <;> omega

namespace Numeral

/-! ## Digits -/

/-- The byte is the ASCII digit with the value `d`, or the letter of either case with it. -/
inductive IsDigit (b : UInt8) (d : Nat) : Prop
  | numeric (lt : d < 10) (eq : b.toNat = '0'.toNat + d)
  | small (ge : 10 ≤ d) (lt : d < 36) (eq : b.toNat = 'a'.toNat + (d - 10))
  | capital (ge : 10 ≤ d) (lt : d < 36) (eq : b.toNat = 'A'.toNat + (d - 10))

theorem digit?_eq_some_iff {b : UInt8} {d : Nat} : digit? b = some d ↔ IsDigit b d := by
  have h0 : '0'.toNat = 48 := rfl
  have ha : 'a'.toNat = 97 := rfl
  have hA : 'A'.toNat = 65 := rfl
  have hdigit : digit? b =
      if 48 ≤ b.toNat ∧ b.toNat ≤ 57 then some (b.toNat - 48)
      else if 97 ≤ b.toNat ∧ b.toNat ≤ 122 then some (b.toNat - 87)
      else if 65 ≤ b.toNat ∧ b.toNat ≤ 90 then some (b.toNat - 55) else none := rfl
  rw [hdigit]
  constructor
  · intro h
    split at h
    · cases h
      exact .numeric (by omega) (by omega)
    · split at h
      · cases h
        exact .small (by omega) (by omega) (by omega)
      · split at h
        · cases h
          exact .capital (by omega) (by omega) (by omega)
        · cases h
  · rintro (⟨hlt, heq⟩ | ⟨hge, hlt, heq⟩ | ⟨hge, hlt, heq⟩)
    · rw [if_pos (by omega)]
      exact congrArg some (by omega)
    · rw [if_neg (by omega), if_pos (by omega)]
      exact congrArg some (by omega)
    · rw [if_neg (by omega), if_neg (by omega), if_pos (by omega)]
      exact congrArg some (by omega)

/-- No digit is a minus sign. -/
theorem IsDigit.ne_minusSign {b : UInt8} {d : Nat} (h : IsDigit b d) : b ≠ minusSign := by
  rintro rfl
  have hnone : digit? minusSign = none := by decide
  rw [digit?_eq_some_iff.2 h] at hnone
  cases hnone

/-- The number with these digits, the highest one first. -/
def ofDigits (radix : Nat) (digits : List Nat) : Nat := Nat.ofDigits radix digits.reverse

/-- The bytes are digits below the base with these values. -/
structure Digits (radix : Nat) (bytes : List UInt8) (digits : List Nat) : Prop where
  isDigit : List.Forall₂ IsDigit bytes digits
  lt_radix : ∀ d ∈ digits, d < radix

/-- The text is a numeral to the base, and `n` is the number that it stands for. -/
inductive Denotes (radix : Nat) : List UInt8 → Int → Prop
  | plain {bytes : List UInt8} {digits : List Nat} (digits_of : Digits radix bytes digits)
      (ne_nil : bytes ≠ []) : Denotes radix bytes (ofDigits radix digits)
  | negated {bytes : List UInt8} {digits : List Nat} (digits_of : Digits radix bytes digits)
      (ne_nil : bytes ≠ []) : Denotes radix (minusSign :: bytes) (-ofDigits radix digits)

variable {radix : Nat} {bytes text : List UInt8} {digits : List Nat} {w : DoubleCell}

/-! ## Reading digits -/

/-- One digit after the other: what was read is shifted by one place, and the digit is added. -/
theorem ofDigits_eq_foldl (radix : Nat) (digits : List Nat) :
    ofDigits radix digits = digits.foldl (fun n d => n * radix + d) 0 := by
  rw [ofDigits, Nat.ofDigits_eq_foldr, List.foldr_reverse]
  simp only [Nat.cast_id, Nat.mul_comm, Nat.add_comm]

/-- Digits are appended to a number that was read. The induction is on the bytes. -/
theorem appendDigits?_eq_some_iff {n : Nat} :
    appendDigits? radix (UInt32.ofNat n) bytes = some w ↔
      ∃ digits, Digits radix bytes digits ∧
        w = UInt32.ofNat (digits.foldl (fun n d => n * radix + d) n) := by
  induction bytes generalizing n with
  | nil =>
      rw [appendDigits?, Option.some.injEq]
      constructor
      · rintro rfl
        exact ⟨[], ⟨.nil, fun d hd => absurd hd List.not_mem_nil⟩, rfl⟩
      · rintro ⟨digits, ⟨hall, -⟩, rfl⟩
        cases hall
        rfl
  | cons b bs ih =>
      have hstep : ∀ d, UInt32.ofNat n * UInt32.ofNat radix + UInt32.ofNat d =
          UInt32.ofNat (n * radix + d) := fun d => by rw [UInt32.ofNat_add, UInt32.ofNat_mul]
      rw [appendDigits?]
      constructor
      · intro h
        split at h
        · rename_i d hd
          split at h
          · rename_i hlt
            rw [hstep] at h
            obtain ⟨ds, ⟨hall, hbelow⟩, hw⟩ := ih.1 h
            exact ⟨d :: ds, ⟨.cons (digit?_eq_some_iff.1 hd) hall,
              List.forall_mem_cons.2 ⟨hlt, hbelow⟩⟩, hw⟩
          · cases h
        · cases h
      · rintro ⟨digits, ⟨hall, hbelow⟩, hw⟩
        cases hall with
        | cons hd hall =>
            obtain ⟨hlt, hbelow⟩ := List.forall_mem_cons.1 hbelow
            rw [digit?_eq_some_iff.2 hd]
            dsimp only
            rw [if_pos hlt, hstep]
            exact ih.2 ⟨_, ⟨hall, hbelow⟩, hw⟩

theorem readDigits?_eq_some_iff :
    readDigits? radix bytes = some w ↔
      bytes ≠ [] ∧ ∃ digits, Digits radix bytes digits ∧ w = UInt32.ofNat (ofDigits radix digits) := by
  rw [readDigits?]
  simp only [ofDigits_eq_foldl]
  cases bytes with
  | nil => simp
  | cons b bs =>
      rw [List.isEmpty_cons, if_neg Bool.false_ne_true]
      exact (appendDigits?_eq_some_iff (n := 0)).trans ⟨fun h => ⟨List.cons_ne_nil b bs, h⟩, And.right⟩

/-! ## The main result -/

theorem toNat_ofNat_modEq (n : Nat) : ((UInt32.ofNat n).toNat : Int) ≡ n [ZMOD 2 ^ 16] := by
  have hwrap : (UInt32.ofNat n).toNat = n % 4294967296 := UInt32.toNat_ofNat'
  rw [hwrap, Int.ModEq]
  omega

/-- What is read with its sign is a number that the text stands for, up to the wrapping. -/
theorem exists_denotes_of_readSigned? (h : readSigned? radix text = some w) :
    ∃ n, Denotes radix text n ∧ (w.toNat : Int) ≡ n [ZMOD 2 ^ 16] := by
  cases text with
  | nil => cases h
  | cons b bs =>
      rw [readSigned?] at h
      by_cases hb : b = minusSign
      · rw [if_pos hb, Option.map_eq_some_iff] at h
        obtain ⟨u, hu, rfl⟩ := h
        obtain ⟨hne, digits, hdigits, rfl⟩ := readDigits?_eq_some_iff.1 hu
        rw [hb]
        exact ⟨_, .negated hdigits hne,
          (DoubleCell.toNat_neg_modEq _).trans (toNat_ofNat_modEq _).neg⟩
      · rw [if_neg hb] at h
        obtain ⟨hne, digits, hdigits, rfl⟩ := readDigits?_eq_some_iff.1 h
        exact ⟨_, .plain hdigits hne, toNat_ofNat_modEq _⟩

/-- Whatever stands for a number is read. -/
theorem exists_readSigned?_of_denotes {n : Int} (h : Denotes radix text n) :
    ∃ w, readSigned? radix text = some w ∧ (w.toNat : Int) ≡ n [ZMOD 2 ^ 16] := by
  cases h with
  | @plain _ digits hdigits hne =>
      refine ⟨UInt32.ofNat (ofDigits radix digits), ?_, toNat_ofNat_modEq _⟩
      cases text with
      | nil => exact absurd rfl hne
      | cons b bs =>
          -- the first byte is a digit, so it is not taken for a sign
          have hb : b ≠ minusSign := by
            cases hdigits.isDigit with
            | cons hd hall => exact hd.ne_minusSign
          rw [readSigned?, if_neg hb]
          exact readDigits?_eq_some_iff.2 ⟨hne, digits, hdigits, rfl⟩
  | @negated bytes digits hdigits hne =>
      refine ⟨-UInt32.ofNat (ofDigits radix digits), ?_,
        (DoubleCell.toNat_neg_modEq _).trans (toNat_ofNat_modEq _).neg⟩
      rw [readSigned?, if_pos rfl, readDigits?_eq_some_iff.2 ⟨hne, digits, hdigits, rfl⟩]
      rfl

theorem radix?_eq (base : Cell) :
    radix? base = if 2 ≤ base ∧ base ≤ 36 then some base.toInt.toNat else none := by
  rw [radix?]
  split
  · rename_i hbase
    have hge : (2 : Int) ≤ base.toInt := Int16.le_iff_toInt_le.1 hbase.1
    have hnum := toInt_eq base
    have hlt := base.toUInt16.toNat_lt
    refine congrArg some ?_
    split at hnum <;> omega
  · rfl

/-- A numeral to a base from 2 to 36 is read as the cell that is congruent to the number it stands for,
whatever its size. Nothing else is read. -/
theorem read?_eq_some_iff (base : Cell) (text : List UInt8) (v : Cell) :
    read? base text = some v ↔
      2 ≤ base ∧ base ≤ 36 ∧
        ∃ n : Int, Denotes base.toInt.toNat text n ∧ v.toInt ≡ n [ZMOD 2 ^ 16] := by
  rw [read?, radix?_eq, ← and_assoc]
  by_cases hbase : 2 ≤ base ∧ base ≤ 36
  · rw [if_pos hbase]
    dsimp only
    rw [Option.map_eq_some_iff]
    constructor
    · rintro ⟨w, hw, rfl⟩
      obtain ⟨n, hn, hmod⟩ := exists_denotes_of_readSigned? hw
      exact ⟨hbase, n, hn, (DoubleCell.toInt_toCells_fst w).trans hmod⟩
    · rintro ⟨-, n, hn, hv⟩
      obtain ⟨w, hw, hmod⟩ := exists_readSigned?_of_denotes hn
      have hlow := (DoubleCell.toInt_toCells_fst w).trans hmod
      exact ⟨w, hw, Cell.eq_of_toInt_modEq (hlow.trans hv.symm)⟩
  · rw [if_neg hbase]
    exact ⟨fun h => (Option.some_ne_none v h.symm).elim, fun h => absurd h.1 hbase⟩

/-- A number that fits into neither a cell nor a double cell: `2 ^ 32 + 2 ^ 16 - 1`, negated. -/
example : read? 16 [45, 49, 48, 48, 48, 48, 70, 102, 70, 102] = some 1 := by decide

end Numeral

end ThreadedForth
