import ThreadedForth.Proofs.Dictionary.Room
import ThreadedForth.Proofs.Operator

/-!
# The numbers that operators leave

The results of multiplication and division as numbers. A product and a sum of a product are told
modulo `2 ^ 32` as natural numbers, and so are the unsigned quotient and its remainder. The signed
quotient is truncated towards zero; of its remainder nothing is lost, and its sign is that of the
dividend.
-/

set_option autoImplicit false

namespace ThreadedForth

namespace Operator

variable (a b : Cell) {d : DoubleCell} {n : Cell}

theorem toNat_product : (product a b).toNat = a.toUInt16.toNat * b.toUInt16.toNat := by
  have ha := a.toUInt16.toNat_lt
  have hb := b.toUInt16.toNat_lt
  have hle : a.toUInt16.toNat * b.toUInt16.toNat ≤ 65535 * 65535 :=
    Nat.mul_le_mul (by omega) (by omega)
  rw [product, UInt32.toNat_mul, UInt16.toNat_toUInt32, UInt16.toNat_toUInt32]
  exact Nat.mod_eq_of_lt (by omega)

/-- A double cell times a cell, and a cell added to that. -/
theorem toNat_mulAdd (d : DoubleCell) :
    (d * a.toUInt16.toUInt32 + b.toUInt16.toUInt32).toNat =
      (d.toNat * a.toUInt16.toNat + b.toUInt16.toNat) % 4294967296 := by
  rw [UInt32.toNat_add, UInt32.toNat_mul, UInt16.toNat_toUInt32, UInt16.toNat_toUInt32,
    Nat.mod_add_mod]

/-! ## Unsigned division -/

theorem toNat_pos (hn : n ≠ 0) : 0 < n.toUInt16.toNat := by
  rw [Nat.pos_iff_ne_zero]
  intro h
  exact hn (Cell.eq_of_toUInt16_eq (UInt16.toNat_inj.1 h))

/-- A remainder is less than the divisor, so a cell holds it. -/
theorem toNat_unsignedRemainder (hn : n ≠ 0) :
    (unsignedRemainder d n).toUInt16.toNat = d.toNat % n.toUInt16.toNat := by
  have hlt := Nat.mod_lt d.toNat (toNat_pos hn)
  have htop := n.toUInt16.toNat_lt
  rw [unsignedRemainder, UInt16.toUInt16_toInt16, UInt32.toNat_toUInt16, UInt32.toNat_mod,
    UInt16.toNat_toUInt32]
  exact Nat.mod_eq_of_lt (by omega)

theorem toNat_unsignedQuotient :
    (unsignedQuotient d n).toUInt16.toNat = d.toNat / n.toUInt16.toNat % 65536 := by
  rw [unsignedQuotient, UInt16.toUInt16_toInt16, UInt32.toNat_toUInt16, UInt32.toNat_div,
    UInt16.toNat_toUInt32]

/-- The quotient fits in a cell where the upper half of the dividend is less than the divisor. -/
theorem toNat_unsignedQuotient_of_lt {low high : Cell} (h : high.toUInt16 < n.toUInt16) :
    (unsignedQuotient (.ofCells low high) n).toUInt16.toNat =
      (DoubleCell.ofCells low high).toNat / n.toUInt16.toNat := by
  have hlow := low.toUInt16.toNat_lt
  have hlt : high.toUInt16.toNat < n.toUInt16.toNat := UInt16.lt_iff_toNat_lt.1 h
  have hle : (high.toUInt16.toNat + 1) * 65536 ≤ n.toUInt16.toNat * 65536 :=
    Nat.mul_le_mul_right 65536 hlt
  rw [toNat_unsignedQuotient]
  apply Nat.mod_eq_of_lt
  rw [Nat.div_lt_iff_lt_mul (by omega), DoubleCell.toNat_ofCells]
  omega

theorem toNat_ofCells_eq {low high : Cell} (h : high.toUInt16 < n.toUInt16) :
    (DoubleCell.ofCells low high).toNat =
      (unsignedQuotient (.ofCells low high) n).toUInt16.toNat * n.toUInt16.toNat +
        (unsignedRemainder (.ofCells low high) n).toUInt16.toNat := by
  have hn : n ≠ 0 := by
    rintro rfl
    exact absurd (UInt16.lt_iff_toNat_lt.1 h) (Nat.not_lt_zero _)
  rw [toNat_unsignedQuotient_of_lt h, toNat_unsignedRemainder hn, Nat.div_add_mod']

/-! ## Signed division -/

theorem toInt_signedQuotient :
    (signedQuotient d n).toInt = (d.toInt32.toInt.tdiv n.toInt).bmod 65536 := by
  rw [signedQuotient, Int32.toInt_toInt16, Int32.toInt_div, Int16.toInt_toInt32]
  exact Int.bmod_bmod_of_dvd (by decide)

theorem toInt_ne_zero (hn : n ≠ 0) : n.toInt ≠ 0 := fun h => hn (Int16.toInt_inj.1 h)

theorem natAbs_tmod_lt (hn : n ≠ 0) (k : Int) : (k.tmod n.toInt).natAbs < n.toInt.natAbs := by
  rw [Int.natAbs_tmod]
  exact Nat.mod_lt _ (Int.natAbs_pos.2 (toInt_ne_zero hn))

/-- A remainder that is not zero has the sign of the dividend. -/
theorem tmod_eq_zero_or_neg_iff (k l : Int) : k.tmod l = 0 ∨ (k.tmod l < 0 ↔ k < 0) := by
  have hsign := Int.sign_tmod k l
  by_cases hdvd : l ∣ k
  · exact Or.inl (Int.tmod_eq_zero_of_dvd hdvd)
  · rw [if_neg hdvd] at hsign
    right
    rw [← Int.sign_eq_neg_one_iff_neg, hsign, Int.sign_eq_neg_one_iff_neg]

/-- A remainder is closer to zero than the divisor, so a cell holds it. -/
theorem toInt_signedRemainder (hn : n ≠ 0) :
    (signedRemainder d n).toInt = d.toInt32.toInt.tmod n.toInt := by
  have hlt := natAbs_tmod_lt hn d.toInt32.toInt
  have hle := n.le_toInt
  have htop := n.toInt_lt
  rw [signedRemainder, Int32.toInt_toInt16, Int32.toInt_mod, Int16.toInt_toInt32]
  apply Int.bmod_eq_of_le
  · show -(65536 / 2) ≤ _
    omega
  · show _ < (65536 + 1) / 2
    omega

/-! ## Undoing a product -/

/-- A product divided by one of its factors is the other one. -/
theorem divided_product (hb : b ≠ 0) :
    unsignedQuotient (product a b) b = a ∧ unsignedRemainder (product a b) b = 0 := by
  have hpos := toNat_pos hb
  have hlt := a.toUInt16.toNat_lt
  constructor
  · apply Cell.eq_of_toUInt16_eq
    apply UInt16.toNat_inj.1
    rw [toNat_unsignedQuotient, toNat_product, Nat.mul_div_cancel _ hpos]
    exact Nat.mod_eq_of_lt hlt
  · apply Cell.eq_of_toUInt16_eq
    apply UInt16.toNat_inj.1
    rw [toNat_unsignedRemainder hb, toNat_product, Nat.mul_mod_left]
    rfl

/-- A number times `b` with a digit less than `b` added gives both back when it is divided by `b`. -/
theorem divided_mulAdd {m : Cell} (c : Cell) (h : a.toUInt16 < m.toUInt16) :
    unsignedQuotient (.ofCells c 0 * m.toUInt16.toUInt32 + a.toUInt16.toUInt32) m = c ∧
      unsignedRemainder (.ofCells c 0 * m.toUInt16.toUInt32 + a.toUInt16.toUInt32) m = a := by
  have hlt : a.toUInt16.toNat < m.toUInt16.toNat := UInt16.lt_iff_toNat_lt.1 h
  have hm : m ≠ 0 := by
    rintro rfl
    exact absurd hlt (Nat.not_lt_zero _)
  have hc := c.toUInt16.toNat_lt
  have htop := m.toUInt16.toNat_lt
  have hle : c.toUInt16.toNat * m.toUInt16.toNat ≤ 65535 * 65535 :=
    Nat.mul_le_mul (by omega) (by omega)
  have hvalue : (DoubleCell.ofCells c 0 * m.toUInt16.toUInt32 + a.toUInt16.toUInt32).toNat =
      m.toUInt16.toNat * c.toUInt16.toNat + a.toUInt16.toNat := by
    have hlow : (DoubleCell.ofCells c 0).toNat = c.toUInt16.toNat := DoubleCell.toNat_ofCells c 0
    rw [toNat_mulAdd, hlow, Nat.mul_comm m.toUInt16.toNat]
    exact Nat.mod_eq_of_lt (by omega)
  constructor
  · apply Cell.eq_of_toUInt16_eq
    apply UInt16.toNat_inj.1
    rw [toNat_unsignedQuotient, hvalue, Nat.mul_add_div (toNat_pos hm), Nat.div_eq_of_lt hlt,
      Nat.add_zero]
    exact Nat.mod_eq_of_lt hc
  · apply Cell.eq_of_toUInt16_eq
    apply UInt16.toNat_inj.1
    rw [toNat_unsignedRemainder hm, hvalue, Nat.mul_add_mod, Nat.mod_eq_of_lt hlt]

/-! ## Single cells -/

/-- The low cell of a product by two. -/
theorem toCells_product_two : (product a 2).toCells.1 = .ofInt (a.toInt * 2) := by
  rw [Int16.ofInt_mul, Int16.ofInt_toInt]
  apply Cell.eq_of_toUInt16_eq
  rw [DoubleCell.toCells, product, UInt16.toUInt16_toInt16]
  apply UInt16.toNat_inj.1
  simp

theorem toInt_toInt32 (d : DoubleCell) : d.toInt32.toInt =
    if d.toNat < 2147483648 then (d.toNat : Int) else d.toNat - 4294967296 := by
  have h := BitVec.toInt_eq_toNat_cond d.toBitVec
  rw [UInt32.toNat_toBitVec] at h
  change d.toInt32.toInt = _ at h
  rw [h]
  split <;> split <;> omega

/-- A cell under the flag that tells its sign is a double cell with the same number. -/
theorem ofCells_flag : DoubleCell.ofCells a (flag (a.toInt < 0)) = a.toInt32.toUInt32 := by
  have hlt := a.toUInt16.toNat_lt
  have hvalue := toInt_eq a
  have hsigned : (DoubleCell.ofCells a (flag (a.toInt < 0))).toInt32 = a.toInt32 := by
    apply Int32.toInt_inj.1
    rw [toInt_toInt32, DoubleCell.toNat_ofCells, Int16.toInt_toInt32]
    by_cases hneg : a.toInt < 0
    · have hflag : (flag (decide (a.toInt < 0))).toUInt16.toNat = 65535 := by
        rw [decide_eq_true hneg]
        rfl
      rw [hflag]
      split at hvalue <;> split <;> omega
    · have hflag : (flag (decide (a.toInt < 0))).toUInt16.toNat = 0 := by
        rw [decide_eq_false hneg]
        rfl
      rw [hflag]
      split at hvalue <;> split <;> omega
  rw [← hsigned, UInt32.toUInt32_toInt32]

/-- The cells of a number in a double cell. -/
theorem pushed_toUInt32 (vs : List Cell) :
    pushed a.toInt32.toUInt32 vs = flag (a.toInt < 0) :: a :: vs := by
  rw [← ofCells_flag, pushed, DoubleCell.toCells_ofCells]

theorem signedQuotient_toUInt32 :
    signedQuotient a.toInt32.toUInt32 b = .ofInt (a.toInt.tdiv b.toInt) := by
  apply Int16.toInt_inj.1
  rw [toInt_signedQuotient, Int32.toInt32_toUInt32, Int16.toInt_toInt32, Int16.toInt_ofInt]

theorem signedRemainder_toUInt32 (hb : b ≠ 0) :
    signedRemainder a.toInt32.toUInt32 b = .ofInt (a.toInt.tmod b.toInt) := by
  rw [← Int16.ofInt_toInt (signedRemainder _ _), toInt_signedRemainder hb, Int32.toInt32_toUInt32,
    Int16.toInt_toInt32]

end Operator

end ThreadedForth
