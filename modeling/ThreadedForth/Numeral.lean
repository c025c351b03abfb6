import ThreadedForth.Cell
import ThreadedForth.Text.Ascii

/-!
# Numerals

Numbers as text in a base from 2 to 36, with the letters as digits above nine. A numeral is an
optional minus sign and at least one digit. It is read into a cell, and what does not fit wraps
(`read?`). Numbers are written with small letters and no leading zero (`write`). The base is
itself a cell of the program, so it may hold anything: outside its range nothing is a numeral,
and numbers are written in base ten.
-/

set_option autoImplicit false

namespace ThreadedForth.Numeral

/-- The base that a cell stands for. -/
def radix? (base : Cell) : Option Nat :=
  if 2 ≤ base ∧ base ≤ 36 then some base.toUInt16.toNat else none

/-- The byte `-`. -/
def minusSign : UInt8 := 45

/-- The value of a digit or of a letter of either case. -/
def digit? (b : UInt8) : Option Nat :=
  if 48 ≤ b ∧ b ≤ 57 then some (b.toNat - 48)
  else if 97 ≤ b ∧ b ≤ 122 then some (b.toNat - 87)
  else if 65 ≤ b ∧ b ≤ 90 then some (b.toNat - 55)
  else none

/-- The digit with a value below 36, letters being small. -/
def digitByte (d : Nat) : UInt8 := UInt8.ofNat (if d < 10 then 48 + d else 87 + d)

theorem digit?_digitByte {d : Nat} (h : d < 36) : digit? (digitByte d) = some d := by
  have hall : ∀ e ∈ List.range 36, digit? (digitByte e) = some e := by decide
  exact hall d (List.mem_range.2 h)

/-- Appends digits to the number `value`, all of them below the base. -/
def appendDigits? (radix : Nat) (value : DoubleCell) : List UInt8 → Option DoubleCell
  | [] => some value
  | b :: bs =>
    match digit? b with
    | some d =>
      if d < radix then
        appendDigits? radix (value * UInt32.ofNat radix + UInt32.ofNat d) bs
      else none
    | none => none

/-- Reads one or more digits. -/
def readDigits? (radix : Nat) (digits : List UInt8) : Option DoubleCell :=
  if digits.isEmpty then none else appendDigits? radix 0 digits

/-- Reads digits that may have a minus sign in front. -/
def readSigned? (radix : Nat) : List UInt8 → Option DoubleCell
  | [] => none
  | b :: bs =>
    if b = minusSign then (readDigits? radix bs).map (- ·) else readDigits? radix (b :: bs)

/-- Reads a numeral. It is read as a double cell, of which the low half is kept. -/
def read? (base : Cell) (text : List UInt8) : Option Cell :=
  match radix? base with
  | none => none
  | some radix => (readSigned? radix text).map fun d => d.toCells.1

/-- The values of the digits of a number, the last digit first. -/
def digitsFromLast (radix : Nat) (n : Nat) : List Nat :=
  if 2 ≤ radix ∧ radix ≤ n then (n % radix) :: digitsFromLast radix (n / radix) else [n]
termination_by n
decreasing_by exact Nat.div_lt_self (by omega) (by omega)

/-- Writes a number. -/
def write (base : Cell) (value : Int) : List UInt8 :=
  let digits := ((digitsFromLast ((radix? base).getD 10) value.natAbs).map digitByte).reverse
  if value < 0 then minusSign :: digits else digits

/-- The numeral of a number as a string. -/
def toText (base : Cell) (value : Int) : String := Text.ofBytes (write base value)

end ThreadedForth.Numeral
