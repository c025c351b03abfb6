/-!
# Text as bytes

Source text is bytes, and the rules that look at a byte know ASCII only: which bytes are blank,
and which letters are equal when case is ignored. A byte that is shown on its own is shown as
the character with its number.
-/

set_option autoImplicit false

namespace ThreadedForth.Text

/-- Space, tab, line feed, form feed and carriage return. -/
def isBlank (b : UInt8) : Bool :=
  b == 32 || b == 9 || b == 10 || b == 12 || b == 13

/-- The byte with a capital letter made small. -/
def lower (b : UInt8) : UInt8 :=
  if 65 ≤ b ∧ b ≤ 90 then b + 32 else b

/-- Whether two texts are equal when the case of letters is ignored. -/
def same (s t : List UInt8) : Bool := s.map lower == t.map lower

/-- The character whose number is the byte. -/
def byteChar (b : UInt8) : Char := Char.ofNat b.toNat

/-- The text in which each byte is the character with its number. -/
def ofBytes (bytes : List UInt8) : String := String.ofList (bytes.map byteChar)

theorem same_iff {s t : List UInt8} : same s t = true ↔ s.map lower = t.map lower := by
  simp [same]

theorem same_comm (s t : List UInt8) : same s t = same t s := by
  simp [same, Bool.beq_comm]

theorem same_trans {s t u : List UInt8} (h : same s t = true) (h' : same t u = true) :
    same s u = true := by
  rw [same_iff] at *
  exact h.trans h'

theorem length_eq_of_same {s t : List UInt8} (h : same s t = true) : s.length = t.length := by
  simpa using congrArg List.length (same_iff.1 h)

end ThreadedForth.Text
