import ThreadedForth.Cell

/-!
# Addresses as text

An address is shown as `0x` and four lower-case hexadecimal digits.
-/

set_option autoImplicit false

namespace ThreadedForth.Text

/-- The hexadecimal digit of a number below 16. -/
def hexDigit (d : Nat) : Char :=
  if d < 10 then Char.ofNat (48 + d) else Char.ofNat (87 + d)

/-- The text of an address. -/
def hexAddr (a : Addr) : String :=
  let n := a.toNat
  String.ofList ['0', 'x', hexDigit (n / 4096 % 16), hexDigit (n / 256 % 16),
    hexDigit (n / 16 % 16), hexDigit (n % 16)]

end ThreadedForth.Text
