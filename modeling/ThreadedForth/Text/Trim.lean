/-!
# White space

The characters with the Unicode property White_Space, and texts without them at the ends.
-/

set_option autoImplicit false

namespace ThreadedForth.Text

/-- Whether a character has the property White_Space. -/
def isWhiteSpace (c : Char) : Bool :=
  let n := c.toNat
  (0x0009 ≤ n && n ≤ 0x000d) || n == 0x0020 || n == 0x0085 || n == 0x00a0 || n == 0x1680 ||
    (0x2000 ≤ n && n ≤ 0x200a) || n == 0x2028 || n == 0x2029 || n == 0x202f || n == 0x205f ||
    n == 0x3000

/-- A text without white space at its ends. -/
def trim (s : List Char) : List Char :=
  ((s.dropWhile isWhiteSpace).reverse.dropWhile isWhiteSpace).reverse

end ThreadedForth.Text
