import ThreadedForth.StackM

/-!
# Operators

The primitives that work on the data stack and on nothing else: shuffles, arithmetic, comparison
and bits. `Operator.apply` is their meaning. Sums and differences wrap. Products are double
cells, and quotients are taken of them: `div` and `mod` read the dividend and the divisor as
signed and truncate towards zero, while `mulAdd`, `unsignedDivMod` and `mul` read their cells as
unsigned. What is pushed of a quotient or a remainder is its low cell.
-/

set_option autoImplicit false

namespace ThreadedForth

/-- A primitive of the data stack. -/
inductive Operator where
  | drop | dup | swap | pick
  | add | sub | mul | div | mod
  | equal | less | and | or | xor | shiftLeft | shiftRight
  | depth | mulAdd | unsignedLess | unsignedDivMod
deriving DecidableEq

namespace Operator

/-- The bits of a cell moved up; sixteen places or more leave none. -/
def shiftedLeft (a n : Cell) : Cell :=
  if n.toUInt16 < 16 then (a.toUInt16 <<< n.toUInt16).toInt16 else 0

/-- The bits of a cell moved down, zeros following; sixteen places or more leave none. -/
def shiftedRight (a n : Cell) : Cell :=
  if n.toUInt16 < 16 then (a.toUInt16 >>> n.toUInt16).toInt16 else 0

/-- The product of two cells, both read as unsigned. -/
def product (a b : Cell) : DoubleCell := a.toUInt16.toUInt32 * b.toUInt16.toUInt32

/-- The truncated quotient of a signed double cell. -/
def signedQuotient (dividend : DoubleCell) (divisor : Cell) : Cell :=
  (dividend.toInt32 / divisor.toInt32).toInt16

/-- The remainder that goes with the truncated quotient. -/
def signedRemainder (dividend : DoubleCell) (divisor : Cell) : Cell :=
  (dividend.toInt32 % divisor.toInt32).toInt16

/-- Takes a dividend of two cells and a divisor, which must not be zero. -/
def divide (f : DoubleCell → Cell → StackM Unit) : StackM Unit := do
  let (low, high, divisor) ← StackM.pop3
  if divisor = 0 then throw .divisionByZero
  f (.ofCells low high) divisor

/-- What an operator does to the data stack. -/
def apply : Operator → StackM Unit
  | drop => discard StackM.pop
  | dup => do StackM.push (← StackM.top)
  | swap => do
    let (a, b) ← StackM.pop2
    StackM.push b
    StackM.push a
  | pick => do
    let n ← StackM.top
    StackM.setTop (← StackM.pick (n.toUInt16.toNat + 1))
  | add => StackM.binary (· + ·)
  | sub => StackM.binary (· - ·)
  | mul => do
    let (a, b) ← StackM.pop2
    StackM.pushDouble (product a b)
  | div => divide fun d n => StackM.push (signedQuotient d n)
  | mod => divide fun d n => StackM.push (signedRemainder d n)
  | equal => StackM.binary fun a b => flag (a == b)
  | less => StackM.binary fun a b => flag (a < b)
  | and => StackM.binary (· &&& ·)
  | or => StackM.binary (· ||| ·)
  | xor => StackM.binary (· ^^^ ·)
  | shiftLeft => StackM.binary shiftedLeft
  | shiftRight => StackM.binary shiftedRight
  | depth => fun s => StackM.push (Int16.ofNat s.depth) s
  | mulAdd => do
    let (low, high, factor, summand) ← StackM.pop4
    StackM.pushDouble
      (.ofCells low high * factor.toUInt16.toUInt32 + summand.toUInt16.toUInt32)
  | unsignedLess => StackM.binary fun a b => flag (a.toUInt16 < b.toUInt16)
  | unsignedDivMod => divide fun d n => do
    StackM.push (d % n.toUInt16.toUInt32).toUInt16.toInt16
    StackM.push (d / n.toUInt16.toUInt32).toUInt16.toInt16

end Operator

end ThreadedForth
