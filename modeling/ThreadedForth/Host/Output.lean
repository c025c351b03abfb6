import ThreadedForth.Machine.Interpreter
import ThreadedForth.Text.Ascii

/-!
# Output calls

The system calls that write. Their selectors are the same for every host that has them.
-/

set_option autoImplicit false

namespace ThreadedForth

/-- A system call that takes a cell and writes it. -/
inductive OutputCall where
  /-- As a signed number, with a space after it. -/
  | signed
  /-- As an unsigned number, with a space after it. -/
  | unsigned
  /-- As the character whose number is the low byte. -/
  | character
deriving DecidableEq

namespace OutputCall

/-- The output call with a selector. -/
def ofSelector? (selector : Cell) : Option OutputCall :=
  if selector = 0 then some signed
  else if selector = 1 then some unsigned
  else if selector = 2 then some character
  else none

/-- What is written for a cell. -/
def render (base v : Cell) : OutputCall → String
  | signed => Numeral.toText base v.toInt ++ " "
  | unsigned => Numeral.toText base v.toUInt16.toNat ++ " "
  | character => Text.ofBytes [Cell.lowByte v]

/-- Takes the cell from the stack and returns what is to be written for it. -/
def take {H : Type} (c : OutputCall) : MachineM H String := do
  let base ← Machine.getDictionary (·.base)
  return c.render base (← Machine.pop)

end OutputCall

end ThreadedForth
