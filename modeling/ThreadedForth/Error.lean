import ThreadedForth.Span

/-!
# Errors

Each way in which an operation of the program fails, with what its message needs to know.
-/

set_option autoImplicit false

namespace ThreadedForth

/-- Why an operation failed. -/
inductive Error where
  | stackOverflow
  | stackUnderflow
  | returnStackOverflow
  | returnStackUnderflow
  /-- Nothing is known under the name at this place. -/
  | wordNotFound (name : Span)
  /-- Moving Here by `amount` would leave the room for definitions. -/
  | dictionaryFull (here : Addr) (amount : Cell)
  /-- The entry does not lie after the latest one, or too far for its header. -/
  | badLink (entry latest : Addr)
  | nameTooLong (length : Nat)
  | inputTooLong (length : Nat)
  | inputExhausted
  | divisionByZero
  | unhandledSys (selector : Cell)
deriving DecidableEq

/-- The text of an error. -/
def Error.message : Error → String
  | stackOverflow => "stack overflow"
  | stackUnderflow => "stack underflow"
  | returnStackOverflow => "return stack overflow"
  | returnStackUnderflow => "return stack underflow"
  | wordNotFound name => s!"word not found: {name.describe}"
  | dictionaryFull here amount =>
    s!"dictionary full: cannot allot {amount.toInt} bytes at {Text.hexAddr here}"
  | badLink entry latest =>
    s!"cannot link entry {Text.hexAddr entry} after latest entry {Text.hexAddr latest}"
  | nameTooLong length => s!"name too long: {length} bytes"
  | inputTooLong length => s!"input line too long: {length} bytes"
  | inputExhausted => "out of input"
  | divisionByZero => "division by zero"
  | unhandledSys selector => s!"unhandled sys call: {selector.toInt}"

end ThreadedForth
