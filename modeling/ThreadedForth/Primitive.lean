import ThreadedForth.Operator
import ThreadedForth.Text.Ascii
import ThreadedForth.Text.Utf8

/-!
# Primitives

The words that the machine knows by itself. The position of a primitive in `Primitive.all` is its
execution token, so that order belongs to every compiled definition; `ofToken?_token` and
`token_of_ofToken?` say that the two directions agree.
-/

set_option autoImplicit false

namespace ThreadedForth

/-- A word of the machine. -/
inductive Primitive where
  /-- Works on the data stack alone. -/
  | operator (op : Operator)
  /-- Pushes the cell that follows the token. -/
  | literal
  /-- Calls the host. -/
  | sys
  | fetch
  | store
  | toReturn
  | fromReturn
  /-- Begins a definition. -/
  | colon
  /-- Pushes the token of the next word and how it is compiled. -/
  | tick
  | execute
  | exit
  /-- Ends a definition. -/
  | semicolon
  | branchIfZero
  | branch
  | returnDepth
  /-- Asks the host for a line of input. -/
  | refill
  /-- Interprets the current source. -/
  | evaluate
  | find
deriving DecidableEq

/-- The name of an operator. -/
def Operator.name : Operator → String
  | drop => "drop"
  | dup => "dup"
  | swap => "swap"
  | pick => "pick"
  | add => "+"
  | sub => "-"
  | mul => "*"
  | div => "_/"
  | mod => "_%"
  | equal => "="
  | less => "<"
  | and => "&"
  | or => "|"
  | xor => "^"
  | shiftLeft => "<<"
  | shiftRight => ">>"
  | depth => "depth"
  | mulAdd => "_uma"
  | unsignedLess => "u<"
  | unsignedDivMod => "um/mod"

namespace Primitive

/-- The name of a primitive. -/
def name : Primitive → String
  | operator op => op.name
  | literal => "_lit"
  | sys => "sys"
  | fetch => "_@"
  | store => "_!"
  | toReturn => ">r"
  | fromReturn => "r>"
  | colon => ":"
  | tick => "_'"
  | execute => "execute"
  | exit => "exit"
  | semicolon => ";"
  | branchIfZero => "_jmp0"
  | branch => "_jmp"
  | returnDepth => "_rdepth"
  | refill => "_in"
  | evaluate => "_ev"
  | find => "find"

/-- Every primitive, in the order of the execution tokens. -/
def all : List Primitive :=
  [literal, operator .drop, operator .dup, operator .swap, operator .pick, sys,
    operator .add, operator .sub, operator .mul, operator .div, operator .mod,
    fetch, store, toReturn, fromReturn,
    operator .equal, operator .less, operator .and, operator .or, operator .xor,
    operator .shiftLeft, operator .shiftRight,
    colon, tick, execute, exit, semicolon, branchIfZero, branch,
    operator .depth, returnDepth, refill, evaluate, find,
    operator .mulAdd, operator .unsignedLess, operator .unsignedDivMod]

/-- The number of primitives. -/
def count : Addr := 37

/-- The execution token of a primitive: its position in `all`. -/
def token (p : Primitive) : Addr := UInt16.ofNat (all.idxOf p)

/-- The primitive with an execution token. -/
def ofToken? (xt : Addr) : Option Primitive := all[xt.toNat]?

/-- Whether the word runs even while a definition is compiled. -/
def isImmediate : Primitive → Bool
  | semicolon => true
  | _ => false

/-- The primitive with a name, letters of either case being equal. -/
def ofName? (text : List UInt8) : Option Primitive :=
  all.find? fun p => Text.same text (Text.encode p.name)

theorem length_all : all.length = count.toNat := rfl

theorem ofToken?_token (p : Primitive) : ofToken? p.token = some p := by
  cases p with
  | operator op => cases op <;> rfl
  | _ => rfl

theorem token_of_ofToken? {xt : Addr} {p : Primitive} (h : ofToken? xt = some p) :
    p.token = xt := by
  obtain ⟨hlt, rfl⟩ := List.getElem?_eq_some_iff.1 h
  have hall : ∀ i (h : i < all.length), all[i].token = UInt16.ofNat i := by decide
  simpa using hall _ hlt

end Primitive

end ThreadedForth
