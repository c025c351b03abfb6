import ThreadedForth.Dictionary.Chain
import ThreadedForth.Token

/-!
# Compiled code

The cells of a definition's body, taken apart into items: a token, or a token and its operand. A
body is read up to where the next newer definition begins, the newest one up to `here`. Addresses
wrap, so a walk over code can pass the end without meeting it; `codeItems?` has no value then.
-/

set_option autoImplicit false

namespace ThreadedForth

/-- Whether the cell after the token belongs to it. -/
def Primitive.takesOperand : Primitive → Bool
  | literal | branch | branchIfZero => true
  | _ => false

/-- A token of compiled code with all that belongs to it. -/
inductive CodeItem where
  | token (t : Token)
  /-- A primitive with the cell after it. -/
  | operand (p : Primitive) (v : Cell)
deriving DecidableEq

namespace Dictionary

/-- The item at an address and the address after it. -/
def codeItemAt (d : Dictionary) (a : Addr) : CodeItem × Addr :=
  match Token.decode (d.readCell a).toUInt16 with
  | .primitive p =>
    if p.takesOperand then
      (.operand p (d.readCell (a + cellSize)), a + cellSize + cellSize)
    else (.token (.primitive p), a + cellSize)
  | t => (.token t, a + cellSize)

/-- The items from an address up to `stop`, if there are fewer than `n`. -/
def codeItemsFrom? (d : Dictionary) (stop : Addr) : Nat → Addr → Option (List CodeItem)
  | 0, _ => none
  | n + 1, a =>
    if a < stop then
      let (item, next) := d.codeItemAt a
      (codeItemsFrom? d stop n next).map (item :: ·)
    else some []

/-- The items from an address up to `stop`, unless the walk never gets there. -/
def codeItems? (d : Dictionary) (a stop : Addr) : Option (List CodeItem) :=
  d.codeItemsFrom? stop (walkLimit + 1) a

/-- Entries, newest first, with their code; the code of the first one ends at `stop`. -/
def withCode? (d : Dictionary) (stop : Addr) : List Entry → Option (List (Entry × List CodeItem))
  | [] => some []
  | e :: es =>
    match d.codeItems? e.body stop, withCode? d e.addr es with
    | some items, some rest => some ((e, items) :: rest)
    | _, _ => none

/-- All entries that are seen, newest first, with their code. -/
def listing? (d : Dictionary) : Option (List (Entry × List CodeItem)) :=
  d.entries?.bind (d.withCode? d.here)

end Dictionary

end ThreadedForth
