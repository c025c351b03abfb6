import ThreadedForth.Error
import ThreadedForth.Stack

/-!
# Programs over the data stack

The data stack with its errors as a monad. An operation that lacks a cell fails before it takes
any, so a failed `pop2`, `pop3` or `pop4` leaves the stack as it was. The cells of a group are
named deepest first, in the order in which they were pushed.
-/

set_option autoImplicit false

namespace ThreadedForth

/-- A program that works on the data stack and may fail. -/
abbrev StackM := EStateM Error Stack

namespace StackM

/-- Pushes a cell. -/
def push (v : Cell) : StackM Unit := fun s =>
  match s.push? v with
  | some t => .ok () t
  | none => .error .stackOverflow s

/-- Takes the top cell. -/
def pop : StackM Cell := fun s =>
  match s.pop? with
  | some (v, t) => .ok v t
  | none => .error .stackUnderflow s

/-- The cell so many places below the top. -/
def pick (n : Nat) : StackM Cell := fun s =>
  match s.pick? n with
  | some v => .ok v s
  | none => .error .stackUnderflow s

/-- The top cell. -/
def top : StackM Cell := pick 0

/-- Replaces the top cell. -/
def setTop (v : Cell) : StackM Unit := fun s =>
  match s.setTop? v with
  | some t => .ok () t
  | none => .error .stackUnderflow s

/-- Takes two cells. -/
def pop2 : StackM (Cell × Cell) := fun s =>
  match s.cells with
  | b :: a :: _ => .ok (a, b) (s.drop 2)
  | _ => .error .stackUnderflow s

/-- Takes three cells. -/
def pop3 : StackM (Cell × Cell × Cell) := fun s =>
  match s.cells with
  | c :: b :: a :: _ => .ok (a, b, c) (s.drop 3)
  | _ => .error .stackUnderflow s

/-- Takes four cells. -/
def pop4 : StackM (Cell × Cell × Cell × Cell) := fun s =>
  match s.cells with
  | d :: c :: b :: a :: _ => .ok (a, b, c, d) (s.drop 4)
  | _ => .error .stackUnderflow s

/-- Pushes a double cell, its high half on top. -/
def pushDouble (d : DoubleCell) : StackM Unit := do
  push d.toCells.1
  push d.toCells.2

/-- Replaces two cells by what is made of them. -/
def binary (f : Cell → Cell → Cell) : StackM Unit := do
  let (a, b) ← pop2
  push (f a b)

end StackM

end ThreadedForth
