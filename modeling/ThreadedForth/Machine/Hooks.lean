import ThreadedForth.Machine.Basic

/-!
# Hooks

A machine is part of a host program. The host answers the calls of the word `sys`, supplies lines
of input and may give a meaning to words that nothing else knows. What it does, it does as a
program on the machine, and for that it may need the interpreter again: it can make a `Request`,
as the interpreter itself does where one run is nested in another.
-/

set_option autoImplicit false

namespace ThreadedForth

/-- What the interpreter can be asked to do. -/
inductive Request where
  /-- Run one execution token, and no more of the definition that it may call. -/
  | run (xt : Addr)
  /-- Run an execution token to its end. -/
  | execute (xt : Addr)
  /-- Interpret what is unread of the current source. -/
  | interpretSource
  /-- Interpret one word. -/
  | interpretWord (name : Span)
  /-- Ask the host for a line of input. -/
  | refill
  /-- Call the host. -/
  | sys (selector : Cell)

/-- How requests are answered. -/
abbrev Interpreter (H : Type) := Request → MachineM H Unit

/-- The host's part of the machine. A host that says nothing has no system calls, no input and no
words of its own. -/
structure Hooks (H : Type) where
  /-- Answers a system call. -/
  sys : Interpreter H → Cell → MachineM H Unit := fun _ selector =>
    Machine.fail (.unhandledSys selector)
  /-- Brings the next line of input into the buffer. -/
  refill : Interpreter H → MachineM H Unit := fun _ => Machine.fail .inputExhausted
  /-- Interprets a word that is neither known nor a number. -/
  unknownWord? : Option (Interpreter H → Span → MachineM H Unit) := none

end ThreadedForth
