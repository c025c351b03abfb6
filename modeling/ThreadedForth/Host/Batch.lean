import ThreadedForth.Host.Output

/-!
# A host for unattended runs

The lines of input wait in a queue, the output is collected, and the calls of the host are
counted. Besides the output calls there are two system calls that lead back into the interpreter:
one runs the execution token on the stack, one asks for a line. If the host has words of its own,
these are characters after a quote and hexadecimal numbers after a dollar sign.
-/

set_option autoImplicit false

namespace ThreadedForth

/-- The state of a host that works from a queue. -/
structure Batch where
  /-- The lines that were not read yet. -/
  queue : List (List UInt8) := []
  /-- What was written. -/
  output : String := ""
  /-- How many system calls were made. -/
  sysCalls : Nat := 0
  /-- How many unknown words the host was asked about. -/
  unknownWords : Nat := 0

namespace Batch

/-- Puts the first line of the queue into the buffer. -/
def refill (_ : Interpreter Batch) : MachineM Batch Unit := do
  match (← get).host.queue with
  | [] => Machine.fail .inputExhausted
  | line :: rest =>
    Machine.modifyHost fun h => { h with queue := rest }
    Machine.onDictionary (Dictionary.loadInput line)

/-- Answers a system call. -/
def sys (call : Interpreter Batch) (selector : Cell) : MachineM Batch Unit := do
  Machine.modifyHost fun h => { h with sysCalls := h.sysCalls + 1 }
  match OutputCall.ofSelector? selector with
  | some output =>
    let text ← output.take
    Machine.modifyHost fun h => { h with output := h.output ++ text }
  | none =>
    if selector = 7 then
      call (.execute (← Machine.pop).toUInt16)
    else if selector = 8 then
      call .refill
    else
      Machine.fail (.unhandledSys selector)

/-- The byte that marks a character. -/
def quoteSign : UInt8 := 39

/-- The byte that marks a hexadecimal number. -/
def dollarSign : UInt8 := 36

/-- Interprets a word of the host. -/
def unknownWord (_ : Interpreter Batch) (name : Span) : MachineM Batch Unit := do
  Machine.modifyHost fun h => { h with unknownWords := h.unknownWords + 1 }
  match ← Machine.getDictionary (·.text name) with
  | [] => Machine.fail (.wordNotFound name)
  | [_] => Machine.fail (.wordNotFound name)
  | mark :: b :: rest =>
    if mark = quoteSign then
      Machine.interpretLiteral b.toUInt16.toInt16
    else if mark = dollarSign then
      match Numeral.read? 16 (b :: rest) with
      | some v => Machine.interpretLiteral v
      | none => Machine.fail (.wordNotFound name)
    else
      Machine.fail (.wordNotFound name)

/-- The hooks of the host. Each of them can be left out. -/
def hooks (answersSys suppliesInput knowsWords : Bool) : Hooks Batch where
  sys := if answersSys then sys else ({} : Hooks Batch).sys
  refill := if suppliesInput then refill else ({} : Hooks Batch).refill
  unknownWord? := if knowsWords then some unknownWord else none

end Batch

end ThreadedForth
