import ThreadedForth.Dictionary.Chain
import ThreadedForth.Dictionary.Source
import ThreadedForth.StackM

/-!
# The machine

What a program works on: a dictionary, the data stack, the return stack, the instruction pointer
and the state of the host. The instruction pointer is an address in the dictionary while compiled
code runs and zero otherwise.

`MachineM` keeps the machine when a program stops, so what was done before is not undone. A
program stops by an error, by returning from the outermost definition (`Stop.exit`), or because
the number of steps that were granted to it is used up.
-/

set_option autoImplicit false

namespace ThreadedForth

/-- How much room a machine has. -/
structure Config where
  /-- Cells on the data stack. -/
  dataCells : Nat := 64
  /-- Cells on the return stack. -/
  returnCells : Nat := 64
  /-- Bytes of dictionary memory, of which no more than `2 ^ 16` can be used. -/
  dictionaryBytes : Nat := 65536
deriving DecidableEq

/-- A machine and the state of its host. -/
structure Machine (H : Type) where
  dictionary : Dictionary
  data : Stack
  returns : Stack
  /-- The address of the token that is run. -/
  ip : Addr
  host : H

/-- Why a program stopped before its end. -/
inductive Stop where
  | error (e : Error)
  /-- The outermost definition returned. -/
  | exit
  /-- The program has not ended within the granted number of steps. -/
  | outOfFuel
deriving DecidableEq

/-- A program that runs on a machine. -/
abbrev MachineM (H : Type) := EStateM Stop (Machine H)

namespace Machine

variable {H α : Type}

/-- A machine with empty stacks over a dictionary. -/
def ofDictionary (d : Dictionary) (host : H) (config : Config) : Machine H :=
  ⟨d, .empty config.dataCells, .empty config.returnCells, 0, host⟩

/-- A machine with an empty dictionary. -/
def ofConfig (config : Config) (host : H) : Machine H :=
  ofDictionary (.ofCapacity config.dictionaryBytes) host config

/-- Makes the machine ready after an error: both stacks are emptied, and a definition that was
being compiled is given up along with its room. -/
def reset (m : Machine H) : Machine H :=
  let entry := m.dictionary.reservedAddr .openEntry
  let abandoned := m.dictionary.compiling && decide (Layout.firstEntry ≤ entry)
    && decide (entry ≤ m.dictionary.here)
  match m with
  | ⟨d, data, returns, _, host⟩ =>
    let d := if abandoned then d.setReservedAddr .here entry else d
    ⟨d.setReserved .compiling 0, data.clear, returns.clear, 0, host⟩

/-! ## Parts of the machine -/

/-- Runs a program of the data stack. -/
def onData (x : StackM α) : MachineM H α := fun ⟨d, data, returns, ip, host⟩ =>
  match x data with
  | .ok a data => .ok a ⟨d, data, returns, ip, host⟩
  | .error e data => .error (.error e) ⟨d, data, returns, ip, host⟩

/-- Runs a program of the dictionary. -/
def onDictionary (x : DictionaryM α) : MachineM H α := fun ⟨d, data, returns, ip, host⟩ =>
  match x d with
  | .ok a d => .ok a ⟨d, data, returns, ip, host⟩
  | .error e d => .error (.error e) ⟨d, data, returns, ip, host⟩

/-- Changes the dictionary. -/
def modifyDictionary (f : Dictionary → Dictionary) : MachineM H Unit :=
  fun ⟨d, data, returns, ip, host⟩ => .ok () ⟨f d, data, returns, ip, host⟩

/-- Looks at the dictionary. -/
def getDictionary (f : Dictionary → α) : MachineM H α := fun m => .ok (f m.dictionary) m

/-- Changes the state of the host. -/
def modifyHost (f : H → H) : MachineM H Unit :=
  fun ⟨d, data, returns, ip, host⟩ => .ok () ⟨d, data, returns, ip, f host⟩

/-- Stops with an error. -/
def fail (e : Error) : MachineM H α := throw (.error e)

/-- Pushes a cell onto the data stack. -/
def push (v : Cell) : MachineM H Unit := onData (.push v)

/-- Takes the top cell of the data stack. -/
def pop : MachineM H Cell := onData .pop

/-- Pushes a cell onto the return stack. -/
def pushReturn (v : Cell) : MachineM H Unit := fun m =>
  match m.returns.push? v with
  | some returns => .ok () { m with returns }
  | none => .error (.error .returnStackOverflow) m

/-- Takes the top cell of the return stack. -/
def popReturn : MachineM H Cell := fun m =>
  match m.returns.pop? with
  | some (v, returns) => .ok v { m with returns }
  | none => .error (.error .returnStackUnderflow) m

/-- Begins or ends the compilation of words. -/
def setCompiling (on : Bool) : MachineM H Unit :=
  modifyDictionary (·.setReserved .compiling (if on then 1 else 0))

/-! ## The instruction pointer -/

/-- Moves the instruction pointer. -/
def setIp (ip : Addr) : MachineM H Unit := fun m => .ok () { m with ip }

/-- Moves past one cell of code. -/
def advance : MachineM H Unit := fun m => .ok () { m with ip := m.ip + cellSize }

/-- Moves to the cell after the current one and reads it. -/
def nextCell : MachineM H Cell := fun m =>
  let ip := m.ip + cellSize
  .ok (m.dictionary.readCell ip) { m with ip }

/-- Moves by the number in the next cell, counted from that cell, less one cell. -/
def jump : MachineM H Unit := do
  let offset ← nextCell
  modify fun m => { m with ip := m.ip + offset.toUInt16 - cellSize }

/-- Runs a program with another instruction pointer and puts the old one back, however the program
ends. -/
def withIp (ip : Addr) (x : MachineM H Unit) : MachineM H Unit := fun m =>
  let saved := m.ip
  match x { m with ip } with
  | .ok _ m => .ok () { m with ip := saved }
  | .error e m => .error e { m with ip := saved }

end Machine

end ThreadedForth
