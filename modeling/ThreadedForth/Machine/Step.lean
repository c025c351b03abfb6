import ThreadedForth.Machine.Hooks
import ThreadedForth.Token

/-!
# Running a token

One execution token is run at a time (`runToken`). A call saves the instruction pointer on the
return stack and moves it to the code of the callee. After anything else it moves past the token
and its operand, if there is one.

Where a primitive leads back into the interpreter, the request goes to `call`. The number `n`
bounds how often the host is asked for a line while a word is awaited.
-/

set_option autoImplicit false

namespace ThreadedForth

/-- What a name stands for. -/
inductive Meaning where
  | known (xt : Addr) (immediate : Bool)
  | unknown
  /-- The search for the name does not end. -/
  | endless
deriving DecidableEq

/-- The meaning of a name: a definition comes before a primitive. -/
def Dictionary.meaning (d : Dictionary) (name : Span) : Meaning :=
  match d.find name with
  | .found entry => .known (d.entryBody entry) (d.isImmediate entry)
  | .endless => .endless
  | .absent =>
    match Primitive.ofName? (d.text name) with
    | some p => .known p.token p.isImmediate
    | none => .unknown

namespace Machine

variable {H : Type}

/-- Reads the next word and asks the host for lines until there is one. -/
def awaitWord (hooks : Hooks H) (call : Interpreter H) : Nat → MachineM H Span
  | 0 => throw .outOfFuel
  | n + 1 => do
    if ← getDictionary (·.hasInput) then
      onDictionary fun d => .ok d.nextWord.1 d.nextWord.2
    else
      hooks.refill call
      awaitWord hooks call n

/-- Pushes the token of a word and how it is compiled: one for an immediate word and minus one for
others. An unknown word gives two zeros. -/
def pushMeaning (name : Span) : MachineM H Unit := do
  match ← getDictionary (·.meaning name) with
  | .known xt immediate =>
    push xt.toInt16
    push (if immediate then 1 else -1)
  | .unknown =>
    push 0
    push 0
  | .endless => throw .outOfFuel

/-- Whether the instruction pointer has to move past the token that was run. -/
inductive Flow where
  | advance
  | stay
deriving DecidableEq

/-- Reads the cell or the byte at an address. -/
def fetch : MachineM H Unit := do
  let (addr, width) ← onData .pop2
  let value ← getDictionary fun d =>
    if width ≠ 0 then d.readCell addr.toUInt16
    else (d.readByte addr.toUInt16).toUInt16.toInt16
  push value

/-- Writes a cell or a byte. To write the cell `here` is to take or give back room. -/
def store : MachineM H Unit := do
  let (value, addr, width) ← onData .pop3
  if width = 0 then
    modifyDictionary (·.writeByte addr.toUInt16 (Cell.lowByte value))
  else if addr.toUInt16 = SystemCell.here.addr then
    onDictionary fun d => (discard <| Dictionary.allot (value - d.reserved .here)) d
  else
    modifyDictionary (·.writeCell addr.toUInt16 value)

/-- Begins a definition. The address of its entry is left on the stack. -/
def colon (hooks : Hooks H) (call : Interpreter H) (n : Nat) : MachineM H Unit := do
  let entry ← onDictionary Dictionary.alignHere
  push entry.toInt16
  modifyDictionary (·.setReservedAddr .openEntry entry)
  let name ← awaitWord hooks call n
  onDictionary (Dictionary.define name)
  setCompiling true

/-- Ends the definition whose entry is on the stack. -/
def semicolon : MachineM H Unit := do
  let entry ← onData .top
  onDictionary (Dictionary.append Primitive.exit.token.toInt16)
  discard pop
  setCompiling false
  onDictionary (Dictionary.link entry.toUInt16)

/-- What a primitive does, apart from moving on. -/
def perform (hooks : Hooks H) (call : Interpreter H) (n : Nat) : Primitive → MachineM H Flow
  | .operator op => do
    onData op.apply
    return .advance
  | .literal => do
    push (← nextCell)
    return .advance
  | .sys => do
    hooks.sys call (← pop)
    return .advance
  | .fetch => do
    fetch
    return .advance
  | .store => do
    store
    return .advance
  | .toReturn => do
    pushReturn (← onData .top)
    discard pop
    return .advance
  | .fromReturn => do
    push (← popReturn)
    return .advance
  | .colon => do
    colon hooks call n
    return .advance
  | .tick => do
    pushMeaning (← awaitWord hooks call n)
    return .advance
  | .execute => do
    -- the token that is run instead moves the instruction pointer itself
    call (.run (← pop).toUInt16)
    return .stay
  | .exit => do
    let ip := (← popReturn).toUInt16
    setIp ip
    if ip = 0 then throw .exit
    return .advance
  | .semicolon => do
    semicolon
    return .advance
  | .branchIfZero => do
    if (← pop) = 0 then jump else discard nextCell
    return .advance
  | .branch => do
    jump
    return .advance
  | .returnDepth => do
    push (Int16.ofNat (← get).returns.depth)
    return .advance
  | .refill => do
    hooks.refill call
    return .advance
  | .evaluate => do
    withIp 0 (call .interpretSource)
    return .advance
  | .find => do
    let (addr, length) ← onData .pop2
    pushMeaning (.ofLength addr.toUInt16 length.toUInt16)
    return .advance

/-- Runs one execution token. -/
def runToken (hooks : Hooks H) (call : Interpreter H) (n : Nat) (xt : Addr) :
    MachineM H Unit :=
  match Token.decode xt with
  | .call body => do
    pushReturn (← get).ip.toInt16
    setIp body
  | .literal v => do
    push v
    advance
  | .primitive p => do
    match ← perform hooks call n p with
    | .advance => advance
    | .stay => return

end Machine

end ThreadedForth
