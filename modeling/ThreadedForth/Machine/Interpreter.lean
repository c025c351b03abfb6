import ThreadedForth.Machine.Step
import ThreadedForth.Numeral

/-!
# The interpreter

The inner interpreter runs compiled code (`execute`): it fetches one token after the other until
the outermost definition returns. The outer interpreter runs source text (`interpretSource`): each
word is compiled or run. The two need each other, and the host may need both, so they are given
how to `call` the interpreter, and `interpreter` ties the knot. Its argument bounds how deep runs
are nested and, at each depth, how long one goes on; a program that needs more stops with
`Stop.outOfFuel`.
-/

set_option autoImplicit false

namespace ThreadedForth.Machine

variable {H : Type}

/-! ## Compiled code -/

/-- Fetches and runs at most `n` tokens. Only a stop ends it. -/
def runCode (hooks : Hooks H) (call : Interpreter H) : Nat → MachineM H Unit
  | 0 => throw .outOfFuel
  | n + 1 => do
    let xt ← modifyGet fun m => ((m.dictionary.readCell m.ip).toUInt16, m)
    runToken hooks call n xt
    runCode hooks call n

/-- Runs a token and, if it called a definition, the code it called. -/
def runFrom (hooks : Hooks H) (call : Interpreter H) (n : Nat) (xt : Addr) :
    MachineM H Unit := do
  runToken hooks call n xt
  if (← get).ip < Layout.firstEntry then setIp 0 else runCode hooks call n

/-- Runs an execution token to its end. Returning from the outermost definition is the good end;
any other stop leaves no code running. -/
def execute (hooks : Hooks H) (call : Interpreter H) (n : Nat) (xt : Addr) :
    MachineM H Unit := fun m =>
  match runFrom hooks call n xt m with
  | .ok _ m => .ok () m
  | .error .exit m => .ok () m
  | .error stop m => .error stop { m with ip := 0 }

/-! ## Source text -/

/-- Compiles a number, or pushes it if nothing is compiled. -/
def interpretLiteral (v : Cell) : MachineM H Unit := do
  if ← getDictionary (·.compiling) then
    match Token.ofLiteral? v with
    | some token => onDictionary (Dictionary.append token.encode.toInt16)
    | none =>
      onDictionary (Dictionary.append Primitive.literal.token.toInt16)
      onDictionary (Dictionary.append v)
  else
    push v

/-- Compiles or runs a word. Definitions come first, then primitives, then numbers, and then
whatever the host makes of it. -/
def interpretWord (hooks : Hooks H) (call : Interpreter H) (n : Nat) (name : Span) :
    MachineM H Unit := do
  match ← getDictionary (·.meaning name) with
  | .known xt immediate =>
    if (← getDictionary (·.compiling)) && !immediate then
      onDictionary (Dictionary.append xt.toInt16)
    else
      execute hooks call n xt
  | .endless => throw .outOfFuel
  | .unknown =>
    match ← getDictionary fun d => Numeral.read? d.base (d.text name) with
    | some v => interpretLiteral v
    | none =>
      match hooks.unknownWord? with
      | some unknownWord => unknownWord call name
      | none => fail (.wordNotFound name)

/-- Interprets at most `n` words of the current source. -/
def interpretSource (hooks : Hooks H) (call : Interpreter H) : Nat → MachineM H Unit
  | 0 => throw .outOfFuel
  | n + 1 => do
    if ← getDictionary (·.hasInput) then
      let name ← onDictionary fun d => .ok d.nextWord.1 d.nextWord.2
      interpretWord hooks call n name
      interpretSource hooks call n

/-! ## Requests -/

/-- Answers a request; `call` answers the requests that come up meanwhile. -/
def answer (hooks : Hooks H) (call : Interpreter H) (n : Nat) : Interpreter H
  | .run xt => runToken hooks call n xt
  | .execute xt => execute hooks call n xt
  | .interpretSource => interpretSource hooks call n
  | .interpretWord name => interpretWord hooks call n name
  | .refill => hooks.refill call
  | .sys selector => hooks.sys call selector

/-- The interpreter of a machine with a bound on its work. -/
def interpreter (hooks : Hooks H) : Nat → Interpreter H
  | 0 => fun _ => throw .outOfFuel
  | n + 1 => answer hooks (interpreter hooks n) n

/-- Makes a text the current source and interprets it. -/
def interpretLine (hooks : Hooks H) (n : Nat) (line : List UInt8) : MachineM H Unit := do
  onDictionary (Dictionary.loadInput line)
  interpreter hooks n .interpretSource

end ThreadedForth.Machine
