import ThreadedForth.Dictionary.Layout
import ThreadedForth.Primitive

/-!
# Execution tokens

A cell of compiled code is an execution token. The numbers below `Primitive.count` are the
primitives. From there up to the address of the first definition there is room for small
literals, which so take one cell of code only. All other tokens call the code at the address
that they are.
-/

set_option autoImplicit false

namespace ThreadedForth

/-- What an execution token stands for. -/
inductive Token where
  | primitive (p : Primitive)
  /-- Pushes a number below `Token.literalLimit`. -/
  | literal (v : Cell)
  /-- Calls the definition whose body is at the address. -/
  | call (body : Addr)
deriving DecidableEq

namespace Token

/-- Literals below this number have a token. -/
def literalLimit : Cell := 59

/-- The meaning of an execution token. -/
def decode (xt : Addr) : Token :=
  match Primitive.ofToken? xt with
  | some p => primitive p
  | none =>
    if xt < Layout.firstEntry then literal (xt - Primitive.count).toInt16 else call xt

/-- The execution token with a meaning. -/
def encode : Token → Addr
  | primitive p => p.token
  | literal v => Primitive.count + v.toUInt16
  | call body => body

/-- The token of a number, if it has one. -/
def ofLiteral? (v : Cell) : Option Token :=
  if 0 ≤ v ∧ v < literalLimit then some (literal v) else none

/-- Each number stands for one thing only. -/
theorem encode_decode (xt : Addr) : (decode xt).encode = xt := by
  unfold decode
  split
  · rename_i p h
    exact Primitive.token_of_ofToken? h
  · split
    · rw [encode, UInt16.toUInt16_toInt16, UInt16.add_comm, UInt16.sub_add_cancel]
    · rfl

end Token

end ThreadedForth
