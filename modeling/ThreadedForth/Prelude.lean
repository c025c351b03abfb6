import ThreadedForth.Machine.Interpreter

/-!
# The standard vocabulary

Words that need not be primitives are defined in the language itself: shorter stack words, names
for the accesses to memory, words that compile control flow, words that define variables and
constants, comments, and numbers as output. The text is interpreted line by line, as if it had
been typed.
-/

set_option autoImplicit false

namespace ThreadedForth.Prelude

/-- The definitions, in the order in which they are interpreted. -/
def lines : List String :=
  [": 1+ 1 + ;",
    ": 1- 1 - ;",
    ": over 1 pick ;",
    ": rot >r swap r> swap ;",
    ": nip swap drop ;",
    ": 2dup over over ;",
    ": 2drop drop drop ;",
    ": @ 1 _@ ;",
    ": ! 1 _! ;",
    ": c@ 0 _@ ;",
    ": c! 0 _! ;",
    ": +! dup @ rot + swap ! ;",
    ": cell+ 2 + ;",
    ": cells 2 * drop ;",
    ": base 0 ;",
    ": here 2 @ ;",
    ": latest 4 @ ;",
    ": state 6 ;",
    ": allot 2 @ + 2 ! ;",
    ": , here 2 allot ! ;",
    ": c, here 1 allot c! ;",
    ": immediate latest dup @ 32 | swap ! ;",
    ": [ 0 state ! ; immediate",
    ": ] 1 state ! ;",
    ": literal 0 , , ; immediate",
    ": ['] _' drop 0 , , ; immediate",
    ": ' _' drop ;",
    ": if 27 , here 0 , ; immediate",
    ": then here over - swap ! ; immediate",
    ": else 28 , here 0 , swap here over - swap ! ; immediate",
    ": begin here ; immediate",
    ": until 27 , here - , ; immediate",
    ": again 28 , here - , ; immediate",
    ": while 27 , here 0 , swap ; immediate",
    ": repeat 28 , here - , here over - swap ! ; immediate",
    ": 0= 0 = ;",
    ": 0< 0 < ;",
    ": <> = 0= ;",
    ": > swap < ;",
    ": invert -1 ^ ;",
    ": negate 0 swap - ;",
    ": abs dup 0< if negate then ;",
    ": min 2dup > if swap then drop ;",
    ": max 2dup < if swap then drop ;",
    ": true -1 ;",
    ": false 0 ;",
    ": s>d dup 0< ;",
    ": / >r s>d r> _/ ;",
    ": mod >r s>d r> _% ;",
    ": decimal 10 base ! ;",
    ": hex 16 base ! ;",
    ": variable : 0 , here 4 + , 25 , 0 , [ 26 , ] ;",
    ": constant : swap 0 , , [ 26 , ] ;",
    ": ( begin 14 @ dup 1+ 14 ! dup 12 @ < 0= swap 10 @ + c@ 41 = | until ;",
    "immediate",
    ": \\ 12 @ 14 ! ; immediate",
    ": evaluate 10 @ >r 12 @ >r 14 @ >r 12 ! 10 ! 0 14 ! _ev",
    "r> 14 ! r> 12 ! r> 10 ! ;",
    ": . 0 sys ;",
    ": u. 1 sys ;",
    ": emit 2 sys ;",
    ": cr 10 emit ;",
    ": space 32 emit ;"]

/-- The definitions as one text. -/
def source : String := String.join (lines.map (· ++ "\n"))

/-- Interprets lines in order, as far as the first one that fails. -/
def interpretLines {H : Type} (hooks : Hooks H) (n : Nat) (lines : List String) :
    MachineM H Unit :=
  lines.forM fun line => Machine.interpretLine hooks n (Text.encode line)

/-- Defines the standard vocabulary. -/
def load {H : Type} (hooks : Hooks H) (n : Nat) : MachineM H Unit :=
  interpretLines hooks n lines

end ThreadedForth.Prelude
