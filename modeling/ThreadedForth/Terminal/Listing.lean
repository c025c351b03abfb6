import ThreadedForth.Dictionary.Code
import ThreadedForth.Terminal.Color

/-!
# The list of words

A line for each definition, newest first: its name, the address of its code, and its code. A
callee is shown by the name of the newest definition with that code, or by its address if there
is none.
-/

set_option autoImplicit false

namespace ThreadedForth.Terminal

/-- The name of the definition with a body. -/
def nameOfBody? (d : Dictionary) (entries : List Entry) (body : Addr) : Option String :=
  (entries.find? fun e => e.body == body).map fun e => Text.ofBytes (d.text e.name)

/-- An item of code after a space. -/
def showItem (d : Dictionary) (entries : List Entry) : CodeItem → String
  | .operand p v => " " ++ Color.cyan.paint p.name ++ " " ++ toString v.toInt
  | .token (.primitive p) => " " ++ Color.cyan.paint p.name
  | .token (.literal v) => " " ++ toString v.toInt
  | .token (.call body) => " " ++ (nameOfBody? d entries body).getD (Text.hexAddr body)

/-- The line of a definition. -/
def showEntry (d : Dictionary) (entries : List Entry) (e : Entry) (code : List CodeItem) :
    String :=
  let color := if e.immediate then Color.yellow else Color.bold
  color.paint (Text.ofBytes (d.text e.name)) ++ " @ " ++ Text.hexAddr e.body ++ ":" ++
    String.join (code.map (showItem d entries)) ++ "\n"

/-- All lines, unless one of them would have no end. -/
def showWords? (d : Dictionary) : Option String :=
  d.listing?.map fun listed =>
    let entries := listed.map (·.1)
    String.join (listed.map fun (e, code) => showEntry d entries e code)

end ThreadedForth.Terminal
