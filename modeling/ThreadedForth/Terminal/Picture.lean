import ThreadedForth.Dictionary.Basic
import ThreadedForth.Terminal.Color
import ThreadedForth.Text.Utf8

/-!
# Pictures of unknown words

A word that was not found is shown in the line it stands in, with a mark under it. That is
possible if the line is in the input buffer and the word is in the line. Widths are counted in
bytes.
-/

set_option autoImplicit false

namespace ThreadedForth.Terminal

/-- The line that is interpreted, if it is in the input buffer and well-formed text. -/
def currentLine? (d : Dictionary) : Option (List UInt8) :=
  if d.reservedAddr .source = Layout.inputBuffer then
    let line := d.memory.bytesFrom Layout.inputBuffer (d.reservedAddr .sourceLength).toNat
    (Text.decode? line).map fun _ => line
  else none

/-- A line and the part of it that is marked. -/
structure Picture where
  line : List UInt8
  start : Nat
  width : Nat

namespace Picture

/-- The picture of a word, if it is in the current line. -/
def ofUnknownWord? (d : Dictionary) (name : Span) : Option Picture :=
  match currentLine? d with
  | none => none
  | some line =>
    let start := (name.start - Layout.inputBuffer).toNat
    let width := name.length.toNat
    if Layout.inputBuffer ≤ name.start ∧ 0 < width ∧ start + width ≤ line.length then
      some ⟨line, start, width⟩
    else none

/-- The same character so many times. -/
def repeated (c : Char) (n : Nat) : String := String.ofList (List.replicate n c)

/-- The picture as text, if the marked part does not cut a character in two. -/
def render? (p : Picture) : Option String := do
  let before ← Text.decode? (p.line.take p.start)
  let word ← Text.decode? ((p.line.drop p.start).take p.width)
  let after ← Text.decode? (p.line.drop (p.start + p.width))
  let left := p.width / 2
  let right := p.width - left - 1
  let rest := p.line.length - p.start - p.width
  let indent := repeated ' ' p.start
  let red := Color.red.paint
  return "  ╭─[input]\n  │\n" ++
    "1 │ " ++ before ++ red word ++ after ++ "\n" ++
    "  ┆ " ++ indent ++ red (repeated '─' left ++ "┬" ++ repeated '─' right) ++ repeated ' ' rest ++ "\n" ++
    "  ┆ " ++ indent ++ red (repeated ' ' left ++ "│" ++ repeated ' ' right) ++ repeated ' ' rest ++ "\n" ++
    "  ┆ " ++ indent ++ repeated ' ' left ++ red ("╰" ++ repeated '─' (right + rest + 1)) ++ " " ++
      red "not found" ++ "\n" ++
    "──╯\n"

end Picture

end ThreadedForth.Terminal
