import ThreadedForth.Proofs.Machine.Lines
import ThreadedForth.Proofs.Machine.Twins

/-!
# Phrases

A text of numbers, words of the stacks, definitions and names of them is read phrase by phrase: a phrase is
one word, or `:` together with the name that it takes. An outline tells whether each phrase makes sense
after the ones before it (`Outline.admits`). If it does, the phrase does the same in twins and leaves in
both what is behind it (`Twins.coupled_spelled`).
-/

set_option autoImplicit false

namespace ThreadedForth

/-- A word of a text, or `:` with the name after it. -/
inductive Phrase where
  | word (text : List UInt8)
  | colon (name : List UInt8)
deriving DecidableEq

namespace Phrase

/-- The words that a phrase consists of. -/
def texts : Phrase → List (List UInt8)
  | .word text => [text]
  | .colon name => [Text.encode Primitive.colon.name, name]

/-- The names that a phrase takes. -/
def names : Phrase → List (List UInt8)
  | .word _ => []
  | .colon name => [name]

/-- A phrase that is a word means no definition of a library but an enclosed one. -/
def Allowed (l : Library) : Phrase → Prop
  | .word text => l.Allows text
  | .colon _ => True

theorem allowed_empty (phrase : Phrase) : phrase.Allowed .empty := by
  cases phrase with
  | word text => exact Library.allows_empty text
  | colon name => trivial

end Phrase

namespace Outline

/-- The outline after a phrase. -/
def after? (o : Outline) : Phrase → Option Outline
  | .word text => o.word? text
  | .colon name => o.colon? name

/-- Whether all phrases are numbers, words of the stacks, names or parts of definitions. -/
def admits (o : Outline) (phrases : List Phrase) : Bool := (phrases.foldlM after? o).isSome

/-- Whether a text is neither a name nor a primitive nor a number. -/
def lacks (o : Outline) (text : List UInt8) : Bool :=
  !o.knows text && (Primitive.ofName? text).isNone && (Numeral.read? 10 text).isNone

variable {o : Outline} {phrase : Phrase} {phrases : List Phrase}

theorem exists_of_admits_cons (h : o.admits (phrase :: phrases) = true) :
    ∃ o1, o.after? phrase = some o1 ∧ o1.admits phrases = true := by
  rw [admits, List.foldlM_cons] at h
  cases hafter : o.after? phrase with
  | none =>
      rw [hafter] at h
      cases h
  | some o1 =>
      rw [hafter] at h
      exact ⟨o1, rfl, h⟩

end Outline

namespace Machine

open Dictionary

variable {H : Type} {m m' : Machine H} {l : Library} {o o1 : Outline} {phrase : Phrase}
  {ws ws' : List (List UInt8)}

theorem hasInput_of_phrase (h : m.dictionary.Reading (phrase.texts ++ ws))
    (hcap : 16 ≤ m.dictionary.capacity) : m.dictionary.hasInput = true := by
  cases phrase with
  | word text => exact (h.cons hcap).1
  | colon name => exact (h.cons hcap).1

/-- A phrase does the same in both machines, wherever it stands. -/
theorem Twins.coupled_spelled (hooks : Hooks H) (h : m.Twins m') (ho : m.Outlines l o)
    (hafter : o.after? phrase = some o1) (hallowed : phrase.Allowed l)
    (hreading : m.dictionary.Reading (phrase.texts ++ ws))
    (hreading' : m'.dictionary.Reading (phrase.texts ++ ws')) (N n : Nat) :
    Coupled (Onward (m.dictionary.afterWords phrase.texts.length)
        (m'.dictionary.afterWords phrase.texts.length) l o1) Twins
      (spelled hooks m.dictionary.nextWord.1 N (n + 1) m.afterWord)
      (spelled hooks m'.dictionary.nextWord.1 N (n + 1) m'.afterWord) := by
  have hcap := ho.le_capacity
  have hcap' := (ho.of_twins h).le_capacity
  have ho1 := ho.of_twins (.self_afterWord m)
  cases phrase with
  | word text =>
      exact h.afterWord.coupled_interpretWord ho1 hafter hallowed (text_afterWord hreading (by omega))
        (text_afterWord hreading' (by omega))
  | colon name =>
      obtain ⟨-, -, hname⟩ := hreading.cons (by omega)
      obtain ⟨-, -, hname'⟩ := hreading'.cons (by omega)
      -- the name is the word after the one that is interpreted
      have hcap1 := ho1.le_capacity
      have hcap1' := (ho1.of_twins h.afterWord).le_capacity
      obtain ⟨hinput, hnext, -⟩ := hname.cons (Nat.le_trans (by decide) hcap1)
      obtain ⟨hinput', hnext', -⟩ := hname'.cons (Nat.le_trans (by decide) hcap1')
      have hcolon : o.colon? m.afterWord.dictionary.nextText = some o1 := by
        rw [Machine.afterWord, hnext]
        exact hafter
      exact h.afterWord.coupled_interpretColon ho1 hcolon (text_afterWord hreading (by omega))
        (text_afterWord hreading' (by omega)) hname.buffered hname'.buffered hinput hinput'
        (hnext'.trans hnext.symm)

end Machine

end ThreadedForth
