import ThreadedForth.Proofs.Dictionary.Reading
import ThreadedForth.Proofs.Machine.Fuel

/-!
# Lines one after the other

A line is loaded into the input buffer and then read word by word (`LineOf.exists_loadInput_eq_ok`).
Whether it is interpreted without failure is a matter of its words, one after the other
(`endsIn_source_cons_iff`), and so is it with many lines and each of them (`endsIn_lineByLine_cons_iff`).
-/

set_option autoImplicit false

namespace ThreadedForth

/-- A line that fits into the input buffer, and its words. -/
structure LineOf (line : List UInt8) (ws : List (List UInt8)) : Prop where
  length_le : line.length ≤ Layout.inputCapacity
  zero_notMem : 0 ∉ line
  words_eq : Text.words line = ws

instance (line : List UInt8) (ws : List (List UInt8)) : Decidable (LineOf line ws) :=
  decidable_of_iff (line.length ≤ Layout.inputCapacity ∧ 0 ∉ line ∧ Text.words line = ws)
    ⟨fun h => ⟨h.1, h.2.1, h.2.2⟩, fun h => ⟨h.length_le, h.zero_notMem, h.words_eq⟩⟩

/-- A line is loaded. -/
theorem LineOf.exists_loadInput_eq_ok {line : List UInt8} {ws : List (List UInt8)} {d : Dictionary}
    (h : LineOf line ws) (hcap : 96 ≤ d.capacity) :
    ∃ d', Dictionary.loadInput line d = .ok () d' ∧ d.InputOnly d' ∧ d'.Reading ws := by
  obtain ⟨d', hload⟩ := Dictionary.exists_loadInput_eq_ok d h.length_le
  have hreading := Dictionary.reading_of_loadInput hcap
    (fun b hb hzero => h.zero_notMem (hzero ▸ hb)) hload
  rw [h.words_eq] at hreading
  exact ⟨d', hload, Dictionary.inputOnly_of_loadInput hload, hreading⟩

namespace Machine

open Dictionary

variable {H : Type} {hooks : Hooks H} {m m' : Machine H} {line word : List UInt8}
  {lines ws : List (List UInt8)} {r : EStateM.Result Stop (Machine H) Unit}

/-- Lines in order, as far as the first one that fails. -/
def lineByLine (hooks : Hooks H) (lines : List (List UInt8)) (_ n : Nat) : MachineM H Unit :=
  lines.forM (interpretLine hooks n)

theorem growing_interpretLine (hs : hooks.Steady) (line : List UInt8) :
    Growing fun _ n => interpretLine hooks n line :=
  fun _ hn => .bind (.refl _) fun _ => below_interpreter hs hn .interpretSource

theorem growing_lineByLine (hs : hooks.Steady) (lines : List (List UInt8)) :
    Growing (lineByLine hooks lines) := by
  intro N N' n n' hN hn
  induction lines with
  | nil => exact .refl _
  | cons line lines ih => exact (growing_interpretLine hs line hN hn).bind fun _ => ih

/-! ## The words of the source -/

/-- At the end of the source there is nothing to do. -/
theorem endsIn_source_of_hasInput_eq_false (h : m.dictionary.hasInput = false) :
    EndsIn (source hooks) m r ↔ r = .ok () m := by
  have hsucc : ∀ N n, source hooks N (n + 1) m = .ok () m := by
    intro N n
    change (if m.dictionary.hasInput then _ else _ : MachineM H Unit) m = _
    rw [h]
    rfl
  constructor
  · rintro ⟨hfuel, N, n, hr⟩
    cases n with
    | zero => exact absurd hr.symm (hfuel m)
    | succ n => rw [← hr, hsucc]
  · intro hr
    exact ⟨by simp [hr], 0, 1, (hsucc 0 0).trans hr.symm⟩

/-- The next word of the source is interpreted, and then the rest. -/
theorem endsIn_source_of_hasInput (hs : hooks.Steady) (h : m.dictionary.hasInput = true) :
    EndsIn (source hooks) m r ↔ EndsIn (fun N n =>
      spelled hooks m.dictionary.nextWord.1 N n >>= fun _ => source hooks N n) m.afterWord r := by
  refine EndsIn.iff_of_forall (growing_source hs)
    (Growing.bind (growing_spelled hs _) (growing_source hs)) fun k => ?_
  exact ⟨k, k + 1, k, k, by omega, by omega, source_succ h⟩

/-- The next word has the same text after it was read. -/
theorem text_afterWord (h : m.dictionary.Reading (word :: ws)) (hcap : 16 ≤ m.dictionary.capacity) :
    m.afterWord.dictionary.text m.dictionary.nextWord.1 = word := by
  obtain ⟨hinput, hnext, -⟩ := h.cons hcap
  rw [← hnext]
  exact h.buffered.text_nextWord hinput (m.dictionary.agreeOn_nextWord.mono (Nat.le_refl _) (by decide))

theorem endsIn_source_nil_iff (h : m.dictionary.Reading []) :
    EndsIn (source hooks) m (.ok () m') ↔ m' = m := by
  rw [endsIn_source_of_hasInput_eq_false h.hasInput_of_nil]
  constructor
  · intro heq
    cases heq
    rfl
  · intro heq
    rw [heq]

/-- A source with a first word succeeds if the word does and then the rest. -/
theorem endsIn_source_cons_iff (hs : hooks.Steady) (h : m.dictionary.Reading (word :: ws))
    (hcap : 16 ≤ m.dictionary.capacity) :
    EndsIn (source hooks) m (.ok () m') ↔
      ∃ m1, EndsIn (spelled hooks m.dictionary.nextWord.1) m.afterWord (.ok () m1) ∧
        EndsIn (source hooks) m1 (.ok () m') :=
  (endsIn_source_of_hasInput hs (h.cons hcap).1).trans
    (EndsIn.bind_ok_iff (growing_spelled hs _) (growing_source hs))

/-! ## Lines -/

/-- A line is loaded and then interpreted. -/
theorem endsIn_interpretLine_iff (hs : hooks.Steady) {d : Dictionary}
    (h : loadInput line m.dictionary = .ok () d) :
    EndsIn (fun _ n => interpretLine hooks n line) m r ↔
      EndsIn (source hooks) { m with dictionary := d } r := by
  refine EndsIn.iff_of_forall (growing_interpretLine hs line) (growing_source hs) fun k => ?_
  refine ⟨k + 1, k + 1, k, k, by omega, by omega, ?_⟩
  have hload : onDictionary (loadInput line) m = .ok () { m with dictionary := d } := by
    simp only [onDictionary, h]
  exact bind_eq_of_ok hload _

theorem endsIn_lineByLine_nil : EndsIn (lineByLine hooks []) m r ↔ r = .ok () m := by
  constructor
  · rintro ⟨-, N, n, hr⟩
    exact hr.symm
  · intro hr
    exact ⟨by simp [hr], 0, 0, hr.symm⟩

/-- Lines succeed if the first one does and then the others. -/
theorem endsIn_lineByLine_cons_iff (hs : hooks.Steady) :
    EndsIn (lineByLine hooks (line :: lines)) m (.ok () m') ↔
      ∃ m1, EndsIn (fun _ n => interpretLine hooks n line) m (.ok () m1) ∧
        EndsIn (lineByLine hooks lines) m1 (.ok () m') :=
  EndsIn.bind_ok_iff (growing_interpretLine hs line) (growing_lineByLine hs lines)

end Machine

end ThreadedForth
