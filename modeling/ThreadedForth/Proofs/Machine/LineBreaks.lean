import ThreadedForth.Proofs.Machine.Phrases

/-!
# Line breaks

A text of numbers, words of the stacks and definitions can be cut into lines in many ways. The lines
are loaded into the input buffer one after the other, so at no time do the buffers of two runs have to
hold the same. But after each word the machines are twins (`exists_endsIn_remaining`): what they have
on their stacks, what they have compiled and how they stop does not depend on the line breaks
(`Twins.exists_endsIn_lineByLine`), in a new machine as in any other one between two lines. Only the name
of a new definition has to be on the line of its `:`.

A definition that leaves a number on the return stack makes its exit jump there, be it into the input
buffer (`lineByLine_bufferJump`). So a definition takes back from the return stack what it puts there,
and nothing else.
-/

set_option autoImplicit false

namespace ThreadedForth

/-! ## Texts and lines -/

/-- A line that fits into the input buffer and whose words are those of the phrases. -/
structure IsLine (line : List UInt8) (phrases : List Phrase) : Prop where
  length_le : line.length ≤ Layout.inputCapacity
  zero_notMem : 0 ∉ line
  words_eq : Text.words line = phrases.flatMap Phrase.texts

theorem IsLine.lineOf {line : List UInt8} {phrases : List Phrase} (h : IsLine line phrases) :
    LineOf line (phrases.flatMap Phrase.texts) := ⟨h.length_le, h.zero_notMem, h.words_eq⟩

/-- The phrases are cut into lines. -/
inductive Cut : List Phrase → List (List UInt8) → Prop
  | nil : Cut [] []
  | cons {line : List UInt8} {piece phrases : List Phrase} {lines : List (List UInt8)}
      (isLine : IsLine line piece) (rest : Cut phrases lines) : Cut (piece ++ phrases) (line :: lines)

namespace Machine

open Dictionary

variable {H : Type} {hooks : Hooks H} {m m' m1 m1' : Machine H} {l : Library} {o : Outline}
  {phrase : Phrase} {phrases : List Phrase} {line word : List UInt8} {lines lines' : List (List UInt8)}
  {r : EStateM.Result Stop (Machine H) Unit}

/-! ## Runs over lines -/

/-- The rest of the source, and then the lines. -/
def remaining (hooks : Hooks H) (lines : List (List UInt8)) (N n : Nat) : MachineM H Unit :=
  source hooks N n >>= fun _ => lineByLine hooks lines N n

theorem growing_remaining (hs : hooks.Steady) (lines : List (List UInt8)) :
    Growing (remaining hooks lines) := Growing.bind (growing_source hs) (growing_lineByLine hs lines)

theorem endsIn_lineByLine_cons (hs : hooks.Steady) {d : Dictionary}
    (h : loadInput line m.dictionary = .ok () d) :
    EndsIn (lineByLine hooks (line :: lines)) m r ↔
      EndsIn (remaining hooks lines) { m with dictionary := d } r :=
  EndsIn.bind_congr (growing_interpretLine hs line) (growing_source hs)
    (growing_lineByLine hs lines) fun _ => endsIn_interpretLine_iff hs h

/-- At the end of the source the lines are left. -/
theorem endsIn_remaining_of_hasInput_eq_false (hs : hooks.Steady)
    (h : m.dictionary.hasInput = false) :
    EndsIn (remaining hooks lines) m r ↔ EndsIn (lineByLine hooks lines) m r := by
  refine (EndsIn.bind_iff (growing_source hs) (growing_lineByLine hs lines)).trans ?_
  simp only [endsIn_source_of_hasInput_eq_false h]
  constructor
  · rintro (⟨m1, heq, hlines⟩ | ⟨stop, m1, heq, -⟩)
    · cases heq
      exact hlines
    · cases heq
  · intro hlines
    exact .inl ⟨m, rfl, hlines⟩

/-- The next word of the source is interpreted, and then the rest. -/
theorem endsIn_remaining_of_hasInput (hs : hooks.Steady) (h : m.dictionary.hasInput = true) :
    EndsIn (remaining hooks lines) m r ↔
      EndsIn (fun N n => spelled hooks m.dictionary.nextWord.1 N n >>= fun _ =>
        remaining hooks lines N n) m.afterWord r := by
  have hboth := EndsIn.bind_congr (growing_source hs)
    (Growing.bind (growing_spelled hs m.dictionary.nextWord.1) (growing_source hs))
    (growing_lineByLine hs lines) (r := r) fun _ => endsIn_source_of_hasInput hs h
  simp only [bind_assoc] at hboth
  exact hboth

/-! ## What is ahead -/

/-- The phrases that are unread in the input buffer and in the lines after it. -/
def Ahead (m : Machine H) (lines : List (List UInt8)) (phrases : List Phrase) : Prop :=
  ∃ piece rest, phrases = piece ++ rest ∧
    m.dictionary.Reading (piece.flatMap Phrase.texts) ∧ Cut rest lines

/-- A line is loaded. -/
theorem exists_loadInput_of_isLine {piece : List Phrase} (hcap : 96 ≤ m.dictionary.capacity)
    (h : IsLine line piece) : ∃ d, loadInput line m.dictionary = .ok () d ∧
      m.Twins { m with dictionary := d } ∧ d.Reading (piece.flatMap Phrase.texts) := by
  obtain ⟨d, hload, hinput, hreading⟩ := h.lineOf.exists_loadInput_eq_ok hcap
  exact ⟨d, hload, ⟨⟨hinput, rfl, rfl, rfl⟩, rfl⟩, hreading⟩

/-- At the end of a line the next one is loaded. -/
theorem Ahead.exists_next (hs : hooks.Steady) (hcap : 96 ≤ m.dictionary.capacity)
    (hinput : m.dictionary.hasInput = false) (h : Cut phrases (line :: lines)) :
    ∃ m1, m.Twins m1 ∧ Ahead m1 lines phrases ∧
      ∀ r, EndsIn (remaining hooks (line :: lines)) m r ↔ EndsIn (remaining hooks lines) m1 r := by
  cases h with
  | cons isLine rest =>
      obtain ⟨d, hload, htwins, hreading⟩ := exists_loadInput_of_isLine hcap isLine
      refine ⟨_, htwins, ⟨_, _, rfl, hreading, rest⟩, fun r => ?_⟩
      rw [endsIn_remaining_of_hasInput_eq_false hs hinput, endsIn_lineByLine_cons hs hload]

/-- Where no phrase is ahead, the lines are blank. -/
theorem Ahead.exists_eq_ok (hs : hooks.Steady) (hcap : 96 ≤ m.dictionary.capacity)
    (h : Ahead m lines []) :
    ∃ m1, m.Twins m1 ∧ ∀ r, EndsIn (remaining hooks lines) m r ↔ r = .ok () m1 := by
  induction lines generalizing m with
  | nil =>
      obtain ⟨piece, rest, heq, hreading, -⟩ := h
      obtain ⟨rfl, rfl⟩ := List.append_eq_nil_iff.1 heq.symm
      have hinput := hreading.hasInput_of_nil
      refine ⟨m, .refl m, fun r => ?_⟩
      rw [endsIn_remaining_of_hasInput_eq_false hs hinput]
      exact endsIn_lineByLine_nil
  | cons line lines ih =>
      obtain ⟨piece, rest, heq, hreading, hcut⟩ := h
      obtain ⟨rfl, rfl⟩ := List.append_eq_nil_iff.1 heq.symm
      obtain ⟨m1, htwins, hahead, hends⟩ := exists_next hs hcap hreading.hasInput_of_nil hcut
      obtain ⟨m2, htwins2, hends2⟩ := ih (by rw [htwins.dictionary.capacity_eq]; exact hcap) hahead
      exact ⟨m2, htwins.trans htwins2, fun r => (hends r).trans (hends2 r)⟩

/-- The lines in front of the next phrase are blank. -/
theorem Ahead.exists_reading (hs : hooks.Steady) (hcap : 96 ≤ m.dictionary.capacity)
    (h : Ahead m lines (phrase :: phrases)) :
    ∃ (m1 : Machine H) (lines1 : List (List UInt8)) (piece rest : List Phrase), m.Twins m1 ∧
      phrases = piece ++ rest ∧
      m1.dictionary.Reading (phrase.texts ++ piece.flatMap Phrase.texts) ∧ Cut rest lines1 ∧
      ∀ r, EndsIn (remaining hooks lines) m r ↔ EndsIn (remaining hooks lines1) m1 r := by
  induction lines generalizing m with
  | nil =>
      obtain ⟨piece, rest, heq, hreading, hcut⟩ := h
      cases hcut
      rw [List.append_nil] at heq
      subst heq
      exact ⟨m, [], phrases, [], .refl m, (List.append_nil phrases).symm, hreading, .nil, fun _ => .rfl⟩
  | cons line lines ih =>
      obtain ⟨piece, rest, heq, hreading, hcut⟩ := h
      cases piece with
      | nil =>
          rw [List.nil_append] at heq
          subst heq
          obtain ⟨m1, htwins, hahead, hends⟩ := exists_next hs hcap hreading.hasInput_of_nil hcut
          obtain ⟨m2, lines2, piece, rest, htwins2, hphrases, hreading2, hcut2, hends2⟩ :=
            ih (by rw [htwins.dictionary.capacity_eq]; exact hcap) hahead
          exact ⟨m2, lines2, piece, rest, htwins.trans htwins2, hphrases, hreading2, hcut2,
            fun r => (hends r).trans (hends2 r)⟩
      | cons first piece =>
          injection heq with hfirst hphrases
          subst hfirst
          exact ⟨m, line :: lines, piece, rest, .refl m, hphrases, hreading, hcut, fun _ => .rfl⟩

/-! ## Two ways to cut a text -/

/-- With the same phrases ahead, twins end alike. -/
theorem Twins.exists_endsIn_remaining (hs : hooks.Steady) (h : m.Twins m') (ho : m.Outlines l o)
    (hphrases : o.admits phrases = true) (hallowed : ∀ phrase ∈ phrases, phrase.Allowed l)
    (hahead : Ahead m lines phrases) (hahead' : Ahead m' lines' phrases)
    (hr : EndsIn (remaining hooks lines) m r) :
    ∃ r', EndsIn (remaining hooks lines') m' r' ∧ Coupled Twins Twins r r' := by
  -- on the phrases: the machines are twins after each of them, and the lines differ as they did
  induction phrases generalizing m m' o lines lines' with
  | nil =>
      obtain ⟨m1, h1, hends⟩ := hahead.exists_eq_ok hs ho.le_capacity
      obtain ⟨m1', h1', hends'⟩ := hahead'.exists_eq_ok hs (ho.of_twins h).le_capacity
      rw [(hends r).1 hr]
      exact ⟨.ok () m1', (hends' _).2 rfl, .ok ((h1.symm.trans h).trans h1')⟩
  | cons phrase phrases ih =>
      obtain ⟨o1, hafter, hphrases1⟩ := Outline.exists_of_admits_cons hphrases
      obtain ⟨m1, lines1, piece, rest, h1, hpiece, hreading, hcut, hends⟩ :=
        hahead.exists_reading hs ho.le_capacity
      obtain ⟨m1', lines1', piece', rest', h1', hpiece', hreading', hcut', hends'⟩ :=
        hahead'.exists_reading hs (ho.of_twins h).le_capacity
      have ho1 := ho.of_twins h1
      have hboth := (h1.symm.trans h).trans h1'
      have ho1' := ho1.of_twins hboth
      have hinput := hasInput_of_phrase hreading (Nat.le_trans (by decide) ho1.le_capacity)
      have hinput' := hasInput_of_phrase hreading' (Nat.le_trans (by decide) ho1'.le_capacity)
      have hrun := (endsIn_remaining_of_hasInput hs hinput).1 ((hends r).1 hr)
      have hleft := hreading.afterWords (Nat.le_trans (by decide) ho1.le_capacity)
      have hleft' := hreading'.afterWords (Nat.le_trans (by decide) ho1'.le_capacity)
      obtain ⟨hfirst, hothers⟩ := List.forall_mem_cons.1 hallowed
      obtain ⟨r', hrun', hr'⟩ := EndsIn.exists_bind_of_coupled (growing_spelled hs _)
        (growing_spelled hs _) (growing_remaining hs lines1) (growing_remaining hs lines1')
        (hboth.coupled_spelled hooks ho1 hafter hfirst hreading hreading')
        (fun m2 m2' h2 hr2 => ih h2.twins h2.outlines hphrases1 hothers
          ⟨piece, rest, hpiece, hleft.of_agreeOn h2.agreeOn, hcut⟩
          ⟨piece', rest', hpiece', hleft'.of_agreeOn h2.agreeOn', hcut'⟩ hr2) hrun
      exact ⟨r', (hends' r').2 ((endsIn_remaining_of_hasInput hs hinput').2 hrun'), hr'⟩

/-- The line breaks of a text make no difference to twins at the end of their sources. If the text consists
of words that the outline admits, two ways to cut it into lines end alike: both succeed or both stop for
the same reason, in machines that are twins again. -/
theorem Twins.exists_endsIn_lineByLine (hs : hooks.Steady) (h : m.Twins m') (ho : m.Outlines l o)
    (hunread : m.dictionary.Reading []) (hunread' : m'.dictionary.Reading [])
    (hphrases : o.admits phrases = true) (hallowed : ∀ phrase ∈ phrases, phrase.Allowed l)
    (hcut : Cut phrases lines) (hcut' : Cut phrases lines')
    (hr : EndsIn (lineByLine hooks lines) m r) :
    ∃ r', EndsIn (lineByLine hooks lines') m' r' ∧ Coupled Twins Twins r r' := by
  obtain ⟨r', hr', hboth⟩ := h.exists_endsIn_remaining hs ho hphrases hallowed
    ⟨[], phrases, rfl, hunread, hcut⟩ ⟨[], phrases, rfl, hunread', hcut'⟩
    ((endsIn_remaining_of_hasInput_eq_false hs hunread.hasInput_of_nil).2 hr)
  exact ⟨r', (endsIn_remaining_of_hasInput_eq_false hs hunread'.hasInput_of_nil).1 hr', hboth⟩

/-! ## A new machine -/

/-- Nothing is unread in a dictionary that was set up. -/
theorem reading_setUp {d : Dictionary} (hcap : 16 ≤ d.capacity) : d.setUp.Reading [] := by
  obtain ⟨-, -, -, -, hsource, hlength, hcursor⟩ := reserved_setUp hcap
  have hzero : d.setUp.unreadLength = 0 := by
    rw [unreadLength, reservedAddr, hlength]
    exact Nat.zero_sub _
  have hunread : d.setUp.unread = [] := by
    rw [unread, hzero]
    rfl
  refine ⟨⟨?_, ?_, ?_⟩, by simp [hunread], by simp [hunread]⟩
  · simp [reservedAddr, hsource]
  · rw [reservedAddr, hlength]
    decide
  · rw [reservedAddr, hcursor]
    decide

/-- The line breaks of a text make no difference. Two ways to cut it into lines end alike in a machine
without definitions: both succeed or both stop for the same reason, and the machines differ in the
source and the input buffer only. -/
theorem exists_endsIn_lineByLine_of_cut (hs : hooks.Steady) {d : Dictionary} {config : Config}
    {host : H} (hcap : 96 ≤ d.capacity) (hphrases : (⟨[], none⟩ : Outline).admits phrases = true)
    (hcut : Cut phrases lines) (hcut' : Cut phrases lines')
    (hr : EndsIn (lineByLine hooks lines) (ofDictionary d.setUp host config) r) :
    ∃ r', EndsIn (lineByLine hooks lines') (ofDictionary d.setUp host config) r' ∧
      Coupled Twins Twins r r' := by
  obtain ⟨hstocked, hresting⟩ := stocked_setUp hcap
  have hunread := reading_setUp (Nat.le_trans (by decide) hcap)
  have houtlines : (ofDictionary d.setUp host config).Outlines .empty ⟨[], none⟩ :=
    outlines_library hstocked hresting rfl
  exact (Twins.refl _).exists_endsIn_lineByLine hs houtlines hunread hunread hphrases
    (fun phrase _ => phrase.allowed_empty) hcut hcut' hr

/-- A definition and its use. -/
def twicePhrases : List Phrase :=
  [.colon (Text.encode "twice"), .word (Text.encode "dup"), .word (Text.encode "+"),
    .word (Text.encode ";"), .word (Text.encode "3"), .word (Text.encode "twice")]

/-- The text on one line. -/
def twiceLine : List (List UInt8) := [Text.encode ": twice dup + ; 3 twice"]

/-- The text on five lines, one of which is blank. -/
def twiceLines : List (List UInt8) :=
  [Text.encode " : twice dup", Text.encode "+", Text.encode "  ", Text.encode "; 3",
    Text.encode "twice "]

theorem cut_twiceLine : Cut twicePhrases twiceLine := by
  have hline : IsLine (Text.encode ": twice dup + ; 3 twice") twicePhrases :=
    ⟨by decide, by decide, by decide +kernel⟩
  exact .cons hline .nil

theorem cut_twiceLines : Cut twicePhrases twiceLines := by
  have hfirst : IsLine (Text.encode " : twice dup") [.colon (Text.encode "twice"),
      .word (Text.encode "dup")] := ⟨by decide, by decide, by decide +kernel⟩
  have hsecond : IsLine (Text.encode "+") [.word (Text.encode "+")] :=
    ⟨by decide, by decide, by decide +kernel⟩
  have hblank : IsLine (Text.encode "  ") [] := ⟨by decide, by decide, by decide +kernel⟩
  have hend : IsLine (Text.encode "; 3") [.word (Text.encode ";"), .word (Text.encode "3")] :=
    ⟨by decide, by decide, by decide +kernel⟩
  have hlast : IsLine (Text.encode "twice ") [.word (Text.encode "twice")] :=
    ⟨by decide, by decide, by decide +kernel⟩
  exact .cons hfirst (.cons hsecond (.cons hblank (.cons hend (.cons hlast .nil))))

/-- The text leaves six, on one line and on five. -/
theorem exists_endsIn_twiceLines : ∃ m1 m2 : Machine Unit,
    EndsIn (lineByLine {} twiceLine) (ofConfig ⟨4, 4, 128⟩ ()) (.ok () m1) ∧
      EndsIn (lineByLine {} twiceLines) (ofConfig ⟨4, 4, 128⟩ ()) (.ok () m2) ∧
      m1.Twins m2 ∧ m2.data.cells = [6] := by
  have hfacts : value? (lineByLine {} twiceLine 0 20 (ofConfig ⟨4, 4, 128⟩ ())) = some () ∧
      (lastState (lineByLine {} twiceLine 0 20 (ofConfig ⟨4, 4, 128⟩ ()))).data.cells = [6] := by
    decide +kernel
  obtain ⟨hvalue, hcells⟩ := hfacts
  have hone : EndsIn (lineByLine {} twiceLine) (ofConfig ⟨4, 4, 128⟩ ())
      (.ok () (lastState (lineByLine {} twiceLine 0 20 (ofConfig ⟨4, 4, 128⟩ ())))) :=
    ⟨fun _ => by simp, 0, 20, eq_ok_lastState hvalue⟩
  have hcapacity : 96 ≤ (⟨.flat (.zeros 128)⟩ : Dictionary).capacity := by decide +kernel
  obtain ⟨r', hfive, hboth⟩ := exists_endsIn_lineByLine_of_cut Hooks.steady_default hcapacity
    (by decide +kernel) cut_twiceLine cut_twiceLines hone
  generalize lastState (lineByLine {} twiceLine 0 20 (ofConfig ⟨4, 4, 128⟩ ())) = m1 at *
  cases hboth with
  | @ok _ _ m2 htwins => exact ⟨m1, m2, hone, hfive, htwins, htwins.data_eq ▸ hcells⟩

/-- A definition leaves an address of the input buffer on the return stack, and its exit jumps there. -/
def bufferJump : List Phrase :=
  [.colon (Text.encode "w"), .word (Text.encode "16"), .word (Text.encode ">r"),
    .word (Text.encode ";"), .word (Text.encode "w")]

/-- What runs in the input buffer is the line itself: a tab behind the last word is a token there. And
where the memory ends before the buffer does, so does a number. -/
theorem lineByLine_bufferJump :
    (Cut bufferJump [Text.encode ": w 16 >r ;", Text.encode "w"] ∧
      error? (lineByLine {} [Text.encode ": w 16 >r ;", Text.encode "w"] 0 40
        (ofConfig ⟨4, 4, 128⟩ ())) = some (.error .stackOverflow) ∧
      Cut bufferJump [Text.encode ": w 16 >r ;", Text.encode "w \t"] ∧
      error? (lineByLine {} [Text.encode ": w 16 >r ;", Text.encode "w \t"] 0 40
        (ofConfig ⟨4, 4, 128⟩ ())) = some (.error .stackUnderflow)) ∧
    (Cut [.word (Text.encode "12")] [Text.encode "12"] ∧
      (lastState (lineByLine {} [Text.encode "12"] 0 40
        (ofConfig ⟨4, 4, 95⟩ ()))).data.cells = [12] ∧
      Cut [.word (Text.encode "12")] [List.replicate 78 32 ++ Text.encode "12"] ∧
      (lastState (lineByLine {} [List.replicate 78 32 ++ Text.encode "12"] 0 40
        (ofConfig ⟨4, 4, 95⟩ ()))).data.cells = [1]) := by
  have hdefinition : IsLine (Text.encode ": w 16 >r ;") [.colon (Text.encode "w"),
      .word (Text.encode "16"), .word (Text.encode ">r"), .word (Text.encode ";")] :=
    ⟨by decide, by decide, by decide +kernel⟩
  have hplain : IsLine (Text.encode "w") [.word (Text.encode "w")] :=
    ⟨by decide, by decide, by decide +kernel⟩
  have htab : IsLine (Text.encode "w \t") [.word (Text.encode "w")] :=
    ⟨by decide, by decide, by decide +kernel⟩
  have hnumber : IsLine (Text.encode "12") [.word (Text.encode "12")] :=
    ⟨by decide, by decide, by decide +kernel⟩
  have hfar : IsLine (List.replicate 78 32 ++ Text.encode "12") [.word (Text.encode "12")] :=
    ⟨by decide, by decide +kernel, by decide +kernel⟩
  refine ⟨⟨.cons hdefinition (.cons hplain .nil), ?_, .cons hdefinition (.cons htab .nil), ?_⟩,
    .cons hnumber .nil, ?_, .cons hfar .nil, ?_⟩
  · decide +kernel
  · decide +kernel
  · decide +kernel
  · decide +kernel

end Machine

end ThreadedForth
