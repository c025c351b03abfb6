import ThreadedForth.Proofs.Machine.Beside
import ThreadedForth.Proofs.Machine.Course
import ThreadedForth.Proofs.Terminal.Loading

/-!
# What the picture of an unknown word marks

When a line fails for a word that is not known, the line is shown and the word is marked in it. The machine
knows bytes and addresses only, and the picture is text. But the line is still in the buffer, if it was only
read, and the word is what was read of it last (`Misses.exists_occurs`), between bytes that are ASCII. So the
marked part is a part of the text, whatever characters the line is made of, and it is the word itself and
not an equal one before it (`picture_marks_missed_word`).
-/

set_option autoImplicit false

namespace ThreadedForth

open Dictionary

namespace Terminal

open Machine

variable {d d' : Dictionary} {name : Span} {line before word after : String} {n : Nat}
  {m m' : Machine Terminal}

/-! ## The picture -/

/-- The line in the buffer is the current line, wherever reading has come to. -/
theorem currentLine?_of_inLine {k : Nat} (h : d.InLine (Text.encode line) k) :
    currentLine? d = some (Text.encode line) := by
  rw [currentLine?, if_pos h.sourced.source_eq, h.sourced.length_eq]
  dsimp only
  rw [h.sourced.bytes_eq, Text.decode?_encode]
  rfl

/-- A word of the line is marked where it lies. -/
theorem ofUnknownWord?_of_occurs {bytes : List UInt8} {i j : Nat} (hline : currentLine? d = some bytes)
    (hlength : bytes.length ≤ Layout.inputCapacity) (hoccurs : Text.Occurs bytes i j) :
    Picture.ofUnknownWord? d (place Layout.inputBuffer (i, j)) = some ⟨bytes, i, j - i⟩ := by
  have hlt := hoccurs.lt
  have hle := hoccurs.le_length
  change bytes.length ≤ 80 at hlength
  have hbuffer : Layout.inputBuffer.toNat = 16 := rfl
  have hstart : ((place Layout.inputBuffer (i, j)).start - Layout.inputBuffer).toNat = i := by
    rw [place, UInt16.add_comm, UInt16.add_sub_cancel, UInt16.toNat_ofNat_of_lt' (by show _ < 65536; omega)]
  have habove : Layout.inputBuffer ≤ (place Layout.inputBuffer (i, j)).start := by
    rw [UInt16.le_iff_toNat_le, place, toNat_add_ofNat (by omega)]
    exact Nat.le_add_right _ _
  rw [Picture.ofUnknownWord?, hline]
  dsimp only
  rw [hstart, length_place (Nat.le_of_lt hlt) (by omega), if_pos ⟨habove, by omega, by omega⟩]

/-- In the picture of an unknown word, the line is the text that was typed, in three parts, and the second
one is marked: it is the word that was not known, with all its bytes and no others, and at the place where it
was read last. -/
structure Marks (d : Dictionary) (name : Span) (line before word after : String) : Prop where
  line_eq : before ++ word ++ after = line
  currentLine_eq : currentLine? d = some (Text.encode line)
  picture_eq : Picture.ofUnknownWord? d name =
    some ⟨Text.encode line, (Text.encode before).length, (Text.encode word).length⟩
  ne_empty : word ≠ ""
  text_eq : d.text name = Text.encode word
  /-- It is a whole word of the line. -/
  occurs : Text.Occurs (Text.encode line) (Text.encode before).length
    ((Text.encode before).length + (Text.encode word).length)
  /-- It is the word that was read next before the line failed. -/
  last : ∃ d₁ : Dictionary, d₁.nextWord = (name, d) ∧ d₁.IsNextWord (Text.encode before).length
    ((Text.encode before).length + (Text.encode word).length)
  /-- Only what is before it, the word and the byte that ends it were read. -/
  cursor_eq : (d.reservedAddr .cursor).toNat =
    (Text.encode before).length + (Text.encode word).length + 1
  unknown : d.meaning name = .unknown
  not_number : Numeral.read? d.base (Text.encode word) = none

/-- A word that was missed in a line is marked in its picture. -/
theorem exists_marks_of_misses {k : Nat} (h : d.InLine (Text.encode line) k) (hmisses : d.Misses name d') :
    ∃ before word after, Marks d' name line before word after := by
  obtain ⟨i, j, hoccurs, rfl, hrest, ⟨d₁, hnext, hword⟩, htext⟩ := Misses.exists_occurs h hmisses
  obtain ⟨d₂, -, -, -, hmeaning, hnumber⟩ := hmisses
  obtain ⟨before, word, after, rfl, rfl, rfl⟩ := hoccurs.exists_append
  have hcurrent := currentLine?_of_inLine hrest
  have hpicture := ofUnknownWord?_of_occurs hcurrent hrest.length_le hoccurs
  rw [Nat.add_sub_cancel_left] at hpicture
  have hspelled : d'.text (place Layout.inputBuffer
      ((Text.encode before).length, (Text.encode before).length + (Text.encode word).length)) =
      Text.encode word := by
    rw [htext, Nat.add_sub_cancel_left, Text.encode_append, Text.encode_append, List.append_assoc,
      List.drop_left, List.take_left]
  refine ⟨before, word, after, rfl, hcurrent, hpicture, ?_, hspelled, hoccurs, ⟨d₁, hword, hnext⟩,
    hrest.sourced.cursor_eq, hmeaning, hspelled ▸ hnumber⟩
  rintro rfl
  have hlt := hoccurs.lt
  rw [Text.encode_empty] at hlt
  exact absurd hlt (Nat.lt_irrefl _)

/-! ## The host -/

theorem failsOnly_refill (call : Interpreter Terminal) : FailsOnly Stop.IsPlain (refill call) := by
  refine FailsOnly.get.bind fun m => ?_
  dsimp only
  split
  · exact (failsOnly_modifyHost _).bind fun _ => failsOnly_onDictionary (failsOnly_loadInput _)
  · exact (failsOnly_modifyHost _).bind fun _ => .throw (Error.IsPlain.stop nofun)
  · exact (failsOnly_modifyHost _).bind fun _ => .throw (Error.IsPlain.stop nofun)

theorem failsOnly_loadImage : FailsOnly Stop.IsPlain loadImage := by
  refine FailsOnly.get.bind fun m => ?_
  dsimp only
  split
  · exact failsOnly_modifyDictionary _
  · exact failsOnly_modifyHost _

theorem failsOnly_listWords : FailsOnly Stop.IsPlain listWords := by
  refine (failsOnly_getDictionary _).bind fun text? => ?_
  cases text? with
  | some text => exact failsOnly_modifyHost _
  | none => exact .throw Stop.isPlain_outOfFuel

theorem failsOnly_sys (call : Interpreter Terminal) (selector : Cell) :
    FailsOnly Stop.IsPlain (sys call selector) := by
  unfold sys
  cases OutputCall.ofSelector? selector with
  | some output =>
      refine FailsOnly.bind ?_ fun text => failsOnly_modifyHost _
      exact (failsOnly_getDictionary _).bind fun base => failsOnly_pop.bind fun v => .pure _
  | none =>
      dsimp only
      split
      · exact (failsOnly_getDictionary _).bind fun bytes => failsOnly_modifyHost _
      · split
        · exact failsOnly_loadImage
        · split
          · exact failsOnly_listWords
          · exact .throw (Error.IsPlain.stop nofun)

/-- The terminal host has no words of its own, and what it does not fail for is a word. -/
theorem failPlainly_hooks : hooks.FailPlainly where
  sys N selector := failsOnly_sys (interpreter hooks N) selector
  refill N := failsOnly_refill (interpreter hooks N)
  unknownWord := rfl

/-! ## Lines -/

/-- A line that fails for a word was loaded, and then its source failed. -/
theorem interpretSource_of_interpretLine {bytes : List UInt8}
    (h : interpretLine hooks n bytes m = .error (.error (.wordNotFound name)) m') :
    ∃ d, loadInput bytes m.dictionary = .ok () d ∧ m.withLine bytes = { m with dictionary := d } ∧
      interpreter hooks n .interpretSource (m.withLine bytes) =
        .error (.error (.wordNotFound name)) m' := by
  rcases of_bind_eq_error h with hload | ⟨_, m1, hload, hsource⟩
  · have hplain := failsOnly_onDictionary (failsOnly_loadInput bytes) m _ m' hload
    exact absurd rfl (hplain.ne_wordNotFound name)
  · obtain ⟨d, hd, rfl⟩ := exists_of_onDictionary_eq_ok hload
    have hline : m.withLine bytes = { m with dictionary := d } := by
      rw [withLine, hd]
      rfl
    exact ⟨d, hd, hline, hline ▸ hsource⟩

/-- The picture marks the word that was not found. Where a line of well-formed text is interpreted in a
memory that the buffer lies in, and in the course of it nothing writes to the input buffer or to the cells
about the source, other than by reading words, and the line fails for a word, then it is the current line,
and in the picture of it that word is marked: a part of the text, not empty, and the very bytes that were read
last. -/
theorem picture_marks_missed_word {bytes : List UInt8} (hvalid : Text.decode? bytes = some line)
    (hcap : Layout.inputBuffer.toNat + bytes.length ≤ m.dictionary.capacity)
    (hspares : Spares hooks (.source, m.withLine bytes))
    (hfails : interpretLine hooks n bytes m = .error (.error (.wordNotFound name)) m') :
    ∃ before word after, Marks m'.dictionary name line before word after := by
  obtain rfl := Text.encode_eq_of_decode?_eq_some hvalid
  obtain ⟨d, hload, hline, hsource⟩ := interpretSource_of_interpretLine hfails
  have hfollows := (follows_interpreter failPlainly_hooks n).2 _ hspares
  rw [hsource, hline] at hfollows
  exact exists_marks_of_misses (inLine_of_loadInput hcap hload) hfollows

/-! ## A line with the same word twice -/

/-- A definition is begun, and its name comes up again before it has ended. -/
def accentLine : String := ": é é"

/-- A machine that knows only the primitives. -/
def accentMachine : Machine Terminal := ofConfig ⟨4, 4, 256⟩ { imagePath := "" }

/-- The machine with the line, -/
def accentLoaded : Machine Terminal := accentMachine.withLine (Text.encode accentLine)

/-- after the token of the colon, which takes the first of the equal words for a name, -/
def accentBegun : Machine Terminal :=
  lastState (runToken hooks (interpreter hooks 4) 4 Primitive.colon.token accentLoaded.afterWord)

/-- and after the colon as a word. -/
def accentDefining : Machine Terminal :=
  lastState (interpretWord hooks (interpreter hooks 4) 4 accentLoaded.dictionary.nextWord.1
    accentLoaded.afterWord)

/-- The name that is missed: the second one of the equal words. -/
def accentName : Span := ⟨21, 23⟩

theorem accentMachine_eq :
    accentLoaded.dictionary.hasInput = true ∧
      accentLoaded.afterWord.dictionary.meaning accentLoaded.dictionary.nextWord.1 =
        .known Primitive.colon.token Primitive.colon.isImmediate ∧
      value? (runToken hooks (interpreter hooks 4) 4 Primitive.colon.token accentLoaded.afterWord) =
        some () ∧
      accentBegun.ip = 2 ∧
      value? (interpretWord hooks (interpreter hooks 4) 4 accentLoaded.dictionary.nextWord.1
        accentLoaded.afterWord) = some () ∧
      accentDefining.dictionary.hasInput = true ∧ accentDefining.dictionary.nextWord.1 = accentName ∧
      accentDefining.afterWord.dictionary.meaning accentName = .unknown ∧
      error? (interpretWord hooks (interpreter hooks 4) 4 accentName accentDefining.afterWord) =
        some (.error (.wordNotFound accentName)) := by
  decide +kernel

/-- Where the bytes from the cell `source` to the end of the input buffer are equal, only reading can have
changed them. -/
theorem onlyReads_of_bytesFrom_eq (hcapacity : d'.capacity = d.capacity)
    (h : d'.memory.bytesFrom SystemCell.source.addr 86 = d.memory.bytesFrom SystemCell.source.addr 86) :
    d.OnlyReads d' :=
  onlyReads_of_agreeOn hcapacity fun _ hlo hhi => readByte_eq_of_bytesFrom_eq h hlo hhi

/-- Where a new entry lies is noted before its name is read, and all else is written behind the buffer. -/
theorem onlyReads_accentBegun :
    accentLoaded.afterWord.dictionary.OnlyReads accentBegun.dictionary := by
  have hfacts : let d := accentLoaded.afterWord.dictionary.setReservedAddr .openEntry 96
      d.hasInput = true ∧ d.capacity = accentLoaded.afterWord.dictionary.capacity ∧
        d.memory.bytesFrom SystemCell.source.addr 86 =
          accentLoaded.afterWord.dictionary.memory.bytesFrom SystemCell.source.addr 86 ∧
        accentBegun.dictionary.capacity = d.nextWord.2.capacity ∧
        accentBegun.dictionary.memory.bytesFrom SystemCell.source.addr 86 =
          d.nextWord.2.memory.bytesFrom SystemCell.source.addr 86 := by
    decide +kernel
  obtain ⟨hinput, hcapacity, hnoted, hcapacity', hbegun⟩ := hfacts
  exact ((onlyReads_of_bytesFrom_eq hcapacity hnoted).trans (onlyReads_nextWord hinput)).trans
    (onlyReads_of_bytesFrom_eq hcapacity' hbegun)

/-- The colon takes the first word for a name, and with the second one the line fails. -/
theorem spares_accentLoaded : Spares hooks (.source, accentLoaded) := by
  obtain ⟨hinput, hcolon, hbegun, hip, hdefining, hmore, hname, hunknown, hmissed⟩ := accentMachine_eq
  have hbegin : (Work.token Primitive.colon.token).run hooks 4 4 accentLoaded.afterWord =
      .ok () accentBegun := eq_ok_lastState hbegun
  have hdefine : (Work.word accentLoaded.dictionary.nextWord.1).run hooks 4 4 accentLoaded.afterWord =
      .ok () accentDefining := eq_ok_lastState hdefining
  have hfail : ∀ m', ¬ (Work.word accentName).Ends hooks accentDefining.afterWord m' := fun m' =>
    not_ends_of_run_eq_error steady_hooks (N := 4) (n := 4) (eq_error_lastState hmissed)
  have hnotRun : ∀ xt, ¬ accentDefining.afterWord.Executes accentName xt := by
    rintro xt ⟨immediate, hmeaning, -⟩
    rw [hunknown] at hmeaning
    cases hmeaning
  refine spares_source hinput ?_ fun m' hend => ?_
  · refine spares_word ⟨_, hcolon, .inl (by decide +kernel)⟩ ?_ fun m' hend hcode => ?_
    · refine spares_of_elementary (elementary_token (by decide) (by decide)) fun m' hend => ?_
      rw [eq_of_ends steady_hooks hend hbegin]
      exact onlyReads_accentBegun
    · rw [eq_of_ends steady_hooks hend hbegin, hip] at hcode
      exact absurd hcode (by decide)
  · rw [eq_of_ends steady_hooks hend hdefine]
    refine spares_source hmore ?_ fun m' hend => ?_
    · rw [hname]
      exact spares_of_elementary (elementary_word hnotRun) fun m' hend => absurd hend (hfail m')
    · rw [hname] at hend
      exact absurd hend (hfail m')

/-- The machine when the line has failed. -/
def accentFailed : Machine Terminal :=
  lastState (interpretLine hooks 6 (Text.encode accentLine) accentMachine)

/-- The second of the equal words is marked, with both bytes of its only letter. -/
theorem picture_marks_missed_word_accentLine :
    interpretLine hooks 6 (Text.encode accentLine) accentMachine =
        .error (.error (.wordNotFound accentName)) accentFailed ∧
      Picture.ofUnknownWord? accentFailed.dictionary accentName =
        some ⟨Text.encode accentLine, 5, 2⟩ ∧
      ∃ before word after, Marks accentFailed.dictionary accentName accentLine before word after := by
  have hfacts : Layout.inputBuffer.toNat + (Text.encode accentLine).length ≤
        accentMachine.dictionary.capacity ∧
      error? (interpretLine hooks 6 (Text.encode accentLine) accentMachine) =
        some (.error (.wordNotFound accentName)) ∧
      accentFailed.dictionary.text accentName = [195, 169] ∧
      (accentFailed.dictionary.reservedAddr .cursor).toNat = 8 := by
    decide +kernel
  obtain ⟨hcap, herror, htext, hcursor⟩ := hfacts
  have hfails : interpretLine hooks 6 (Text.encode accentLine) accentMachine =
      .error (.error (.wordNotFound accentName)) accentFailed := eq_error_lastState herror
  obtain ⟨before, word, after, hmarks⟩ :=
    picture_marks_missed_word (Text.decode?_encode _) hcap spares_accentLoaded hfails
  have hword : (Text.encode word).length = 2 := by
    rw [← hmarks.text_eq, htext]
    rfl
  have hbefore : (Text.encode before).length = 5 := by
    have hend := hmarks.cursor_eq
    omega
  exact ⟨hfails, hbefore ▸ hword ▸ hmarks.picture_eq, before, word, after, hmarks⟩

end Terminal

end ThreadedForth
