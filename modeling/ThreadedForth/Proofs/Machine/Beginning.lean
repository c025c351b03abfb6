import ThreadedForth.Proofs.Dictionary.Linked
import ThreadedForth.Proofs.Dictionary.Parallel
import ThreadedForth.Proofs.Machine.Fuel
import ThreadedForth.Proofs.Machine.Semicolon

/-!
# The beginning and the end of a definition

`:` notes the place of a new entry, whose address it pushes (`noteEntry`), and takes the next word of
the source as its name (`beginNext`). In a dictionary that is linked to its definitions a definition
with that name is then compiled after the others (`Started`). Once its code is complete, `;` makes it
one of them (`Ended`).
-/

set_option autoImplicit false

namespace ThreadedForth.Machine

open Dictionary

variable {H : Type} {m m1 m2 : Machine H} {fs : List Definition} {f : Definition} {limit : Nat}
  {code : List Cell} {data : Stack}

/-! ## The steps of `:` -/

/-- The place of the new definition is noted. -/
def noteEntry : MachineM H Unit := do
  let entry ← onDictionary alignHere
  push entry.toInt16
  modifyDictionary (·.setReservedAddr .openEntry entry)

/-- Reads a word where there is one. -/
def takeWord : MachineM H Span := onDictionary fun d => .ok d.nextWord.1 d.nextWord.2

/-- The next word becomes the name of a definition. -/
def beginNext : MachineM H Unit := takeWord >>= beginWord

theorem colon_eq_bind (hooks : Hooks H) (call : Interpreter H) (n : Nat) :
    colon hooks call n = noteEntry >>= fun _ => awaitWord hooks call n >>= beginWord := by
  simp only [colon, noteEntry, bind_assoc]
  rfl

theorem awaitWord_of_hasInput {hooks : Hooks H} {call : Interpreter H} {n : Nat}
    (h : m.dictionary.hasInput = true) : awaitWord hooks call (n + 1) m = takeWord m := by
  rw [awaitWord, bind_eq_of_ok (getDictionary_apply _ m), if_pos h]
  rfl

theorem beginNext_apply (m : Machine H) :
    beginNext m = beginWord m.dictionary.nextWord.1 m.afterWord := rfl

theorem neverExits_noteEntry : NeverExits (noteEntry : MachineM H Unit) :=
  (NeverExits.onDictionary _).bind fun _ => (NeverExits.onData _).bind fun _ _ _ h => by cases h

theorem neverExits_beginWord (name : Span) : NeverExits (beginWord name : MachineM H Unit) :=
  (NeverExits.onDictionary _).bind fun _ _ _ h => by cases h

theorem neverExits_beginNext : NeverExits (beginNext : MachineM H Unit) :=
  (NeverExits.onDictionary _).bind neverExits_beginWord

theorem of_noteEntry_eq_ok (h : noteEntry m = .ok () m1) : ∃ entry d data,
    alignHere m.dictionary = .ok entry d ∧ m.data.push? entry.toInt16 = some data ∧
      m1 = ⟨d.setReservedAddr .openEntry entry, data, m.returns, m.ip, m.host⟩ := by
  obtain ⟨entry, m2, hm2, h2⟩ := exists_of_bind_eq_ok h
  obtain ⟨d, halign, rfl⟩ := exists_of_onDictionary_eq_ok hm2
  obtain ⟨_, m3, hm3, h3⟩ := exists_of_bind_eq_ok h2
  obtain ⟨data, hpush, rfl⟩ := of_push_eq_ok hm3
  cases h3
  exact ⟨entry, d, data, halign, hpush, rfl⟩

/-- To note the place does nothing to the source. -/
theorem agreeOn_of_noteEntry_eq_ok (h : noteEntry m = .ok () m1) :
    m.dictionary.AgreeOn m1.dictionary 10 96 := by
  obtain ⟨entry, d, data, halign, -, rfl⟩ := of_noteEntry_eq_ok h
  obtain ⟨-, -, -, -, hagree⟩ := of_alignHere_eq_ok halign
  exact (hagree.mono (by decide) (by decide)).trans
    (d.agreeOn_setReserved .openEntry _ (Or.inl (by decide)))

/-- Where there is a word to read, `:` takes it for the name. -/
theorem colon_eq_of_hasInput (hooks : Hooks H) (call : Interpreter H) (n : Nat)
    (hbuffered : m.dictionary.Buffered)
    (hinput : m.dictionary.hasInput = true) :
    colon hooks call (n + 1) m = (noteEntry >>= fun _ => beginNext) m := by
  rw [colon_eq_bind]
  refine bind_congr_of_ok fun _ m1 hm1 => bind_eq_bind_of_eq (awaitWord_of_hasInput ?_) _
  rw [hbuffered.hasInput_eq_of_agreeOn (agreeOn_of_noteEntry_eq_ok hm1), hinput]

/-- Where the source is the same, the next word is the same text of the buffer. -/
theorem nextWord_of_agreeOn {d d' : Dictionary} (h : d.Buffered) (hinput : d.hasInput = true)
    (hd : d.AgreeOn d' 10 96) : InBuffer d'.nextWord.1 ∧
      d'.nextWord.1.length.toNat = d.nextText.length ∧
      d'.nextWord.2.text d'.nextWord.1 = d.nextText := by
  have hbuffered := h.of_agreeOn hd
  have hinput' : d'.hasInput = true := by rw [h.hasInput_eq_of_agreeOn hd, hinput]
  obtain ⟨hstart, hstop, hlength⟩ := hbuffered.nextWord_within hinput'
  rw [h.nextText_eq hd] at hlength
  refine ⟨⟨hstart, hstop⟩, hlength, ?_⟩
  rw [hbuffered.text_nextWord hinput' (d'.agreeOn_nextWord.mono (Nat.le_refl _) (by decide)),
    h.nextText_eq hd]

/-! ## Beginning -/

/-- The definition `f`, named by the next word, was begun after the others. -/
structure Started (m m1 : Machine H) (fs : List Definition) (limit : Nat) (f : Definition) : Prop where
  unfinished : m1.dictionary.Unfinished fs limit f []
  name_eq : f.name = m.dictionary.nextText
  push_eq : m.data.push? f.addr.toInt16 = some m1.data
  leavesBelow : m.dictionary.LeavesBelow m1.dictionary limit
  agreeOn : m.afterWord.dictionary.AgreeOn m1.dictionary 10 96
  returns_eq : m1.returns = m.returns
  ip_eq : m1.ip = m.ip
  host_eq : m1.host = m.host

/-- The dictionary in which the place of a new definition was noted. -/
theorem linked_of_noteEntry_eq_ok (hlinked : m.dictionary.Linked fs limit)
    (hresting : m.dictionary.Resting fs) (h : noteEntry m = .ok () m1) :
    m.dictionary.LeavesBelow m1.dictionary limit ∧ m1.dictionary.Ready ∧
      m1.dictionary.here.toNat % 2 = 0 ∧ m1.dictionary.openEntry = m1.dictionary.here ∧
      (fs = [] → m1.dictionary.here = Layout.firstEntry) ∧
      m.data.push? m1.dictionary.here.toInt16 = some m1.data := by
  obtain ⟨entry, d, data, halign, hpush, rfl⟩ := of_noteEntry_eq_ok h
  obtain ⟨hentry, -, hready1, hnum, -⟩ := of_alignHere_eq_ok halign
  have hle1 := hready1.le_here
  have hlt1 := hready1.here_lt
  rw [toNat_firstEntry] at hle1
  have hready : m.dictionary.Ready := by
    have hle := Nat.le_trans hlinked.le_limit hlinked.limit_le
    rw [(extends_of_alignHere halign).1.capacity_eq] at hlt1
    exact ⟨hle, by omega⟩
  have hdrafts := (drafts_alignHere hready halign).trans
    (drafts_setReserved hready1 .openEntry entry.toInt16 (by decide))
  have hhere : (d.setReservedAddr .openEntry entry).here = entry :=
    (d.here_setReserved _ _ (by decide)).trans hentry.symm
  refine ⟨hdrafts.leavesBelow hlinked.limit_le, hdrafts.ext.ready hready, ?_, ?_, ?_, ?_⟩
  · rw [hhere, hentry, hnum]
    omega
  · rw [hhere, openEntry, reservedAddr, setReservedAddr, reserved_setReserved _ _ _ (by omega),
      UInt16.toUInt16_toInt16]
  · intro hnil
    apply UInt16.toNat_inj.1
    rw [hhere, hentry, hnum, hresting.first hnil]
    rfl
  · rw [hhere]
    exact hpush

/-- The next word is the name of a definition that is begun. -/
theorem exists_started_of_eq_ok (hlinked : m.dictionary.Linked fs limit)
    (hresting : m.dictionary.Resting fs) (hbuffered : m.dictionary.Buffered)
    (hinput : m.dictionary.hasInput = true)
    (h : (noteEntry >>= fun _ => beginNext) m = .ok () m1) : ∃ f, m.Started m1 fs limit f := by
  obtain ⟨_, m2, hnote, h2⟩ := exists_of_bind_eq_ok h
  have hagree := agreeOn_of_noteEntry_eq_ok hnote
  obtain ⟨hleaves2, hready2, heven2, hopen2, hfirst2, hpush2⟩ :=
    linked_of_noteEntry_eq_ok hlinked hresting hnote
  obtain ⟨entry, d2, data, -, -, rfl⟩ := of_noteEntry_eq_ok hnote
  rw [beginNext_apply] at h2
  obtain ⟨_, m3, hm3, h3⟩ := exists_of_bind_eq_ok h2
  obtain ⟨d, hdefine, rfl⟩ := exists_of_onDictionary_eq_ok hm3
  cases h3
  generalize d2.setReservedAddr .openEntry entry = d3 at *
  have hreads := d3.inputOnly_nextWord
  have hhere := hreads.here_eq
  have hlinked2 := hlinked.of_leavesBelow hleaves2
  obtain ⟨hname, -, htext⟩ := nextWord_of_agreeOn hbuffered hinput hagree
  have hpos := length_nextText_pos hinput
  obtain ⟨hunfinished, hleaves, hkept⟩ := (hlinked2.of_inputOnly hreads).unfinished_of_define
    (hreads.ready hready2) (by rw [hhere]; exact heven2)
    ((hreads.reservedAddr (by decide)).trans (hopen2.trans hhere.symm))
    (fun hnil => hhere.trans (hfirst2 hnil)) (by
      rw [htext]
      exact List.ne_nil_of_length_pos hpos) hname.le_start hname.stop_le hdefine
  refine ⟨_, hunfinished, htext, ?_, ?_, ?_, rfl, rfl, rfl⟩
  · show m.data.push? d3.nextWord.2.here.toInt16 = some data
    rw [hhere]
    exact hpush2
  · exact (hleaves2.trans (hreads.leavesBelow hlinked2.limit_le)).trans hleaves
  · exact (hbuffered.agreeOn_nextWord hleaves2.capacity_eq hagree).trans hkept

/-! ## Ending -/

/-- The definition `f` was ended and is the newest of all. -/
structure Ended (m m1 : Machine H) (fs : List Definition) (f : Definition) (code : List Cell) :
    Prop where
  publishes : m.dictionary.Publishes m1.dictionary f code
  linked : m1.dictionary.Linked (f :: fs) m1.dictionary.here.toNat
  resting : m1.dictionary.Resting (f :: fs)
  pop_eq : m.data.pop? = some (f.addr.toInt16, m1.data)
  returns_eq : m1.returns = m.returns
  ip_eq : m1.ip = m.ip
  host_eq : m1.host = m.host

theorem ended_of_semicolon_eq_ok (hunfinished : m.dictionary.Unfinished fs limit f code)
    (htop : m.data.pop? = some (f.addr.toInt16, data)) (h : semicolon m = .ok () m1) :
    m.Ended m1 fs f code := by
  by_cases hroom : m.dictionary.HasRoom
  · obtain ⟨d, hlink, hpublishes, hlinked, hresting⟩ :=
      hunfinished.exists_link_eq_ok (append_exit_eq hroom)
    rw [semicolon_of_hasRoom htop hroom, UInt16.toUInt16_toInt16] at h
    obtain ⟨d1, hd1, rfl⟩ := exists_of_onDictionary_eq_ok h
    have heq : d1 = d := by
      have hboth := hd1.symm.trans hlink
      cases hboth
      rfl
    subst heq
    exact ⟨hpublishes, hlinked, hresting, htop, rfl, rfl, rfl⟩
  · rw [semicolon_of_not_hasRoom htop hroom] at h
    cases h

end ThreadedForth.Machine
