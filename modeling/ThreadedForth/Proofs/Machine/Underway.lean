import ThreadedForth.Proofs.Machine.Semicolon
import ThreadedForth.Proofs.Machine.Straight

/-!
# Words that are begun and finished

What becomes of a word while finished words are all that there is, and perhaps a begun one: its text
stands for a finished word, a primitive, a number or nothing (`interpretWord_of_settled`). `:` begins
a word after the finished ones, `;` finishes it (`exists_execute_semicolon`), and what is interpreted
in between adds code to it (`interpretWord_of_code?`). A reset takes the begun word away
(`Settled.reset`).
-/

set_option autoImplicit false

namespace ThreadedForth

/-- What a text stands for. -/
inductive Sense where
  | word (w : Word)
  | primitive (p : Primitive)
  | number (v : Cell)
  | nothing

/-- What a text stands for after the given words were finished. -/
def sense (ws : List Word) (text : List UInt8) : Sense :=
  match ws.find? fun w => Text.same text w.name with
  | some w => .word w
  | none =>
    match Primitive.ofName? text with
    | some p => .primitive p
    | none =>
      match Numeral.read? 10 text with
      | some v => .number v
      | none => .nothing

/-- The code that is added for a text to the word that is begun. -/
def Sense.code? : Sense → Option (List Cell)
  | word w => some [w.body.toInt16]
  | primitive p => if p.isStackWord then some [p.token.toInt16] else none
  | number v => some (literalCells v)
  | nothing => none

variable {ws ws1 : List Word} {w : Word} {b b1 : Option Word} {text next : List UInt8}

theorem mem_of_sense_eq_word (h : sense ws text = .word w) : w ∈ ws := by
  unfold sense at h
  split at h
  · rename_i v hfind
    cases h
    exact List.mem_of_find?_eq_some hfind
  · split at h
    · cases h
    · split at h <;> cases h

theorem straight_of_code? {vs : List Cell} (h : (sense ws text).code? = some vs) :
    Straight ws vs := by
  cases hsense : sense ws text with
  | word w =>
      rw [hsense] at h
      cases h
      exact .call (mem_of_sense_eq_word hsense) .nil
  | primitive p =>
      rw [hsense, Sense.code?] at h
      split at h
      · rename_i hp
        cases h
        exact .primitive hp .nil
      · cases h
  | number v =>
      rw [hsense] at h
      cases h
      have hcode : Straight ws (literalCells v ++ []) := .number v .nil
      rw [List.append_nil] at hcode
      exact hcode
  | nothing =>
      rw [hsense] at h
      cases h

/-- Whether a primitive belongs to the words of a session: it works on the stacks, or begins or ends a
definition. A cell is moved to the return stack or back only at once, as a definition in which it
stays there does not return. -/
def Primitive.isOrdinary (compiling : Bool) : Primitive → Bool
  | operator _ | returnDepth => true
  | toReturn | fromReturn | colon => !compiling
  | semicolon => compiling
  | _ => false

theorem Primitive.eq_semicolon_of_isOrdinary {p : Primitive} (h : p.isOrdinary true = true)
    (hstack : p.isStackWord = false) : p = .semicolon := by
  cases p with
  | semicolon => rfl
  | operator op => cases hstack
  | returnDepth => cases hstack
  | _ => cases h

theorem Primitive.isImmediate_eq_false {p : Primitive} (h : p.isStackWord = true) :
    p.isImmediate = false := by
  cases p with
  | semicolon => cases h
  | _ => rfl

/-- The name stands for a definition, for a primitive of a session, for a number or for nothing. -/
def Dictionary.Ordinary (d : Dictionary) (name : Span) : Prop :=
  d.find name = .absent →
    ∀ p ∈ Primitive.ofName? (d.text name), p.isOrdinary d.compiling = true

instance (d : Dictionary) (name : Span) : Decidable (d.Ordinary name) :=
  inferInstanceAs (Decidable (_ → _))

namespace Dictionary

variable {d d' d1 d1' : Dictionary} {entry : Addr}

/-- No word is begun, or the given one is. -/
def Stands (d : Dictionary) (ws : List Word) : Option Word → Prop
  | none => d.AtRest ws
  | some w => d.Underway ws w

theorem Stands.rest (h : d.Stands ws none) : d.AtRest ws := h

theorem Stands.underway (h : d.Stands ws (some w)) : d.Underway ws w := h

theorem Stands.isOpen (h : d.Stands ws b) :
    d.AtRest ws ∨ d.compiling = true ∧ d.openEntry = nextAddr ws := by
  cases b with
  | none => exact Or.inl h
  | some w =>
      have hw : d.Underway ws w := h
      exact Or.inr ⟨hw.compiling_eq, hw.openEntry_eq.trans hw.follows.addr_eq⟩

theorem Stands.of_inputOnly (h : d.Stands ws b) (hd : d.InputOnly d') : d'.Stands ws b := by
  cases b with
  | none => exact AtRest.of_inputOnly h hd
  | some w => exact Underway.of_inputOnly h hd

/-- What a reset makes of the dictionary. -/
theorem Settled.reset {H : Type} {m : Machine H} (h : m.dictionary.Settled ws)
    (hstands : m.dictionary.Stands ws b) :
    m.reset.dictionary.Settled ws ∧ m.reset.dictionary.AtRest ws := by
  have hcap : 16 ≤ m.dictionary.capacity := Nat.le_of_lt h.lt_capacity
  have hcompiling : m.reset.dictionary.compiling = false := by
    rw [Machine.dictionary_reset]
    refine compiling_setReserved _ 0 ?_
    split
    · rw [capacity_setReservedAddr]
      exact hcap
    · exact hcap
  cases b with
  | none =>
      have hrest : m.dictionary.AtRest ws := hstands
      have hrewinds : m.rewinds = false := by
        unfold Machine.rewinds
        rw [hrest.compiling_eq]
        rfl
      rw [Machine.dictionary_reset, hrewinds] at hcompiling ⊢
      refine ⟨h.of_leavesBelow (leavesBelow_setReserved .compiling 0 (by decide) h.le_here),
        hcompiling, ?_⟩
      rw [here_setReserved _ _ _ (by decide)]
      exact hrest.here_eq
  | some w =>
      have hw : m.dictionary.Underway ws w := hstands
      have haddr := hw.openEntry_eq.trans hw.follows.addr_eq
      have hrewinds : m.rewinds = true := by
        refine Machine.rewinds_eq_true.2 ⟨hw.compiling_eq, ?_, ?_⟩
        · rw [haddr]
          exact UInt16.le_iff_toNat_le.2 h.stacked.le_nextAddr
        · rw [haddr]
          exact UInt16.le_iff_toNat_le.2 h.le_here
      have hhere := Machine.here_reset_of_rewinds hcap hrewinds
      rw [haddr] at hhere
      rw [Machine.dictionary_reset, hrewinds, if_pos rfl] at hcompiling hhere ⊢
      have hmove : m.dictionary.LeavesBelow
          (m.dictionary.setReservedAddr .here m.dictionary.openEntry) (nextAddr ws).toNat := by
        have hagree := m.dictionary.agreeOn_setHere m.dictionary.openEntry
        refine ⟨capacity_setReservedAddr .., hagree.reservedAddr (by decide) (by decide),
          reserved_setReserved_of_ne _ _ (by decide),
          hagree.mono (by decide) (Nat.le_of_lt (nextAddr ws).toNat_lt), ?_⟩
        exact Nat.le_of_eq (congrArg UInt16.toNat ((here_setReservedAddr _ _ hcap).trans haddr)).symm
      exact ⟨h.of_leavesBelow (hmove.trans (leavesBelow_setReserved .compiling 0 (by decide)
        hmove.le_here)), hcompiling, hhere⟩

/-- With its name the word is begun. -/
theorem Opened.begun_of_define {name : Span} (o : d.Opened ws)
    (h : define name d = .ok () d1) (hpos : 0 < name.length.toNat)
    (hstart : 16 ≤ name.start.toNat) (hend : name.start.toNat + name.length.toNat ≤ 96) :
    (d1.setReserved .compiling 1).Settled ws ∧
      (d1.setReserved .compiling 1).Underway ws (Word.begin ws (d.text name)) ∧
      d.AgreeOn (d1.setReserved .compiling 1) 10 96 ∧
      (d1.setReserved .compiling 1).capacity = d.capacity := by
  have hdrafts := drafts_define o.ready h
  have hboth := hdrafts.trans
    (drafts_setReserved (hdrafts.ext.ready o.ready) .compiling 1 (by decide))
  exact ⟨o.settled.of_leavesBelow (hboth.leavesBelow o.settled.le_here),
    o.underway_of_define hpos hstart hend h, hboth.agreeOn_input, hboth.ext.capacity_eq⟩

end Dictionary

namespace Machine

open Dictionary

variable {H : Type} {call : Interpreter H} {n : Nat} {m : Machine H} {d : Dictionary}
  {s returns : Stack} {name : Span}

/-! ## What a word does -/

/-- What becomes of a word is told by what its text stands for. -/
theorem interpretWord_of_settled (settled : m.dictionary.Settled ws)
    (hopen : m.dictionary.AtRest ws ∨
      m.dictionary.compiling = true ∧ m.dictionary.openEntry = nextAddr ws) :
    interpretWord {} call n name m = match sense ws (m.dictionary.text name) with
      | .word w =>
        if m.dictionary.compiling then onDictionary ([w.body.toInt16].forM append) m
        else execute {} call n w.body m
      | .primitive p =>
        if m.dictionary.compiling && !p.isImmediate then
          onDictionary ([p.token.toInt16].forM append) m
        else execute {} call n p.token m
      | .number v => interpretLiteral v m
      | .nothing => .error (.error (.wordNotFound name)) m := by
  have hmeaning := settled.meaning_eq hopen name
  unfold interpretWord sense
  rw [bind_eq_of_ok (getDictionary_apply _ m), hmeaning]
  cases ws.find? fun w => Text.same (m.dictionary.text name) w.name with
  | some w =>
      dsimp only
      rw [bind_eq_of_ok (getDictionary_apply _ m), forM_append_singleton]
      cases m.dictionary.compiling <;> rfl
  | none =>
  cases Primitive.ofName? (m.dictionary.text name) with
  | some p =>
      dsimp only
      rw [bind_eq_of_ok (getDictionary_apply _ m), forM_append_singleton]
      split <;> rfl
  | none =>
      dsimp only
      rw [bind_eq_of_ok (getDictionary_apply _ m), settled.base_eq]
      cases Numeral.read? 10 (m.dictionary.text name) <;> rfl

/-- Of the primitives only those of a session are met. -/
theorem isOrdinary_of_sense {p : Primitive} (settled : d.Settled ws)
    (hopen : d.AtRest ws ∨ d.compiling = true ∧ d.openEntry = nextAddr ws)
    (hordinary : d.Ordinary name) (h : sense ws (d.text name) = .primitive p) :
    p.isOrdinary d.compiling = true := by
  have hfind := settled.find_eq hopen name
  unfold sense at h
  split at h
  · cases h
  · rename_i hnone
    rw [hnone] at hfind
    split at h
    · rename_i q hq
      cases h
      exact hordinary hfind p hq
    · split at h <;> cases h

/-- While a word is begun, code is added to it. -/
theorem interpretWord_of_code? {vs : List Cell} (settled : m.dictionary.Settled ws)
    (hw : m.dictionary.Underway ws w)
    (hcode : (sense ws (m.dictionary.text name)).code? = some vs) :
    interpretWord {} call n name m = onDictionary (vs.forM append) m := by
  have stands : m.dictionary.Stands ws (some w) := hw
  rw [interpretWord_of_settled settled stands.isOpen, hw.compiling_eq]
  cases hsense : sense ws (m.dictionary.text name) with
  | word v =>
      rw [hsense] at hcode
      cases hcode
      rfl
  | primitive p =>
      rw [hsense, Sense.code?] at hcode
      split at hcode
      · rename_i hp
        cases hcode
        dsimp only
        rw [Primitive.isImmediate_eq_false hp]
        rfl
      · cases hcode
  | number v =>
      rw [hsense] at hcode
      cases hcode
      exact interpretLiteral_of_compiling hw.compiling_eq v
  | nothing =>
      rw [hsense] at hcode
      cases hcode

/-! ## Beginning a word -/

/-- What `:` does after it has noted where the new word goes. -/
def giveName (call : Interpreter H) (n : Nat) : MachineM H Unit := do
  beginWord (← awaitWord {} call n)

theorem colon_of_alignHere {d1 : Dictionary} {entry ip : Addr} {host : H}
    (halign : alignHere d = .ok entry d1) :
    colon {} call n ⟨d, s, returns, ip, host⟩ = match s.push? entry.toInt16 with
      | none => .error (.error .stackOverflow) ⟨d1, s, returns, ip, host⟩
      | some s1 => giveName call n ⟨d1.setReservedAddr .openEntry entry, s1, returns, ip, host⟩ := by
  have hfirst : onDictionary alignHere (⟨d, s, returns, ip, host⟩ : Machine H) =
      .ok entry ⟨d1, s, returns, ip, host⟩ := by
    simp only [onDictionary, halign]
  unfold colon
  rw [bind_eq_of_ok hfirst]
  cases hpush : s.push? entry.toInt16 with
  | none =>
      have hsecond : push entry.toInt16 (⟨d1, s, returns, ip, host⟩ : Machine H) =
          .error (.error .stackOverflow) ⟨d1, s, returns, ip, host⟩ := by
        simp only [push, onData, StackM.push, hpush]
      rw [bind_eq_of_error hsecond]
  | some s1 =>
      have hsecond : push entry.toInt16 (⟨d1, s, returns, ip, host⟩ : Machine H) =
          .ok () ⟨d1, s1, returns, ip, host⟩ := by
        simp only [push, onData, StackM.push, hpush]
      rw [bind_eq_of_ok hsecond]
      rfl

/-- Without a host a word is awaited in vain if the source has none. -/
theorem awaitWord_succ (call : Interpreter H) (n : Nat) (m : Machine H) :
    awaitWord {} call (n + 1) m =
    if m.dictionary.hasInput then
      .ok m.dictionary.nextWord.1 { m with dictionary := m.dictionary.nextWord.2 }
    else .error (.error .inputExhausted) m := by
  rw [awaitWord, bind_eq_of_ok (getDictionary_apply _ m)]
  split <;> rfl

theorem beginWord_of_define {d1 : Dictionary} {ip : Addr} {host : H}
    (h : define name d = .ok () d1) : beginWord name ⟨d, s, returns, ip, host⟩ =
      .ok () ⟨d1.setReserved .compiling 1, s, returns, ip, host⟩ := by
  have hfirst : onDictionary (define name) (⟨d, s, returns, ip, host⟩ : Machine H) =
      .ok () ⟨d1, s, returns, ip, host⟩ := by
    simp only [onDictionary, h]
  rw [beginWord, bind_eq_of_ok hfirst]
  rfl

theorem beginWord_of_define_error {d1 : Dictionary} {e : Error} {ip : Addr} {host : H}
    (h : define name d = .error e d1) : beginWord name ⟨d, s, returns, ip, host⟩ =
      .error (.error e) ⟨d1, s, returns, ip, host⟩ := by
  refine bind_eq_of_error ?_ _
  simp only [onDictionary, h]

/-! ## Finishing a word -/

/-- The closing word finishes the begun word where there is room for the exit. -/
theorem exists_execute_semicolon {data : Stack} (settled : d.Settled ws) (hw : d.Underway ws w)
    (hfits : d.HasRoom) (hpop : s.pop? = some (w.addr.toInt16, data)) :
    ∃ d1, (∀ (call : Interpreter H) (n : Nat) (returns : Stack) (host : H),
        execute {} call n Primitive.semicolon.token ⟨d, s, returns, 0, host⟩ =
          .ok () ⟨d1, data, returns, 0, host⟩) ∧
      d1.Settled (w :: ws) ∧ d1.AtRest (w :: ws) ∧ d.AgreeOn d1 10 96 ∧
      d1.capacity = d.capacity ∧ w.stop.toNat < d.capacity := by
  have happend : append Primitive.exit.token.toInt16 d =
      .ok () (lastState (append Primitive.exit.token.toInt16 d)) :=
    eq_ok_lastState (value?_append_iff.2 hfits)
  obtain ⟨hgrow, hready, hnum, -⟩ := of_append_eq_ok happend
  obtain ⟨d1, hlink, hsettled, hrest, hinput⟩ := settled.exists_link_eq_ok hw happend
  have hhere := hw.toNat_here
  have hcells := w.length_cells
  have htop := hready.here_lt
  have hle := (lastState (append Primitive.exit.token.toInt16 d)).capacity_le
  have hstop : w.stop.toNat = d.here.toNat + 2 := by
    rw [Word.toNat_stop (by omega)]
    omega
  refine ⟨d1, fun call n returns host => ?_, hsettled, hrest, hinput, ?_, ?_⟩
  · have hperform : perform ({} : Hooks H) call n .semicolon =
      (do semicolon; return .advance) := rfl
    refine execute_token_of_ok hperform ?_ rfl
    have hroom : (⟨d, s, returns, 0, host⟩ : Machine H).dictionary.HasRoom := hfits
    rw [semicolon_of_hasRoom hpop hroom, UInt16.toUInt16_toInt16]
    simp only [onDictionary, closed, hlink]
  · have hset := drafts_setReserved hready .compiling 0 (by decide)
    have hheader := ((drafts_append hw.ready happend).trans hset).ext.hasHeader hw.holds.hasHeader
    have hends := ends_of_link_eq_ok (hset.ext.ready hready) hheader hlink
    exact hends.capacity_eq.trans (hset.ext.capacity_eq.trans hgrow.capacity_eq)
  · rw [hstop]
    exact hfits.2

end Machine

end ThreadedForth
