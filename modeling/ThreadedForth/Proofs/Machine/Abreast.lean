import ThreadedForth.Proofs.Machine.Underway

/-!
# Two machines that interpret the same words

Two machines with the same finished words and the same begun one, and with the same stacks, interpret
a word alike, whatever else their dictionaries hold: with the same error, or with machines of the same
kind again (`coupled_interpretWord`). What becomes of the words is `Turns`. A failure leaves the finished
words as they are, so the machines are of the same kind again after a reset (`Fallen`).
-/

set_option autoImplicit false

namespace ThreadedForth

namespace Machine

open Dictionary

variable {H : Type} {call : Interpreter H} {n : Nat} {m₀ m m' : Machine H} {ws : List Word} {w : Word}
  {b : Option Word} {text next : List UInt8}

/-! ## Machines side by side -/

/-- Two machines with the same words and the same stacks, with the room and the host of `m₀`. The
address of the begun word is on top of the stack. -/
inductive Mates (m₀ : Machine H) (ws : List Word) (b : Option Word) : Machine H → Machine H → Prop
  | mk {d d' : Dictionary} {s returns : Stack} (settled : d.Settled ws) (settled' : d'.Settled ws)
      (stands : d.Stands ws b) (stands' : d'.Stands ws b)
      (top : ∀ w ∈ b, ∃ data, s.pop? = some (w.addr.toInt16, data))
      (capacity : d.capacity = m₀.dictionary.capacity)
      (capacity' : d'.capacity = m₀.dictionary.capacity)
      (dataRoom : s.capacity = m₀.data.capacity)
      (returnRoom : returns.capacity = m₀.returns.capacity) :
      Mates m₀ ws b ⟨d, s, returns, 0, m₀.host⟩ ⟨d', s, returns, 0, m₀.host⟩

/-- Two machines that failed with the same stacks and are alike after a reset. -/
structure Fallen (m₀ : Machine H) (ws : List Word) (m m' : Machine H) : Prop where
  data_eq : m'.data = m.data
  returns_eq : m'.returns = m.returns
  reset : Mates m₀ ws none m.reset m'.reset

/-- In the course of a line both have the same source. -/
structure Abreast (m₀ : Machine H) (ws : List Word) (b : Option Word) (m m' : Machine H) : Prop where
  mates : Mates m₀ ws b m m'
  buffered : m.dictionary.Buffered
  agreeOn : m.dictionary.AgreeOn m'.dictionary 10 96

/-- The result is the error that there is no room in the dictionary. -/
def reportsFull {α : Type} : EStateM.Result Stop (Machine H) α → Bool
  | .error (.error (.dictionaryFull _ _)) _ => true
  | _ => false

section Sides

variable {d d' : Dictionary} {s returns s1 returns1 : Stack} {ip : Addr}

/-- A failure that leaves the words as they are. -/
theorem fallen_of_settled (settled : d.Settled ws) (settled' : d'.Settled ws)
    (stands : d.Stands ws b) (stands' : d'.Stands ws b)
    (capacity : d.capacity = m₀.dictionary.capacity)
    (capacity' : d'.capacity = m₀.dictionary.capacity) (dataRoom : s.capacity = m₀.data.capacity)
    (returnRoom : returns.capacity = m₀.returns.capacity) :
    Fallen m₀ ws ⟨d, s, returns, ip, m₀.host⟩ ⟨d', s, returns, ip, m₀.host⟩ := by
  refine ⟨rfl, rfl, ?_⟩
  have hreset := settled.reset (m := ⟨d, s, returns, ip, m₀.host⟩) stands
  have hreset' := settled'.reset (m := ⟨d', s, returns, ip, m₀.host⟩) stands'
  exact .mk hreset.1 hreset'.1 hreset.2 hreset'.2 nofun (capacity_reset.trans capacity)
    (capacity_reset.trans capacity') dataRoom returnRoom

theorem Mates.fallen (h : Mates m₀ ws b m m') : Fallen m₀ ws m m' := by
  obtain ⟨settled, settled', stands, stands', -, capacity, capacity', dataRoom, returnRoom⟩ := h
  exact fallen_of_settled settled settled' stands stands' capacity capacity' dataRoom returnRoom

theorem Mates.capacity_eq (h : Mates m₀ ws b m m') :
    m'.dictionary.capacity = m.dictionary.capacity := by
  obtain ⟨-, -, -, -, -, capacity, capacity', -, -⟩ := h
  exact capacity'.trans capacity.symm

theorem Mates.lt_capacity (h : Mates m₀ ws b m m') : 16 < m.dictionary.capacity := by
  obtain ⟨settled, -, -, -, -, -, -, -, -⟩ := h
  exact settled.lt_capacity

theorem Mates.data_eq (h : Mates m₀ ws b m m') : m'.data = m.data := by
  cases h
  rfl

theorem Mates.returns_eq (h : Mates m₀ ws b m m') : m'.returns = m.returns := by
  cases h
  rfl

theorem Mates.stands (h : Mates m₀ ws b m m') : m.dictionary.Stands ws b := by
  obtain ⟨-, -, stands, -, -, -, -, -, -⟩ := h
  exact stands

/-- What is told of the definitions is the same in both. -/
theorem Mates.cells_eq (h : Mates m₀ ws b m m') :
    m'.dictionary.compiling = m.dictionary.compiling ∧ m'.dictionary.base = m.dictionary.base ∧
      m'.dictionary.here = m.dictionary.here ∧ m'.dictionary.latest = m.dictionary.latest := by
  obtain ⟨settled, settled', stands, stands', -, -, -, -, -⟩ := h
  have hbase := settled'.base_eq.trans settled.base_eq.symm
  have hlatest := settled'.latest_eq.trans settled.latest_eq.symm
  cases b with
  | none =>
      have rest := stands.rest
      have rest' := stands'.rest
      exact ⟨rest'.compiling_eq.trans rest.compiling_eq.symm, hbase,
        rest'.here_eq.trans rest.here_eq.symm, hlatest⟩
  | some w =>
      have hw := stands.underway
      have hw' := stands'.underway
      exact ⟨hw'.compiling_eq.trans hw.compiling_eq.symm, hbase,
        hw'.here_eq.trans hw.here_eq.symm, hlatest⟩

/-- To read source text in both. -/
theorem Mates.of_inputOnly (h : Mates m₀ ws b m m') (hd : m.dictionary.InputOnly d)
    (hd' : m'.dictionary.InputOnly d') :
    Mates m₀ ws b { m with dictionary := d } { m' with dictionary := d' } := by
  obtain ⟨settled, settled', stands, stands', top, capacity, capacity', dataRoom, returnRoom⟩ := h
  exact .mk (settled.of_inputOnly hd) (settled'.of_inputOnly hd') (stands.of_inputOnly hd)
    (stands'.of_inputOnly hd') top (hd.capacity_eq.trans capacity) (hd'.capacity_eq.trans capacity')
    dataRoom returnRoom

/-- The next word is read in both. -/
theorem Abreast.nextWord (h : Abreast m₀ ws b m m') (hinput : m.dictionary.hasInput = true) :
    Abreast m₀ ws b { m with dictionary := m.dictionary.nextWord.2 }
      { m' with dictionary := m'.dictionary.nextWord.2 } where
  mates := h.mates.of_inputOnly m.dictionary.inputOnly_nextWord m'.dictionary.inputOnly_nextWord
  buffered := (h.buffered.unread_nextWord (Nat.le_of_lt h.mates.lt_capacity) hinput).1
  agreeOn := h.buffered.agreeOn_nextWord h.mates.capacity_eq h.agreeOn

end Sides

/-! ## What becomes of the words -/

/-- A word that is interpreted does nothing to the words, begins one with the next name of the source,
adds code to the one that is begun, or finishes it. In the machine `m₀` there is room for what is
finished. -/
inductive Turns (m₀ : Machine H) (ws : List Word) (text next : List UInt8) :
    Option Word → List Word → Option Word → Prop
  | keeps : Turns m₀ ws text next none ws none
  | begins (h : sense ws text = .primitive .colon) :
      Turns m₀ ws text next none ws (some (Word.begin ws next))
  | adds {w : Word} {vs : List Cell} (h : (sense ws text).code? = some vs) :
      Turns m₀ ws text next (some w) ws (some (w.extend vs))
  | finishes {w : Word} (h : sense ws text = .primitive .semicolon)
      (fits : w.stop.toNat < m₀.dictionary.capacity) (holds : 0 < m₀.data.capacity) :
      Turns m₀ ws text next (some w) (w :: ws) none

/-- Two machines after a word, if it did not fail. -/
def Turned (m₀ : Machine H) (ws : List Word) (b : Option Word) (text next : List UInt8)
    (m m' : Machine H) : Prop :=
  ∃ ws1 b1, Turns m₀ ws text next b ws1 b1 ∧ Abreast m₀ ws1 b1 m m'

section Words

variable {d d' : Dictionary} {s returns : Stack} {name : Span}

/-- A word that leaves the dictionaries alone. -/
theorem coupled_of_stays {x y : EStateM.Result Stop (Machine H) Unit}
    (h : Abreast m₀ ws none ⟨d, s, returns, 0, m₀.host⟩ ⟨d', s, returns, 0, m₀.host⟩)
    (hstays : Stays d d' s returns m₀.host x y) :
    Coupled (Turned m₀ ws none text next) (Fallen m₀ ws) x y := by
  obtain ⟨⟨settled, settled', stands, stands', -, capacity, capacity', dataRoom, returnRoom⟩,
    hbuffered, hagree⟩ := h
  cases hstays with
  | ok hs hr =>
      exact .ok ⟨ws, none, .keeps, .mk settled settled' stands stands' nofun capacity capacity'
        (hs.trans dataRoom) (hr.trans returnRoom), hbuffered, hagree⟩
  | error hs hr =>
      exact .error (fallen_of_settled settled settled' stands stands' capacity capacity'
        (hs.trans dataRoom) (hr.trans returnRoom))

/-- A word that nothing is known of. -/
theorem coupled_of_fails {e : Stop}
    (h : Abreast m₀ ws b ⟨d, s, returns, 0, m₀.host⟩ ⟨d', s, returns, 0, m₀.host⟩) :
    Coupled (Turned m₀ ws b text next) (Fallen m₀ ws)
      (.error e ⟨d, s, returns, 0, m₀.host⟩ : EStateM.Result Stop (Machine H) Unit)
      (.error e ⟨d', s, returns, 0, m₀.host⟩) := by
  obtain ⟨⟨settled, settled', stands, stands', -, capacity, capacity', dataRoom, returnRoom⟩, -, -⟩ := h
  exact .error (fallen_of_settled settled settled' stands stands' capacity capacity' dataRoom returnRoom)

/-- Code is added in both, or there is no room. -/
theorem coupled_forM_append {vs : List Cell} (hcode : (sense ws text).code? = some vs)
    (h : Abreast m₀ ws (some w) ⟨d, s, returns, 0, m₀.host⟩ ⟨d', s, returns, 0, m₀.host⟩)
    (hroom : reportsFull (onDictionary (vs.forM append) ⟨d, s, returns, 0, m₀.host⟩) = false) :
    Coupled (Turned m₀ ws (some w) text next) (Fallen m₀ ws)
      (onDictionary (vs.forM append) ⟨d, s, returns, 0, m₀.host⟩)
      (onDictionary (vs.forM append) ⟨d', s, returns, 0, m₀.host⟩) := by
  obtain ⟨⟨settled, settled', stands, stands', top, capacity, capacity', dataRoom, returnRoom⟩,
    hbuffered, hagree⟩ := h
  have hw : d.Underway ws w := stands
  have hw' : d'.Underway ws w := stands'
  simp only [onDictionary] at hroom ⊢
  cases hd : vs.forM append d with
  | error e d1 =>
      obtain ⟨a, amount, rfl⟩ := FailsFull.forM_append vs _ _ _ hd
      rw [hd] at hroom
      cases hroom
  | ok u d1 =>
      have hdrafts := drafts_forM_append hw.ready hd
      obtain ⟨-, hnum, -⟩ := of_forM_append_eq_ok hw.ready hd
      have hlt := (hdrafts.ext.ready hw.ready).here_lt
      -- the other one has as much room
      obtain ⟨d1', hd'⟩ := exists_forM_append_eq_ok vs hw'.ready (by
        rw [hw'.toNat_here, capacity', ← capacity, ← hdrafts.ext.capacity_eq, ← hw.toNat_here, ← hnum]
        exact hlt)
      have hdrafts' := drafts_forM_append hw'.ready hd'
      have hstraight := straight_of_code? hcode
      rw [hd']
      refine .ok ⟨ws, some (w.extend vs), .adds hcode, .mk
        (settled.of_leavesBelow (hdrafts.leavesBelow settled.le_here))
        (settled'.of_leavesBelow (hdrafts'.leavesBelow settled'.le_here))
        (hw.extend hstraight hd) (hw'.extend hstraight hd') ?_
        (hdrafts.ext.capacity_eq.trans capacity) (hdrafts'.ext.capacity_eq.trans capacity')
        dataRoom returnRoom, hbuffered.of_agreeOn hdrafts.agreeOn_input,
        hdrafts.agreeOn_input.symm.trans (hagree.trans hdrafts'.agreeOn_input)⟩
      intro v hv
      cases hv
      exact top w rfl

/-- The closing word finishes the begun word in both, or there is no room for the exit. -/
theorem coupled_execute_semicolon (hturn : sense ws text = .primitive .semicolon)
    (h : Abreast m₀ ws (some w) ⟨d, s, returns, 0, m₀.host⟩ ⟨d', s, returns, 0, m₀.host⟩)
    (hroom : reportsFull (execute {} call n Primitive.semicolon.token
      ⟨d, s, returns, 0, m₀.host⟩) = false) :
    Coupled (Turned m₀ ws (some w) text next) (Fallen m₀ ws)
      (execute {} call n Primitive.semicolon.token ⟨d, s, returns, 0, m₀.host⟩)
      (execute {} call n Primitive.semicolon.token ⟨d', s, returns, 0, m₀.host⟩) := by
  obtain ⟨⟨settled, settled', stands, stands', top, capacity, capacity', dataRoom, returnRoom⟩,
    hbuffered, hagree⟩ := h
  have hw : d.Underway ws w := stands
  have hw' : d'.Underway ws w := stands'
  obtain ⟨data, hpop⟩ := top w rfl
  by_cases hfits : d.HasRoom
  · have hfits' : d'.HasRoom := by
      unfold HasRoom at hfits ⊢
      rw [hw'.here_eq, ← hw.here_eq, capacity', ← capacity]
      exact hfits
    have hdata : data.capacity = s.capacity := Stack.capacity_of_pop? hpop
    have hholds : 0 < s.capacity := Stack.capacity_pos_of_pop? hpop
    obtain ⟨d1, hd, hsettled, hrest, hinput, hcap, hstop⟩ :=
      exists_execute_semicolon (H := H) settled hw hfits hpop
    obtain ⟨d1', hd', hsettled', hrest', hinput', hcap', -⟩ :=
      exists_execute_semicolon (H := H) settled' hw' hfits' hpop
    rw [hd, hd']
    exact .ok ⟨w :: ws, none, .finishes hturn (capacity ▸ hstop) (dataRoom ▸ hholds),
      .mk hsettled hsettled' hrest hrest' nofun (hcap.trans capacity) (hcap'.trans capacity')
        (hdata.trans dataRoom) returnRoom,
      hbuffered.of_agreeOn hinput, hinput.symm.trans (hagree.trans hinput')⟩
  · have hperform : perform ({} : Hooks H) call n .semicolon =
      (do semicolon; return .advance) := rfl
    have hfull := semicolon_of_not_hasRoom (m := ⟨d, s, returns, 0, m₀.host⟩) hpop hfits
    rw [execute_token_of_error hperform hfull nofun] at hroom
    cases hroom

/-! ## Beginning a word in both -/

/-- A failure to begin a word. -/
theorem coupled_of_opened {e : Stop} (o : d.Opened ws) (o' : d'.Opened ws)
    (capacity : d.capacity = m₀.dictionary.capacity)
    (capacity' : d'.capacity = m₀.dictionary.capacity) (dataRoom : s.capacity = m₀.data.capacity)
    (returnRoom : returns.capacity = m₀.returns.capacity) :
    Coupled (Turned m₀ ws none text next) (Fallen m₀ ws)
      (.error e ⟨d, s, returns, 0, m₀.host⟩ : EStateM.Result Stop (Machine H) Unit)
      (.error e ⟨d', s, returns, 0, m₀.host⟩) :=
  .error (fallen_of_settled (b := none) o.settled o'.settled o.rest o'.rest capacity capacity'
    dataRoom returnRoom)

/-- The same word is begun in both, or the same error is reported. -/
theorem coupled_beginWord (hturn : sense ws text = .primitive .colon) (o : d.Opened ws)
    (o' : d'.Opened ws) (hbuffered : d.Buffered) (hagree : d.AgreeOn d' 10 96)
    (top : ∃ data, s.pop? = some ((nextAddr ws).toInt16, data))
    (capacity : d.capacity = m₀.dictionary.capacity)
    (capacity' : d'.capacity = m₀.dictionary.capacity) (dataRoom : s.capacity = m₀.data.capacity)
    (returnRoom : returns.capacity = m₀.returns.capacity) (hpos : 0 < name.length.toNat)
    (hstart : 16 ≤ name.start.toNat) (hend : name.start.toNat + name.length.toNat ≤ 96)
    (hroom : reportsFull (beginWord name ⟨d, s, returns, 0, m₀.host⟩) = false) :
    Coupled (Turned m₀ ws none text (d.text name)) (Fallen m₀ ws)
      (beginWord name ⟨d, s, returns, 0, m₀.host⟩)
      (beginWord name ⟨d', s, returns, 0, m₀.host⟩) := by
  rcases Nat.lt_or_ge Header.maxNameLength name.length.toNat with hlong | hlen
  · rw [beginWord_of_define_error (define_eq_of_long hlong),
      beginWord_of_define_error (define_eq_of_long hlong)]
    exact coupled_of_opened o o' capacity capacity' dataRoom returnRoom
  -- whether there is room is the same question in both
  have hiff := o.exists_define_iff hlen
  rw [capacity, ← capacity', ← o'.exists_define_iff hlen] at hiff
  cases hd : define name d with
  | error e d1 =>
      obtain ⟨a, amount, rfl⟩ := exists_of_define_eq_error hlen hd
      rw [beginWord_of_define_error hd] at hroom
      cases hroom
  | ok u d1 =>
      obtain ⟨d1', hd'⟩ := hiff.1 ⟨d1, hd⟩
      have htext : d'.text name = d.text name := hagree.bytesFrom (by omega) hend (by omega)
      obtain ⟨settled, underway, hinput, hcap⟩ := o.begun_of_define hd hpos hstart hend
      obtain ⟨settled', underway', hinput', hcap'⟩ := o'.begun_of_define hd' hpos hstart hend
      rw [htext] at underway'
      rw [beginWord_of_define hd, beginWord_of_define hd']
      refine .ok ⟨ws, _, .begins hturn, .mk settled settled' underway underway' ?_
        (hcap.trans capacity) (hcap'.trans capacity') dataRoom returnRoom,
        hbuffered.of_agreeOn hinput, hinput.symm.trans (hagree.trans hinput')⟩
      intro w hw
      cases hw
      exact top

/-- The same name is given in both, or the same error is reported. -/
theorem coupled_giveName (hturn : sense ws text = .primitive .colon) (o : d.Opened ws)
    (o' : d'.Opened ws) (hbuffered : d.Buffered) (hagree : d.AgreeOn d' 10 96)
    (top : ∃ data, s.pop? = some ((nextAddr ws).toInt16, data))
    (capacity : d.capacity = m₀.dictionary.capacity)
    (capacity' : d'.capacity = m₀.dictionary.capacity) (dataRoom : s.capacity = m₀.data.capacity)
    (returnRoom : returns.capacity = m₀.returns.capacity)
    (hroom : reportsFull (giveName call n ⟨d, s, returns, 0, m₀.host⟩) = false) :
    Coupled (Turned m₀ ws none text d.nextText) (Fallen m₀ ws)
      (giveName call n ⟨d, s, returns, 0, m₀.host⟩)
      (giveName call n ⟨d', s, returns, 0, m₀.host⟩) := by
  cases n with
  | zero => exact coupled_of_opened o o' capacity capacity' dataRoom returnRoom
  | succ n =>
      have hread := awaitWord_succ call n ⟨d, s, returns, 0, m₀.host⟩
      have hread' := awaitWord_succ call n ⟨d', s, returns, 0, m₀.host⟩
      dsimp only at hread hread'
      rw [hbuffered.hasInput_eq_of_agreeOn hagree, hbuffered.nextWord_fst_eq hagree] at hread'
      unfold giveName at hroom ⊢
      cases hinput : d.hasInput with
      | false =>
          rw [hinput] at hread hread'
          rw [bind_eq_of_error hread, bind_eq_of_error hread']
          exact coupled_of_opened o o' capacity capacity' dataRoom returnRoom
      | true =>
          rw [hinput] at hread hread'
          rw [bind_eq_of_ok hread] at hroom ⊢
          rw [bind_eq_of_ok hread']
          obtain ⟨hstart, hend, hlength⟩ := hbuffered.nextWord_within hinput
          have hpos := length_nextText_pos hinput
          have hcap : 16 ≤ d.capacity := Nat.le_of_lt o.settled.lt_capacity
          have htext : d.nextWord.2.text d.nextWord.1 = d.nextText :=
            hbuffered.text_nextWord hinput (d.agreeOn_nextWord.mono (Nat.le_refl _) (by decide))
          rw [← htext]
          exact coupled_beginWord hturn (o.of_inputOnly d.inputOnly_nextWord)
            (o'.of_inputOnly d'.inputOnly_nextWord) (hbuffered.unread_nextWord hcap hinput).1
            (hbuffered.agreeOn_nextWord (capacity'.trans capacity.symm) hagree) top
            (d.inputOnly_nextWord.capacity_eq.trans capacity)
            (d'.inputOnly_nextWord.capacity_eq.trans capacity') dataRoom returnRoom (by omega)
            hstart hend hroom

/-- To execute a primitive that is performed alike in both. -/
theorem coupled_execute_token {p : Primitive} {x : MachineM H Unit}
    (hperform : perform {} call n p = (do x; return .advance)) (hexits : NeverExits x)
    (h : Coupled (Turned m₀ ws b text next) (Fallen m₀ ws) (x m) (x m')) :
    Coupled (Turned m₀ ws b text next) (Fallen m₀ ws) (execute {} call n p.token m)
      (execute {} call n p.token m') := by
  generalize hx : x m = r at h
  generalize hx' : x m' = r' at h
  cases h with
  | @ok _ m1 m1' hturned =>
      have hip : m1.ip = 0 ∧ m1'.ip = 0 := by
        obtain ⟨-, -, -, ⟨⟩, -, -⟩ := hturned
        exact ⟨rfl, rfl⟩
      rw [execute_token_of_ok hperform hx hip.1, execute_token_of_ok hperform hx' hip.2]
      exact .ok hturned
  | @error stop m1 m1' hfallen =>
      have hstop : stop ≠ .exit := fun heq => hexits m m1 (heq ▸ hx)
      rw [execute_token_of_error hperform hx hstop, execute_token_of_error hperform hx' hstop]
      -- a reset moves the instruction pointer anyway
      exact .error ⟨hfallen.data_eq, hfallen.returns_eq, hfallen.reset⟩

theorem reportsFull_execute_token {p : Primitive} {x : MachineM H Unit}
    (hperform : perform {} call n p = (do x; return .advance))
    (h : reportsFull (execute {} call n p.token m) = false) : reportsFull (x m) = false := by
  cases hx : x m with
  | ok u m1 => rfl
  | error stop m1 =>
      cases stop with
      | exit => rfl
      | outOfFuel => rfl
      | error e =>
          rw [execute_token_of_error hperform hx nofun] at h
          cases e with
          | dictionaryFull a amount => cases h
          | _ => rfl

/-- `:` begins the same word in both, or the same error is reported. -/
theorem coupled_execute_colon (hturn : sense ws text = .primitive .colon)
    (h : Abreast m₀ ws none ⟨d, s, returns, 0, m₀.host⟩ ⟨d', s, returns, 0, m₀.host⟩)
    (hroom : reportsFull (execute {} call n Primitive.colon.token
      ⟨d, s, returns, 0, m₀.host⟩) = false) :
    Coupled (Turned m₀ ws none text d.nextText) (Fallen m₀ ws)
      (execute {} call n Primitive.colon.token ⟨d, s, returns, 0, m₀.host⟩)
      (execute {} call n Primitive.colon.token ⟨d', s, returns, 0, m₀.host⟩) := by
  have hperform : perform ({} : Hooks H) call n .colon =
    (do colon {} call n; return .advance) := rfl
  refine coupled_execute_token hperform (neverExits_colon (quietRefill_default call) n) ?_
  replace hroom := reportsFull_execute_token hperform hroom
  obtain ⟨⟨settled, settled', rest, rest', -, capacity, capacity', dataRoom, returnRoom⟩,
    hbuffered, hagree⟩ := h
  change d.AtRest ws at rest
  change d'.AtRest ws at rest'
  cases hd : alignHere d with
  | error e d1 =>
      obtain ⟨a, amount, rfl⟩ := FailsFull.alignHere _ _ _ hd
      have hfull : colon {} call n ⟨d, s, returns, 0, m₀.host⟩ =
          .error (.error (.dictionaryFull a amount)) ⟨d1, s, returns, 0, m₀.host⟩ := by
        refine bind_eq_of_error ?_ _
        simp only [onDictionary, hd]
      rw [hfull] at hroom
      cases hroom
  | ok entry d1 =>
      obtain ⟨rfl, settled1, rest1, ready1, hdrafts⟩ := settled.of_alignHere rest hd
      -- the other one has as much room
      obtain ⟨entry', d1', hd'⟩ : ∃ a d1', alignHere d' = .ok a d1' := by
        have heven := settled.stacked.even_nextAddr
        have hlt := ready1.here_lt
        rw [rest1.here_eq, hdrafts.ext.capacity_eq, capacity] at hlt
        refine exists_alignHere_eq_ok (rest'.here_eq ▸ settled.stacked.le_nextAddr) ?_
        rw [rest'.here_eq, capacity']
        omega
      obtain ⟨rfl, settled1', rest1', ready1', hdrafts'⟩ := settled'.of_alignHere rest' hd'
      have hcap := hdrafts.ext.capacity_eq.trans capacity
      have hcap' := hdrafts'.ext.capacity_eq.trans capacity'
      rw [colon_of_alignHere hd] at hroom ⊢
      rw [colon_of_alignHere hd']
      cases hpush : s.push? (nextAddr ws).toInt16 with
      | none =>
          exact .error (fallen_of_settled (b := none) settled1 settled1' rest1 rest1' hcap hcap'
            dataRoom returnRoom)
      | some s1 =>
          rw [hpush] at hroom
          obtain ⟨opened, hopened⟩ := settled1.opened rest1 ready1
          obtain ⟨opened', hopened'⟩ := settled1'.opened rest1' ready1'
          have hinput := hdrafts.agreeOn_input.trans hopened
          have hinput' := hdrafts'.agreeOn_input.trans hopened'
          rw [← hbuffered.nextText_eq hinput]
          exact coupled_giveName hturn opened opened' (hbuffered.of_agreeOn hinput)
            (hinput.symm.trans (hagree.trans hinput')) ⟨s, Stack.pop?_of_push? hpush⟩
            ((capacity_setReservedAddr ..).trans hcap) ((capacity_setReservedAddr ..).trans hcap')
            ((Stack.capacity_of_push? hpush).trans dataRoom) returnRoom hroom

/-! ## One word -/

/-- A primitive that is run at once. -/
theorem coupled_execute_primitive {p : Primitive} (hp : sense ws text = .primitive p)
    (hordinary : p.isOrdinary false = true)
    (h : Abreast m₀ ws none ⟨d, s, returns, 0, m₀.host⟩ ⟨d', s, returns, 0, m₀.host⟩)
    (hroom : reportsFull (execute {} call n p.token ⟨d, s, returns, 0, m₀.host⟩) = false) :
    Coupled (Turned m₀ ws none text d.nextText) (Fallen m₀ ws)
      (execute {} call n p.token ⟨d, s, returns, 0, m₀.host⟩)
      (execute {} call n p.token ⟨d', s, returns, 0, m₀.host⟩) := by
  cases p with
  | operator op => exact coupled_of_stays h (stays_execute_stackWord rfl)
  | returnDepth => exact coupled_of_stays h (stays_execute_stackWord rfl)
  | toReturn => exact coupled_of_stays h stays_execute_toReturn
  | fromReturn => exact coupled_of_stays h stays_execute_fromReturn
  | colon => exact coupled_execute_colon hp h hroom
  | _ => cases hordinary

/-- While no word is begun, a word is run at once in both. -/
theorem coupled_of_rest
    (h : Abreast m₀ ws none ⟨d, s, returns, 0, m₀.host⟩ ⟨d', s, returns, 0, m₀.host⟩)
    (htext : d'.text name = d.text name) (hordinary : d.Ordinary name)
    (hroom : reportsFull (interpretWord {} call n name ⟨d, s, returns, 0, m₀.host⟩) = false) :
    Coupled (Turned m₀ ws none (d.text name) d.nextText) (Fallen m₀ ws)
      (interpretWord {} call n name ⟨d, s, returns, 0, m₀.host⟩)
      (interpretWord {} call n name ⟨d', s, returns, 0, m₀.host⟩) := by
  obtain ⟨settled, settled', rest, rest'⟩ : d.Settled ws ∧ d'.Settled ws ∧ d.AtRest ws ∧
      d'.AtRest ws := by
    obtain ⟨⟨settled, settled', stands, stands', -, -, -, -, -⟩, -, -⟩ := h
    exact ⟨settled, settled', stands, stands'⟩
  have hcompiling := rest.compiling_eq
  have hcompiling' := rest'.compiling_eq
  have hallowed : ∀ p, sense ws (d.text name) = .primitive p → p.isOrdinary d.compiling = true :=
    fun p hp => isOrdinary_of_sense settled (Or.inl rest) hordinary hp
  rw [interpretWord_of_settled (m := ⟨d, s, returns, 0, m₀.host⟩) settled (Or.inl rest)] at hroom ⊢
  rw [interpretWord_of_settled (m := ⟨d', s, returns, 0, m₀.host⟩) settled' (Or.inl rest')]
  dsimp only at hroom ⊢
  rw [htext, hcompiling']
  rw [hcompiling] at hallowed hroom ⊢
  cases hsense : sense ws (d.text name) with
  | word w =>
      exact coupled_of_stays h (stays_execute_word settled settled' (mem_of_sense_eq_word hsense))
  | primitive p =>
      rw [hsense] at hroom
      exact coupled_execute_primitive hsense (hallowed p hsense) h hroom
  | number v =>
      dsimp only
      rw [interpretLiteral_of_not_compiling (m := ⟨d, s, returns, 0, m₀.host⟩) hcompiling,
        interpretLiteral_of_not_compiling (m := ⟨d', s, returns, 0, m₀.host⟩) hcompiling']
      exact coupled_of_stays h (stays_onData (StackM.keepsRoom_push v))
  | nothing => exact coupled_of_fails h

/-- While a word is begun, a word is added to it in both, or finishes it. -/
theorem coupled_of_underway
    (h : Abreast m₀ ws (some w) ⟨d, s, returns, 0, m₀.host⟩ ⟨d', s, returns, 0, m₀.host⟩)
    (htext : d'.text name = d.text name) (hordinary : d.Ordinary name)
    (hroom : reportsFull (interpretWord {} call n name ⟨d, s, returns, 0, m₀.host⟩) = false) :
    Coupled (Turned m₀ ws (some w) (d.text name) d.nextText) (Fallen m₀ ws)
      (interpretWord {} call n name ⟨d, s, returns, 0, m₀.host⟩)
      (interpretWord {} call n name ⟨d', s, returns, 0, m₀.host⟩) := by
  obtain ⟨settled, settled', stands, stands', hw, hw'⟩ : d.Settled ws ∧ d'.Settled ws ∧
      d.Stands ws (some w) ∧ d'.Stands ws (some w) ∧ d.Underway ws w ∧ d'.Underway ws w := by
    obtain ⟨⟨settled, settled', stands, stands', -, -, -, -, -⟩, -, -⟩ := h
    exact ⟨settled, settled', stands, stands', stands, stands'⟩
  cases hcode : (sense ws (d.text name)).code? with
  | some vs =>
      rw [interpretWord_of_code? (m := ⟨d, s, returns, 0, m₀.host⟩) settled hw hcode] at hroom ⊢
      rw [interpretWord_of_code? (m := ⟨d', s, returns, 0, m₀.host⟩) settled' hw'
        ((congrArg (fun t => (sense ws t).code?) htext).trans hcode)]
      exact coupled_forM_append hcode h hroom
  | none =>
  rw [interpretWord_of_settled (m := ⟨d, s, returns, 0, m₀.host⟩) settled stands.isOpen] at hroom ⊢
  rw [interpretWord_of_settled (m := ⟨d', s, returns, 0, m₀.host⟩) settled' stands'.isOpen]
  have hallowed : ∀ p, sense ws (d.text name) = .primitive p → p.isOrdinary d.compiling = true :=
    fun p hp => isOrdinary_of_sense settled stands.isOpen hordinary hp
  dsimp only at hroom ⊢
  rw [htext, hw'.compiling_eq]
  rw [hw.compiling_eq] at hallowed hroom ⊢
  cases hsense : sense ws (d.text name) with
  | word v =>
      rw [hsense] at hcode
      cases hcode
  | primitive p =>
      have hp := hallowed p hsense
      have hstack : p.isStackWord = false := by
        rw [hsense, Sense.code?, ite_eq_right_iff] at hcode
        refine eq_false_of_ne_true fun heq => ?_
        cases hcode heq
      rw [hsense] at hroom
      obtain rfl := Primitive.eq_semicolon_of_isOrdinary hp hstack
      exact coupled_execute_semicolon hsense h hroom
  | number v =>
      rw [hsense] at hcode
      cases hcode
  | nothing => exact coupled_of_fails h

/-- A word of the source is interpreted alike in both. -/
theorem coupled_interpretWord (h : Abreast m₀ ws b m m') (hstart : 16 ≤ name.start.toNat)
    (hend : name.start.toNat + name.length.toNat ≤ 96) (hordinary : m.dictionary.Ordinary name)
    (hroom : reportsFull (interpretWord {} call n name m) = false) :
    Coupled (Turned m₀ ws b (m.dictionary.text name) m.dictionary.nextText) (Fallen m₀ ws)
      (interpretWord {} call n name m) (interpretWord {} call n name m') := by
  have htext : m'.dictionary.text name = m.dictionary.text name :=
    h.agreeOn.bytesFrom (by omega) hend (by omega)
  obtain ⟨mates, hbuffered, hagree⟩ := id h
  cases mates with
  | mk settled settled' stands stands' top capacity capacity' dataRoom returnRoom =>
      cases b with
      | none => exact coupled_of_rest h htext hordinary hroom
      | some w => exact coupled_of_underway h htext hordinary hroom

end Words

end Machine

end ThreadedForth
