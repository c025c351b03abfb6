import ThreadedForth.Proofs.Machine.Typed

/-!
# Recovery from errors

After a line that failed and the reset that follows it, a machine is as if the definition that was
begun had never been typed (`recovers_of_admits`): its definitions are, byte for byte, those of a
machine in which only the finished ones were typed, and every later line does in both the same.
-/

set_option autoImplicit false

namespace ThreadedForth

open Dictionary

namespace Machine

variable {H : Type} {m m' clean : Machine H} {n : Nat} {line : List UInt8}

/-- The machine `m` is ready for the next line, and its definitions are those of `clean`. -/
structure Recovered (m clean : Machine H) : Prop where
  compiling_eq : m.dictionary.compiling = false
  data_eq : m.data.cells = []
  returns_eq : m.returns.cells = []
  ip_eq : m.ip = 0
  base_eq : m.dictionary.base = clean.dictionary.base
  here_eq : m.dictionary.here = clean.dictionary.here
  latest_eq : m.dictionary.latest = clean.dictionary.latest
  readByte_eq : ∀ a : Addr, Layout.firstEntry ≤ a → a < m.dictionary.here →
    ¬ m.dictionary.IsPadding a → m.dictionary.readByte a = clean.dictionary.readByte a

/-! ## Machines without an input buffer -/

/-- A machine whose memory ends before the input buffer. No word is read in it, so it stays as it was
when it was made. -/
structure Deaf (config : Config) (m : Machine H) : Prop where
  capacity_le : m.dictionary.capacity ≤ 16
  compiling_eq : m.dictionary.compiling = false
  base_eq : m.dictionary.base = (Dictionary.ofCapacity config.dictionaryBytes).base
  here_eq : m.dictionary.here = (Dictionary.ofCapacity config.dictionaryBytes).here
  latest_eq : m.dictionary.latest = (Dictionary.ofCapacity config.dictionaryBytes).latest
  data_eq : m.data = .empty config.dataCells
  returns_eq : m.returns = .empty config.returnCells
  ip_eq : m.ip = 0

/-- How a line ends of which no word is read. -/
def unheard (n : Nat) (line : List UInt8) : Option Stop :=
  if Layout.inputCapacity < line.length then some (.error (.inputTooLong line.length))
  else if n < 2 then some .outOfFuel
  else none

namespace Deaf

variable {config : Config}

theorem of_inputOnly {d : Dictionary} (h : Deaf config m) (hd : m.dictionary.InputOnly d) :
    Deaf config { m with dictionary := d } where
  capacity_le := hd.capacity_eq ▸ h.capacity_le
  compiling_eq := hd.compiling_eq.trans h.compiling_eq
  base_eq := (hd.reserved (c := .base) (by decide)).trans h.base_eq
  here_eq := hd.here_eq.trans h.here_eq
  latest_eq := hd.latest_eq.trans h.latest_eq
  data_eq := h.data_eq
  returns_eq := h.returns_eq
  ip_eq := h.ip_eq

theorem reset (h : Deaf config m) : Deaf config m.reset := by
  have hrewinds : m.rewinds = false := by
    unfold rewinds
    rw [h.compiling_eq]
    rfl
  have hdictionary : m.reset.dictionary = m.dictionary.setReserved .compiling 0 := by
    rw [dictionary_reset, hrewinds]
    rfl
  have hdata : m.reset.data = .empty m.data.capacity := rfl
  have hreturns : m.reset.returns = .empty m.returns.capacity := rfl
  refine ⟨?_, ?_, ?_, ?_, ?_, ?_, ?_, rfl⟩
  · rw [capacity_reset]
    exact h.capacity_le
  · have hcell : (m.dictionary.setReserved .compiling 0).reserved .compiling = 0 :=
      readCell_writeCell_zero _ _
    rw [hdictionary, compiling, hcell]
    rfl
  · rw [hdictionary, base, reserved_setReserved_of_ne _ _ (by decide)]
    exact h.base_eq
  · rw [hdictionary, here_setReserved _ _ _ (by decide)]
    exact h.here_eq
  · rw [hdictionary, latest_setReserved _ _ _ (by decide)]
    exact h.latest_eq
  · rw [hdata, h.data_eq]
    rfl
  · rw [hreturns, h.returns_eq]
    rfl

/-- A line is not heard. -/
theorem interpretLine_eq (h : Deaf config m) (n : Nat) (line : List UInt8) :
    lineReadings n line m = [] ∧ ∃ m1, Deaf config m1 ∧ interpretLine {} n line m =
      match unheard n line with
      | none => .ok () m1
      | some stop => .error stop m1 := by
  unfold unheard
  rcases Nat.lt_or_ge Layout.inputCapacity line.length with hlong | hfits
  · rw [if_pos hlong]
    refine ⟨?_, m, h, interpretLine_of_long n m hlong⟩
    unfold lineReadings
    rw [loadInput_of_long _ hlong]
    cases n <;> rfl
  · rw [if_neg (Nat.not_lt.2 hfits)]
    obtain ⟨d, hd⟩ := exists_loadInput_eq_ok m.dictionary hfits
    have hinput := hasInput_of_capacity_le h.capacity_le hd
    rw [interpretLine_of_loadInput n hd]
    unfold lineReadings
    rw [hd]
    have hloaded := h.of_inputOnly (inputOnly_of_loadInput hd)
    match n with
    | 0 => exact ⟨rfl, _, hloaded, rfl⟩
    | 1 => exact ⟨rfl, _, hloaded, rfl⟩
    | n + 2 =>
        refine ⟨readings_of_not_hasInput hinput, _, hloaded, ?_⟩
        have hsource := interpretSource_succ (interpreter {} (n + 1)) n { m with dictionary := d }
        rw [hinput] at hsource
        exact hsource

theorem enterLine (h : Deaf config m) (n : Nat) (line : List UInt8) :
    Deaf config (enterLine n line m) := by
  obtain ⟨-, m1, hm1, hline⟩ := h.interpretLine_eq n line
  unfold Machine.enterLine
  rw [hline]
  cases unheard n line with
  | none => exact hm1
  | some stop => exact hm1.reset

/-- Lines do the same in every such machine. -/
theorem responses_eq {lines : List (List UInt8)} (h : Deaf config m) (h' : Deaf config m') :
    responses n lines m = responses n lines m' := by
  induction lines generalizing m m' with
  | nil => rfl
  | cons line lines ih =>
      have hnext := h.enterLine n line
      have hnext' := h'.enterLine n line
      obtain ⟨-, m1, hm1, hline⟩ := h.interpretLine_eq n line
      obtain ⟨-, m1', hm1', hline'⟩ := h'.interpretLine_eq n line
      have hresponse : response n line m = response n line m' := by
        unfold response
        rw [hnext.compiling_eq, hnext'.compiling_eq, hnext.base_eq, hnext'.base_eq, hnext.here_eq,
          hnext'.here_eq, hnext.latest_eq, hnext'.latest_eq, hline, hline']
        cases unheard n line <;>
          simp only [error?, lastState_ok, lastState_error, hm1.data_eq, hm1'.data_eq,
            hm1.returns_eq, hm1'.returns_eq]
      rw [responses, responses, hresponse, ih hnext hnext']

/-- Nothing was typed. -/
theorem run (lines : List (List UInt8)) {s : Session H} (h : Deaf config s.machine)
    (hnone : s.typing = {}) :
    Deaf config (s.run n lines).machine ∧ (s.run n lines).typing = {} := by
  induction lines generalizing s with
  | nil => exact ⟨h, hnone⟩
  | cons line lines ih =>
      refine ih (s := s.enter n line) (h.enterLine n line) ?_
      unfold Session.enter
      rw [(h.interpretLine_eq n line).1, List.foldl_nil, hnone]
      split <;> rfl

end Deaf

theorem compiling_ofCapacity (n : Nat) : (Dictionary.ofCapacity n).compiling = false := by
  have hcell : (Dictionary.ofCapacity n).reserved .compiling = 0 := by
    simp only [Dictionary.ofCapacity, setUp, setReservedAddr]
    rw [reserved_writeCell _ _ _ (by decide) (by decide)]
    iterate 4 rw [reserved_setReserved_of_ne _ _ (by decide)]
    exact readCell_writeCell_zero _ _
  rw [compiling, hcell]
  rfl

theorem deaf_ofConfig (config : Config) (host : H)
    (hcap : (Dictionary.ofCapacity config.dictionaryBytes).capacity ≤ 16) :
    Deaf config (ofConfig config host) :=
  ⟨hcap, compiling_ofCapacity _, rfl, rfl, rfl, rfl, rfl, rfl⟩

/-! ## Recovery -/

/-- An empty machine, beside itself. -/
theorem alongside_ofConfig (config : Config) (host : H)
    (hcap : 16 < (Dictionary.ofCapacity config.dictionaryBytes).capacity) :
    Alongside (ofConfig config host) {} (ofConfig config host) (ofConfig config host) := by
  have hset : (Dictionary.ofCapacity config.dictionaryBytes).Settled [] ∧
      (Dictionary.ofCapacity config.dictionaryBytes).AtRest [] :=
    settled_setUp (by rwa [Dictionary.ofCapacity, capacity_setUp] at hcap)
  have htop : ∀ w ∈ (none : Option Word), ∃ data,
      (Stack.empty config.dataCells).pop? = some (w.addr.toInt16, data) :=
    fun w hw => absurd hw (Option.not_mem_none w)
  exact ⟨[], none, .mk hset.1 hset.1 hset.2 hset.2 htop rfl rfl rfl rfl, .nil, .none⟩

/-- After a line that failed, no word is begun, and the stacks are empty. -/
theorem Alongside.of_error {m₀ : Machine H} {typing : Typing} {stop : Stop}
    (h : Alongside m₀ typing m m) (hordinary : ∀ r ∈ lineReadings n line m, r.IsOrdinary)
    (hfails : error? (interpretLine {} n line m) = some stop) :
    ∃ ws d, enterLine n line m =
        ⟨d, .empty m₀.data.capacity, .empty m₀.returns.capacity, 0, m₀.host⟩ ∧
      d.Settled ws ∧ d.AtRest ws ∧ d.capacity = m₀.dictionary.capacity ∧
      Makes m₀ (Session.enter n ⟨m, typing⟩ line).typing.finished ws := by
  have hcoupled := coupled_interpretLine h hordinary
  unfold enterLine Session.enter
  dsimp only
  rw [hfails]
  generalize interpretLine {} n line m = x at hcoupled hfails ⊢
  cases hcoupled with
  | ok => cases hfails
  | @error stop m1 m1' hfallen =>
      obtain ⟨ws, hfallen, hmakes⟩ := hfallen
      have hmates := hfallen.reset
      have hdata : m1.reset.data = .empty m1.data.capacity := rfl
      have hreturns : m1.reset.returns = .empty m1.returns.capacity := rfl
      dsimp only
      generalize m1.reset = m2 at hmates hdata hreturns ⊢
      obtain ⟨settled, -, rest, -, -, capacity, -, dataRoom, returnRoom⟩ := hmates
      dsimp only at hdata hreturns
      subst hdata hreturns
      rw [← dataRoom, ← returnRoom]
      exact ⟨ws, _, rfl, settled, rest, capacity, hmakes⟩

/-- With the same finished words the definitions are the same. -/
theorem recovered_of_settled {ws : List Word} {d d' : Dictionary} {host : H} {dataCells returnCells : Nat}
    (settled : d.Settled ws) (rest : d.AtRest ws) (settled' : d'.Settled ws)
    (rest' : d'.AtRest ws) :
    Recovered ⟨d, .empty dataCells, .empty returnCells, 0, host⟩
      ⟨d', .empty dataCells, .empty returnCells, 0, host⟩ where
  compiling_eq := rest.compiling_eq
  data_eq := rfl
  returns_eq := rfl
  ip_eq := rfl
  base_eq := settled.base_eq.trans settled'.base_eq.symm
  here_eq := rest.here_eq.trans rest'.here_eq.symm
  latest_eq := settled.latest_eq.trans settled'.latest_eq.symm
  readByte_eq _ hle hlt hpad := (settled.readByte_eq rest settled' hle hlt hpad).symm

theorem run_append_singleton (n : Nat) (s : Session H) (lines : List (List UInt8)) :
    s.run n (lines ++ [line]) = (s.run n lines).enter n line := by
  rw [Session.run, List.foldl_append]
  rfl

theorem admits_append {lines lines' : List (List UInt8)} {s : Session H} :
    Admits n (lines ++ lines') s.machine ↔
      Admits n lines s.machine ∧ Admits n lines' (s.run n lines).machine := by
  induction lines generalizing s with
  | nil => exact (and_iff_right trivial).symm
  | cons line lines ih =>
      show (_ ∧ Admits n (lines ++ lines') (s.enter n line).machine) ↔ _
      rw [ih, ← and_assoc]
      rfl

/-- A line that failed leaves no trace, where the memory reaches to the input buffer. -/
theorem exists_recovered_of_lt_capacity {config : Config} {host : H} {lines : List (List UInt8)}
    {stop : Stop} {s : Session H}
    (hcap : 16 < (Dictionary.ofCapacity config.dictionaryBytes).capacity)
    (hs : (Session.start config host).run n (lines ++ [line]) = s)
    (hadmits : Admits n (lines ++ [line]) (ofConfig config host))
    (hfails : error? (interpretLine {} n line ((Session.start config host).run n lines).machine) =
      some stop) :
    ∃ clean : Machine H,
      (∀ k, 3 ≤ k → (s.typing.finished.flatMap Typed.lines).forM (interpretLine {} k)
        (ofConfig config host) = .ok () clean) ∧
      s.machine.Recovered clean ∧
      ∀ later, Admits n later s.machine → responses n later s.machine = responses n later clean := by
  have hstart : Alongside (ofConfig config host) (Session.start config host).typing
    (Session.start config host).machine (Session.start config host).machine :=
      alongside_ofConfig config host hcap
  obtain ⟨hlines, hline, -⟩ := (admits_append (s := Session.start config host)).1 hadmits
  have hbefore := hstart.run hlines
  obtain ⟨ws, d, hmachine, settled, rest, capacity, hmakes⟩ := hbefore.of_error hline hfails
  rw [run_append_singleton] at hs
  subst hs
  obtain ⟨set0, rest0⟩ := settled_setUp (d := ⟨.flat (.zeros config.dictionaryBytes)⟩) (by
    rwa [Dictionary.ofCapacity, capacity_setUp] at hcap)
  obtain ⟨d', htyped, settled', rest', capacity'⟩ :=
    exists_forM_flatMap hmakes settled.stacked set0 rest0 rfl
  have hmates : Mates (ofConfig config host) ws none
      ⟨d, .empty config.dataCells, .empty config.returnCells, 0, host⟩
      ⟨d', .empty config.dataCells, .empty config.returnCells, 0, host⟩ :=
    .mk settled settled' rest rest' (fun w hw => absurd hw (Option.not_mem_none w)) capacity
      capacity' rfl rfl
  have heq : (((Session.start config host).run n lines).enter n line).machine =
    ⟨d, .empty config.dataCells, .empty config.returnCells, 0, host⟩ := hmachine
  refine ⟨⟨d', .empty config.dataCells, .empty config.returnCells, 0, host⟩, fun k hk => ?_, ?_,
    fun later hadmits => ?_⟩
  · obtain ⟨k, rfl⟩ : ∃ j, k = j + 3 := ⟨k - 3, by omega⟩
    exact htyped k _ host
  · rw [heq]
    exact recovered_of_settled settled rest settled' rest'
  · rw [heq] at hadmits ⊢
    have halong : Alongside (ofConfig config host) ⟨_, none⟩ _ _ := ⟨ws, none, hmates, hmakes, .none⟩
    exact (halong.responses_eq hadmits).symm

/-- Where the memory ends before the input buffer, a line that failed leaves no trace either. -/
theorem exists_recovered_of_capacity_le {config : Config} {host : H} {lines : List (List UInt8)}
    {s : Session H} (hcap : (Dictionary.ofCapacity config.dictionaryBytes).capacity ≤ 16)
    (hs : (Session.start config host).run n (lines ++ [line]) = s) :
    ∃ clean : Machine H,
      (∀ k, 3 ≤ k → (s.typing.finished.flatMap Typed.lines).forM (interpretLine {} k)
        (ofConfig config host) = .ok () clean) ∧
      s.machine.Recovered clean ∧
      ∀ later, Admits n later s.machine → responses n later s.machine = responses n later clean := by
  have hdeaf := deaf_ofConfig config host hcap
  obtain ⟨hmachine, htyping⟩ := Deaf.run (n := n) (s := Session.start config host)
    (lines ++ [line]) hdeaf rfl
  rw [hs] at hmachine htyping
  refine ⟨ofConfig config host, fun k hk => ?_, ?_, fun later _ => hmachine.responses_eq hdeaf⟩
  · rw [htyping]
    rfl
  · refine ⟨hmachine.compiling_eq, ?_, ?_, hmachine.ip_eq, hmachine.base_eq, hmachine.here_eq,
      hmachine.latest_eq, fun a hle _ _ => ?_⟩
    · rw [hmachine.data_eq]
      rfl
    · rw [hmachine.returns_eq]
      rfl
    · -- there is no memory for definitions
      have hbyte : ∀ d : Dictionary, d.capacity ≤ 16 → d.readByte a = 0 := fun d hd => by
        have ha : 96 ≤ a.toNat := UInt16.le_iff_toNat_le.1 hle
        exact Memory.readByte_of_capacity_le (Nat.le_trans hd (by omega))
      exact (hbyte _ hmachine.capacity_le).trans (hbyte _ hcap).symm

/-- After a line that failed and the reset that follows it, the machine is ready, its definitions are
those of a machine in which only the finished definitions were typed, and every later line does in
both the same. -/
theorem recovers_of_admits {config : Config} {host : H} {lines : List (List UInt8)} {stop : Stop}
    {s : Session H} (hs : (Session.start config host).run n (lines ++ [line]) = s)
    (hadmits : Admits n (lines ++ [line]) (ofConfig config host))
    (hfails : error? (interpretLine {} n line ((Session.start config host).run n lines).machine) =
      some stop) :
    ∃ clean : Machine H,
      (∀ k, 3 ≤ k → (s.typing.finished.flatMap Typed.lines).forM (interpretLine {} k)
        (ofConfig config host) = .ok () clean) ∧
      s.machine.Recovered clean ∧
      ∀ later, Admits n later s.machine →
        responses n later s.machine = responses n later clean := by
  rcases Nat.lt_or_ge 16 (Dictionary.ofCapacity config.dictionaryBytes).capacity with hcap | hcap
  · exact exists_recovered_of_lt_capacity hcap hs hadmits hfails
  · exact exists_recovered_of_capacity_le hcap hs

/-- Lines of which the second one begins a definition that is never finished. -/
def interruptedLines : List (List UInt8) :=
  [": a 1 + ;", ": b 2 a"].map Text.encode

/-- The line at which the definition is given up, after a number and a word of it. -/
def interruptingLine : List UInt8 := Text.encode "300 dup missing ;"

/-- A line with another definition, and one that uses it. -/
def laterLines : List (List UInt8) := [": b a a ;", "5 b"].map Text.encode

/-- The session with these lines. -/
def interruptedSession : Session Unit :=
  (Session.start ⟨4, 4, 192⟩ ()).run 20 (interruptedLines ++ [interruptingLine])

theorem interruptedSession_eq :
    Admits 20 (interruptedLines ++ [interruptingLine]) (ofConfig ⟨4, 4, 192⟩ ()) ∧
      error? (interpretLine {} 20 interruptingLine
        ((Session.start ⟨4, 4, 192⟩ ()).run 20 interruptedLines).machine) =
          some (.error (.wordNotFound ⟨24, 31⟩)) ∧
      interruptedSession.typing.finished.flatMap Typed.lines =
        [": a", "1", "+", ";"].map Text.encode ∧
      Admits 20 laterLines interruptedSession.machine := by
  decide +kernel

/-- Of the session only the definition of `a` is left, and the later lines do what they do where only
that was typed. -/
theorem recovers_interruptedSession : ∃ clean : Machine Unit,
    ([": a", "1", "+", ";"].map Text.encode).forM (interpretLine {} 20) (ofConfig ⟨4, 4, 192⟩ ()) =
      .ok () clean ∧
    interruptedSession.machine.Recovered clean ∧
    responses 20 laterLines interruptedSession.machine = responses 20 laterLines clean := by
  obtain ⟨hadmits, hfails, hfinished, hlater⟩ := interruptedSession_eq
  obtain ⟨clean, htyped, hrecovered, hresponses⟩ :=
    recovers_of_admits (s := interruptedSession) rfl hadmits hfails
  refine ⟨clean, ?_, hrecovered, hresponses _ hlater⟩
  rw [← hfinished]
  exact htyped 20 (by decide)

end Machine

end ThreadedForth
