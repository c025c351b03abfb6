import ThreadedForth.Proofs.Machine.Fuel
import ThreadedForth.Proofs.Machine.Words
import ThreadedForth.Host.Batch

/-!
# Execution that is asked for from inside code

A host can answer a system call by executing a token that it takes from the stack. The instruction
pointer then lies in the code that made the call, so the execution does not end with the token: it
goes on with the code after the call, as if the primitive `execute` stood in its place, and ends
where that code ends. What comes after depends on how it ended (`endsIn_code_iff_of_executing`). An
error is an error of the call. If the code returned, the call returns too, and the code goes on a
cell after the address zero to which the return led: the machine takes the cell `here` for a token.
-/

set_option autoImplicit false

namespace ThreadedForth.Machine

variable {H : Type} {hooks : Hooks H} {call call' : Interpreter H} {N n n' : Nat}
  {m m' : Machine H} {xt : Addr}

/-! ## Code with a token in place of the next one -/

/-- The code that runs in a machine. -/
def code (hooks : Hooks H) (N n : Nat) : MachineM H Unit := runCode hooks (interpreter hooks N) n

/-- The code that runs in a machine, with another token in place of the next one. -/
def codeWith (hooks : Hooks H) (xt : Addr) (N n : Nat) : MachineM H Unit := do
  runToken hooks (interpreter hooks N) n xt
  code hooks N n

theorem growing_code (hs : hooks.Steady) : Growing (code hooks) :=
  fun hN hn => below_runCode hs (below_interpreter hs hN) hn

theorem growing_codeWith (hs : hooks.Steady) (xt : Addr) : Growing (codeWith hooks xt) :=
  fun hN hn => .bind (below_runToken hs (below_interpreter hs hN) hn xt)
    fun _ => growing_code hs hN hn

theorem code_succ (m : Machine H) :
    code hooks N (n + 1) m = codeWith hooks m.nextToken N n m := rfl

/-! ## Tokens that ask for nothing -/

/-- The token pushes a number, works on the data stack or calls a definition. -/
def isPlain (xt : Addr) : Bool :=
  match Token.decode xt with
  | .primitive (.operator _) => true
  | .primitive _ => false
  | .literal _ => true
  | .call _ => true

/-- A plain token needs no interpreter. -/
theorem runToken_eq_of_plain (h : isPlain xt) :
    runToken hooks call n xt = runToken hooks call' n' xt := by
  unfold isPlain at h
  unfold runToken
  cases hdecode : Token.decode xt with
  | primitive p =>
      rw [hdecode] at h
      cases p with
      | operator op => rfl
      | _ => cases h
  | literal v => rfl
  | call body => rfl

theorem le_of_decode_eq_call {body : Addr} (h : Token.decode xt = .call body) :
    Layout.firstEntry ≤ body := by
  unfold Token.decode at h
  split at h
  · cases h
  · split at h
    · cases h
    · rename_i hle
      cases h
      exact UInt16.not_lt.1 hle

/-- After a plain token in code, code goes on. -/
theorem firstEntry_le_ip_of_plain (h : isPlain xt) (hip : Layout.firstEntry ≤ m.ip)
    (htop : m.ip.toNat + 2 < 65536) (hrun : runToken hooks call n xt m = .ok () m') :
    Layout.firstEntry ≤ m'.ip := by
  have hnext : Layout.firstEntry ≤ m.ip + cellSize := by
    rw [UInt16.le_iff_toNat_le] at hip ⊢
    rw [toNat_add_cellSize htop]
    omega
  unfold isPlain at h
  unfold runToken at hrun
  cases hdecode : Token.decode xt with
  | primitive p =>
      rw [hdecode] at h hrun
      cases p with
      | operator op =>
          rcases exists_of_bind_eq_ok hrun with ⟨flow, m1, hperform, hrest⟩
          rcases exists_of_bind_eq_ok hperform with ⟨_, m2, hdata, hflow⟩
          rcases exists_of_onData_eq_ok hdata with ⟨data, -, rfl⟩
          cases hflow
          cases hrest
          exact hnext
      | _ => cases h
  | literal v =>
      rw [hdecode] at hrun
      rcases exists_of_bind_eq_ok hrun with ⟨_, m1, hpush, hrest⟩
      rcases of_push_eq_ok hpush with ⟨data, -, rfl⟩
      cases hrest
      exact hnext
  | call body =>
      rw [hdecode] at hrun
      rcases exists_of_bind_eq_ok hrun with ⟨m1, m2, hget, hrest⟩
      rcases exists_of_bind_eq_ok hrest with ⟨_, m3, -, hset⟩
      cases hset
      exact le_of_decode_eq_call hdecode

/-- To execute a plain token from inside code is to run the code with the token in place. -/
theorem runFrom_eq_codeWith (h : isPlain xt) (hip : Layout.firstEntry ≤ m.ip)
    (htop : m.ip.toNat + 2 < 65536) :
    runFrom hooks (interpreter hooks N) n xt m = codeWith hooks xt N n m := by
  unfold runFrom codeWith
  cases hrun : runToken hooks (interpreter hooks N) n xt m with
  | ok u m' =>
      -- the instruction pointer stays in code, so the run does not end after the token
      have hle := firstEntry_le_ip_of_plain h hip htop hrun
      rw [bind_eq_of_ok hrun, bind_eq_of_ok hrun]
      show (if m'.ip < Layout.firstEntry then _ else _ : MachineM H Unit) m' = _
      rw [if_neg (UInt16.not_lt.2 hle)]
      rfl
  | error stop m' => rw [bind_eq_of_error hrun, bind_eq_of_error hrun]

/-! ## A host that executes a token -/

variable {touch : H → H} {selector xtCell : Cell} {data data' : Stack}

/-- Executes the token on the stack; the host may take note of it before. -/
def executing (touch : H → H) (call : Interpreter H) : MachineM H Unit := do
  modifyHost touch
  let xt ← pop
  call (.execute xt.toUInt16)

/-- The machine when the host was called. -/
def called (m : Machine H) (touch : H → H) (data : Stack) : Machine H :=
  { m with data, host := touch m.host }

theorem runToken_sys (hsys : ∀ call, hooks.sys call selector = executing touch call)
    (hselector : m.data.pop? = some (selector, data)) (hxt : data.pop? = some (xtCell, data')) :
    runToken hooks call n Primitive.sys.token m =
      (call (.execute xtCell.toUInt16) >>= fun _ => advance) (m.called touch data') := by
  have hfirst : pop m = .ok selector { m with data } := pop_eq_of_pop? hselector
  have hsecond : pop (m.called touch data) = .ok xtCell (m.called touch data') :=
    pop_eq_of_pop? (m := m.called touch data) hxt
  have hcall : hooks.sys call selector { m with data } =
      call (.execute xtCell.toUInt16) (m.called touch data') := by
    rw [hsys]
    exact bind_eq_of_ok hsecond _
  unfold runToken
  rw [decode_token]
  show ((pop >>= fun sel => hooks.sys call sel >>= fun _ => pure Flow.advance) >>= _) m = _
  rw [bind_assoc, bind_eq_of_ok hfirst, bind_assoc]
  exact bind_eq_bind_of_eq hcall _

/-- The primitive `execute` runs the token on the stack in its own place. -/
theorem runToken_execute (hxt : m.data.pop? = some (xtCell, data')) :
    runToken hooks call n Primitive.execute.token m =
      call (.run xtCell.toUInt16) { m with data := data' } := by
  have hpop : pop m = .ok xtCell { m with data := data' } := pop_eq_of_pop? hxt
  unfold runToken
  rw [decode_token]
  show ((pop >>= fun xt => call (.run xt.toUInt16) >>= fun _ => pure Flow.stay) >>= _) m = _
  rw [bind_assoc, bind_eq_of_ok hpop, bind_assoc]
  exact congrFun (bind_pure (call (.run xtCell.toUInt16))) _

/-- With `execute` in place the code runs as with the token itself. -/
theorem codeWith_execute (hxt : m.data.pop? = some (xtCell, data'))
    (hplain : isPlain xtCell.toUInt16) :
    codeWith hooks Primitive.execute.token (N + 1) n m =
      codeWith hooks xtCell.toUInt16 (N + 1) n { m with data := data' } := by
  refine bind_eq_bind_of_eq ?_ _
  rw [runToken_execute hxt]
  exact congrFun (runToken_eq_of_plain hplain) _

theorem endsIn_codeWith_execute_iff {r : EStateM.Result Stop (Machine H) Unit} (hs : hooks.Steady)
    (hxt : m.data.pop? = some (xtCell, data')) (hplain : isPlain xtCell.toUInt16) :
    EndsIn (codeWith hooks Primitive.execute.token) m r ↔
      EndsIn (codeWith hooks xtCell.toUInt16) { m with data := data' } r := by
  refine EndsIn.iff_of_forall (growing_codeWith hs _) (growing_codeWith hs _) fun k => ?_
  exact ⟨k + 1, k, k + 1, k, by omega, by omega, codeWith_execute hxt hplain⟩

/-- From inside code, the execution of a plain token is over where the code with the token in place
returns. -/
theorem execute_of_codeWith_eq_exit (hplain : isPlain xt) (hip : Layout.firstEntry ≤ m.ip)
    (htop : m.ip.toNat + 2 < 65536) (h : codeWith hooks xt N n m = .error .exit m') :
    execute hooks (interpreter hooks N) n xt m = .ok () m' := by
  unfold execute
  rw [runFrom_eq_codeWith hplain hip htop, h]

/-- It fails where that code fails, and leaves no code running. -/
theorem execute_of_codeWith_eq_error {stop : Stop} (hplain : isPlain xt)
    (hip : Layout.firstEntry ≤ m.ip) (htop : m.ip.toNat + 2 < 65536) (hstop : stop ≠ .exit)
    (h : codeWith hooks xt N n m = .error stop m') :
    execute hooks (interpreter hooks N) n xt m = .error stop { m' with ip := 0 } := by
  unfold execute
  rw [runFrom_eq_codeWith hplain hip htop, h]
  cases stop with
  | exit => exact absurd rfl hstop
  | outOfFuel => rfl
  | error e => rfl

theorem codeWith_ne_ok (m m' : Machine H) : codeWith hooks xt N n m ≠ .ok () m' := by
  intro h
  rcases exists_of_bind_eq_ok h with ⟨_, m1, -, hcode⟩
  exact runCode_ne_ok n m1 m' hcode

/-- The code that runs begins with the next token. -/
theorem endsIn_code_iff {r : EStateM.Result Stop (Machine H) Unit} (hs : hooks.Steady) :
    EndsIn (code hooks) m r ↔ EndsIn (codeWith hooks m.nextToken) m r := by
  refine EndsIn.iff_of_forall (growing_code hs) (growing_codeWith hs _) fun k => ?_
  exact ⟨k, k + 1, k, k, by omega, by omega, code_succ m⟩

/-- The cell after the one at address zero is `here`. -/
theorem nextToken_of_ip_eq_zero (h : m.ip = 0) :
    nextToken { m with ip := m.ip + cellSize } = m.dictionary.here := by
  rw [h]
  rfl

/-! ## A call from inside code -/

section

variable {r : EStateM.Result Stop (Machine H) Unit} (hs : hooks.Steady)
  (hsys : ∀ call, hooks.sys call selector = executing touch call) (hip : Layout.firstEntry ≤ m.ip)
  (htop : m.ip.toNat + 2 < 65536) (hselector : m.data.pop? = some (selector, data))
  (hxt : data.pop? = some (xtCell, data')) (hplain : isPlain xtCell.toUInt16)

include hsys hselector hxt

/-- With the system call in place the token is executed first, and then the code goes on. -/
theorem codeWith_sys :
    codeWith hooks Primitive.sys.token (N + 1) n m =
      (execute hooks (interpreter hooks N) N xtCell.toUInt16 >>= fun _ =>
        advance >>= fun _ => code hooks (N + 1) n) (m.called touch data') := by
  rw [← bind_assoc]
  exact bind_eq_bind_of_eq (runToken_sys hsys hselector hxt) _

include hip htop hplain

theorem codeWith_sys_of_exit
    (h : codeWith hooks xtCell.toUInt16 N N (m.called touch data') = .error .exit m') :
    codeWith hooks Primitive.sys.token (N + 1) n m =
      code hooks (N + 1) n { m' with ip := m'.ip + cellSize } := by
  have hrun : execute hooks (interpreter hooks N) N xtCell.toUInt16
      (m.called touch data') = .ok () m' :=
    execute_of_codeWith_eq_exit hplain hip htop h
  rw [codeWith_sys hsys hselector hxt]
  exact bind_eq_of_ok hrun _

theorem codeWith_sys_of_error {stop : Stop} (hstop : stop ≠ .exit)
    (h : codeWith hooks xtCell.toUInt16 N N (m.called touch data') = .error stop m') :
    codeWith hooks Primitive.sys.token (N + 1) n m = .error stop { m' with ip := 0 } := by
  have hrun : execute hooks (interpreter hooks N) N xtCell.toUInt16
      (m.called touch data') = .error stop { m' with ip := 0 } :=
    execute_of_codeWith_eq_error hplain hip htop hstop h
  rw [codeWith_sys hsys hselector hxt]
  exact bind_eq_of_error hrun _

include hs

/-- If the code with the token in place fails, the call fails in the same way. -/
theorem endsIn_codeWith_sys_of_error {e : Error}
    (h : EndsIn (codeWith hooks xtCell.toUInt16) (m.called touch data')
      (.error (.error e) m')) :
    EndsIn (codeWith hooks Primitive.sys.token) m (.error (.error e) { m' with ip := 0 }) := by
  rcases h.exists_forall (growing_codeWith hs _) with ⟨k, hk⟩
  refine ⟨fun _ => by simp, k + 1, k, ?_⟩
  exact codeWith_sys_of_error hsys hip htop hselector hxt hplain (by simp)
    (hk k k (by omega) (by omega))

/-- If the code with the token in place returns, the code goes on from where that led. -/
theorem endsIn_codeWith_sys_of_exit
    (h : EndsIn (codeWith hooks xtCell.toUInt16) (m.called touch data') (.error .exit m'))
    (hrest : EndsIn (code hooks) { m' with ip := m'.ip + cellSize } r) :
    EndsIn (codeWith hooks Primitive.sys.token) m r := by
  rcases h.exists_forall (growing_codeWith hs _) with ⟨k, hk⟩
  rcases hrest.exists_forall (growing_code hs) with ⟨l, hl⟩
  refine ⟨hrest.1, max k l + 1, max k l, ?_⟩
  rw [codeWith_sys_of_exit hsys hip htop hselector hxt hplain (hk _ _ (by omega) (by omega))]
  exact hl _ _ (by omega) (by omega)

/-- The code with the call ends in no other way. -/
theorem of_endsIn_codeWith_sys (h : EndsIn (codeWith hooks Primitive.sys.token) m r) :
    (∃ e m', EndsIn (codeWith hooks xtCell.toUInt16) (m.called touch data')
        (.error (.error e) m') ∧ r = .error (.error e) { m' with ip := 0 }) ∨
      ∃ m', EndsIn (codeWith hooks xtCell.toUInt16) (m.called touch data')
        (.error .exit m') ∧ EndsIn (code hooks) { m' with ip := m'.ip + cellSize } r := by
  rcases h.exists_forall (growing_codeWith hs _) with ⟨k, hk⟩
  have hcode := hk (k + 1) k (by omega) (by omega)
  cases hrun : codeWith hooks xtCell.toUInt16 k k (m.called touch data') with
  | ok u m' => exact absurd hrun (codeWith_ne_ok _ _)
  | error stop m' =>
      cases stop with
      | exit =>
          right
          rw [codeWith_sys_of_exit hsys hip htop hselector hxt hplain hrun] at hcode
          exact ⟨m', ⟨fun _ => by simp, k, k, hrun⟩, h.1, k + 1, k, hcode⟩
      | outOfFuel =>
          -- the bound that suffices for the whole suffices for the inner run
          rw [codeWith_sys_of_error hsys hip htop hselector hxt hplain (by simp) hrun] at hcode
          exact absurd hcode.symm (h.1 _)
      | error e =>
          left
          rw [codeWith_sys_of_error hsys hip htop hselector hxt hplain (by simp) hrun] at hcode
          exact ⟨e, m', ⟨fun _ => by simp, k, k, hrun⟩, hcode.symm⟩

end

/-- Where a host is called from inside code and executes a plain token: if the code with `execute`
in place of the call fails, the code with the call fails in the same way. If the code with
`execute` in place returns, the code with the call does not: it goes on a cell after the address
that it returned to, and where that is zero, the cell there is `here`. It ends in no other way. -/
theorem endsIn_code_iff_of_executing {r : EStateM.Result Stop (Machine H) Unit} (hs : hooks.Steady)
    (hsys : ∀ call, hooks.sys call selector = executing touch call)
    (hnext : m.nextToken = Primitive.sys.token) (hip : Layout.firstEntry ≤ m.ip)
    (htop : m.ip.toNat + 2 < 65536) (hselector : m.data.pop? = some (selector, data))
    (hxt : data.pop? = some (xtCell, data')) (hplain : isPlain xtCell.toUInt16) :
    EndsIn (code hooks) m r ↔
      (∃ e m', EndsIn (codeWith hooks Primitive.execute.token) (m.called touch data)
          (.error (.error e) m') ∧ r = .error (.error e) { m' with ip := 0 }) ∨
        ∃ m', EndsIn (codeWith hooks Primitive.execute.token) (m.called touch data)
            (.error .exit m') ∧
          (m'.ip = 0 → nextToken { m' with ip := m'.ip + cellSize } = m'.dictionary.here) ∧
          EndsIn (code hooks) { m' with ip := m'.ip + cellSize } r := by
  -- with `execute` in place the code runs as with the token itself
  have hplace : ∀ r', EndsIn (codeWith hooks Primitive.execute.token) (m.called touch data) r' ↔
      EndsIn (codeWith hooks xtCell.toUInt16) (m.called touch data') r' := fun _ =>
    endsIn_codeWith_execute_iff (m := m.called touch data) hs hxt hplain
  simp only [hplace, endsIn_code_iff hs (m := m), hnext]
  constructor
  · intro h
    rcases of_endsIn_codeWith_sys hs hsys hip htop hselector hxt hplain h with herror | hexit
    · exact Or.inl herror
    · rcases hexit with ⟨m', hplaced, hrest⟩
      exact Or.inr ⟨m', hplaced, nextToken_of_ip_eq_zero, hrest⟩
  · intro h
    rcases h with ⟨e, m', hplaced, rfl⟩ | ⟨m', hplaced, -, hrest⟩
    · exact endsIn_codeWith_sys_of_error hs hsys hip htop hselector hxt hplain hplaced
    · exact endsIn_codeWith_sys_of_exit hs hsys hip htop hselector hxt hplain hplaced hrest

/-! ## A word that asks the host -/

theorem below_sys_batch {call call' : Interpreter Batch} (hcall : Answers call call')
    (selector : Cell) : Below (Batch.sys call selector) (Batch.sys call' selector) := by
  refine .bind (.refl _) fun _ => ?_
  split
  · exact .refl _
  · split
    · exact .bind (.refl _) fun _ => hcall _
    · split
      · exact hcall _
      · exact .refl _

/-- The host for unattended runs can not tell what became of a request. -/
theorem steady_batch (answersSys suppliesInput knowsWords : Bool) :
    (Batch.hooks answersSys suppliesInput knowsWords).Steady where
  sys := by
    intro call call' hcall selector
    cases answersSys with
    | false => exact .refl _
    | true => exact below_sys_batch hcall selector
  refill := by
    intro call call' hcall
    cases suppliesInput with
    | false => exact .refl _
    | true => exact .refl _
  unknownWord := by
    intro call call' hcall f hf name
    cases knowsWords with
    | false => cases hf
    | true =>
        cases hf
        exact .refl _

/-- A host that answers system calls. The one with the selector seven executes a token. -/
def askedHost : Hooks Batch := Batch.hooks true false false

theorem sys_askedHost (call : Interpreter Batch) :
    askedHost.sys call 7 =
      executing (fun b => { b with sysCalls := b.sysCalls + 1 }) call := rfl

/-- A machine in a word that has the host execute the token for five, where the word calls it. -/
def askingMachine : Machine Batch :=
  lastState <|
    (do
      interpretLine askedHost 20 (Text.encode ": w 42 7 sys 9 ;")
      runToken askedHost (interpreter askedHost 20) 20 100
      runCode askedHost (interpreter askedHost 20) 2 : MachineM Batch Unit)
    (ofConfig ⟨4, 4, 128⟩ {})

/-- The machine when the host was called. -/
def askedMachine : Machine Batch :=
  askingMachine.called (fun b => { b with sysCalls := b.sysCalls + 1 })
    ⟨4, [42], 1, by decide, by decide⟩

/-- The machine after the word returned, with `execute` in place of the call. -/
def returnedMachine : Machine Batch :=
  lastState (codeWith askedHost Primitive.execute.token 20 20 askedMachine)

/-- The machine after the word failed, with the call. -/
def failedMachine : Machine Batch :=
  lastState (code askedHost 20 20 { returnedMachine with ip := returnedMachine.ip + cellSize })

/-- With `execute` in its place the word leaves five and nine, as it should. With the call it comes
by this result as well, but then goes on with `here` for a token until the stack is full. -/
theorem endsIn_code_askingMachine :
    EndsIn (codeWith askedHost Primitive.execute.token) askedMachine
        (.error .exit returnedMachine) ∧
      returnedMachine.data.cells = [9, 5] ∧ returnedMachine.ip = 0 ∧
      EndsIn (code askedHost) askingMachine (.error (.error .stackOverflow) failedMachine) ∧
      failedMachine.data.cells = [0, 0, 9, 5] ∧ failedMachine.returns.cells = [2] := by
  have hfacts : askingMachine.nextToken = Primitive.sys.token ∧
      Layout.firstEntry ≤ askingMachine.ip ∧ askingMachine.ip.toNat + 2 < 65536 ∧
      askingMachine.data.capacity = 4 ∧ askingMachine.data.cells = [7, 42] ∧
      error? (codeWith askedHost Primitive.execute.token 20 20 askedMachine) = some .exit ∧
      returnedMachine.data.cells = [9, 5] ∧ returnedMachine.ip = 0 ∧
      error? (code askedHost 20 20
        { returnedMachine with ip := returnedMachine.ip + cellSize }) =
          some (.error .stackOverflow) ∧
      failedMachine.data.cells = [0, 0, 9, 5] ∧ failedMachine.returns.cells = [2] := by
    decide +kernel
  rcases hfacts with ⟨hnext, hip, htop, hcapacity, hasked, hexit, hcells, hzero, herror, hfull,
    hreturn⟩
  have hdata : askingMachine.data = ⟨4, [7, 42], 2, rfl, by decide⟩ := Stack.ext hcapacity hasked
  have hselector : askingMachine.data.pop? = some (7, ⟨4, [42], 1, rfl, by decide⟩) := by
    rw [hdata]
    rfl
  have hreturned : EndsIn (codeWith askedHost Primitive.execute.token) askedMachine
      (.error .exit returnedMachine) :=
    ⟨fun _ => by simp, 20, 20, eq_error_lastState hexit⟩
  have hrest : EndsIn (code askedHost) { returnedMachine with ip := returnedMachine.ip + cellSize }
      (.error (.error .stackOverflow) failedMachine) :=
    ⟨fun _ => by simp, 20, 20, eq_error_lastState herror⟩
  refine ⟨hreturned, hcells, hzero, ?_, hfull, hreturn⟩
  have hplain : isPlain (42 : Cell).toUInt16 := by decide
  have hiff := endsIn_code_iff_of_executing (r := .error (.error .stackOverflow) failedMachine)
    (steady_batch true false false) sys_askedHost hnext hip htop hselector rfl hplain
  exact hiff.2 (Or.inr ⟨returnedMachine, hreturned, nextToken_of_ip_eq_zero, hrest⟩)

end ThreadedForth.Machine
