import ThreadedForth.Proofs.Machine.Failing
import ThreadedForth.Proofs.Machine.Nested

/-!
# The instruction pointer between words

The instruction pointer is zero while no code runs. A call that is made then keeps zero for the way back,
and the code it enters ends where it returns to zero.

That the outermost definition returned is not an error. It is passed on by whatever ran the code, and only
`execute` takes it for the good end, with the instruction pointer where it is. So what has to be known of
everything that can be run is that it passes this on only with a zero instruction pointer (`ExitsAtZero`).
The primitive that returns sees to it, and `execute` hands on what another token did. A nested source is the
one thing that puts an old instruction pointer back, and it never returns in this way, as each of its words
is executed on its own (`NeverExits`).
-/

set_option autoImplicit false

namespace ThreadedForth

/-- No hook returns as if a definition had, whatever it asks of the interpreter. -/
structure Hooks.NeverExit {H : Type} (hooks : Hooks H) : Prop where
  sys : ∀ N selector, Machine.NeverExits (hooks.sys (Machine.interpreter hooks N) selector)
  refill : ∀ N, Machine.NeverExits (hooks.refill (Machine.interpreter hooks N))
  unknownWord : ∀ f, hooks.unknownWord? = some f →
    ∀ N name, Machine.NeverExits (f (Machine.interpreter hooks N) name)

/-- The hook for unknown words runs no code that it does not run to its end. -/
def Hooks.KeepsZero {H : Type} (hooks : Hooks H) : Prop :=
  ∀ f, hooks.unknownWord? = some f → ∀ N name m, m.ip = 0 →
    (lastState (f (Machine.interpreter hooks N) name m)).ip = 0

namespace Machine

variable {H α β : Type} {hooks : Hooks H} {call : Interpreter H} {N n : Nat} {m m' : Machine H}
  {xt : Addr}

/-! ## Programs that return -/

theorem neverExits_iff_failsOnly {x : MachineM H α} : NeverExits x ↔ FailsOnly (· ≠ Stop.exit) x :=
  ⟨fun h m _ m' hstop heq => h m m' (heq ▸ hstop), fun h m m' hexit => h m .exit m' hexit rfl⟩

namespace NeverExits

theorem pure (a : α) : NeverExits (pure a : MachineM H α) := neverExits_iff_failsOnly.2 (.pure a)

theorem throw {stop : Stop} (h : stop ≠ .exit) : NeverExits (throw stop : MachineM H α) :=
  neverExits_iff_failsOnly.2 (.throw h)

theorem outOfFuel : NeverExits (MonadExcept.throw Stop.outOfFuel : MachineM H α) :=
  .throw Stop.isPlain_outOfFuel.ne_exit

theorem fail (e : Error) : NeverExits (fail e : MachineM H α) := .throw fun h => by cases h

theorem get : NeverExits (get : MachineM H (Machine H)) := neverExits_iff_failsOnly.2 .get

theorem modify (f : Machine H → Machine H) : NeverExits (modify f : MachineM H Unit) := by
  intro m m' h
  cases h

theorem getDictionary (f : Dictionary → α) : NeverExits (getDictionary f : MachineM H α) :=
  neverExits_iff_failsOnly.2 (failsOnly_getDictionary f)

theorem modifyHost (f : H → H) : NeverExits (modifyHost f : MachineM H Unit) :=
  neverExits_iff_failsOnly.2 (failsOnly_modifyHost f)

end NeverExits

/-- Where the program stops as if a definition returned, no code is running. -/
def ExitsAtZero (x : MachineM H α) : Prop := ∀ m m', x m = .error .exit m' → m'.ip = 0

namespace ExitsAtZero

theorem of_neverExits {x : MachineM H α} (h : NeverExits x) : ExitsAtZero x :=
  fun m m' hexit => absurd hexit (h m m')

theorem bind {x : MachineM H α} {f : α → MachineM H β} (hx : ExitsAtZero x)
    (hf : ∀ a, ExitsAtZero (f a)) : ExitsAtZero (x >>= f) := by
  intro m m' h
  rcases of_bind_eq_error h with hexit | ⟨a, m1, -, hrest⟩
  · exact hx m m' hexit
  · exact hf a m1 m' hrest

end ExitsAtZero

/-- Another instruction pointer is put back, but not if the program never returns. -/
theorem NeverExits.withIp {ip : Addr} {x : MachineM H Unit} (h : NeverExits x) :
    NeverExits (withIp ip x) := by
  intro m m' hexit
  unfold Machine.withIp at hexit
  split at hexit
  · cases hexit
  · rename_i stop m1 hx
    cases hexit
    exact h _ m1 hx

/-! ## Tokens and code -/

/-- Where the interpreter is asked for a token and a definition returned, no code is running, and where it is
asked for a source, no definition returns. -/
structure EndsWell (call : Interpreter H) : Prop where
  run : ∀ xt, ExitsAtZero (call (.run xt))
  interpretSource : NeverExits (call .interpretSource)

section Step

variable (hcall : EndsWell call) (hsys : ∀ selector, NeverExits (hooks.sys call selector))
  (hrefill : NeverExits (hooks.refill call))

include hcall hsys hrefill

theorem exitsAtZero_perform (n : Nat) (p : Primitive) : ExitsAtZero (perform hooks call n p) := by
  cases hp : p.handsOver with
  | false =>
      exact .of_neverExits <| neverExits_iff_failsOnly.2 <| failsOnly_perform (fun _ h => h.ne_exit)
        (fun selector => neverExits_iff_failsOnly.1 (hsys selector))
        (neverExits_iff_failsOnly.1 hrefill) hp
  | true =>
      cases p with
      | exit =>
          intro m m' h
          rcases of_bind_eq_error h with hpop | ⟨v, m1, -, hrest⟩
          · exact absurd rfl (failsOnly_popReturn m _ m' hpop).ne_exit
          · rcases of_bind_eq_error hrest with hset | ⟨_, m2, hset, hthrow⟩
            · cases hset
            · -- the pointer was set to the address that is then found to be zero
              cases hset
              dsimp only at hthrow
              split at hthrow
              · rename_i hzero
                cases hthrow
                exact hzero
              · cases hthrow
      | execute =>
          exact (ExitsAtZero.of_neverExits (.onData _)).bind fun v =>
            (hcall.run v.toUInt16).bind fun _ => .of_neverExits (.pure _)
      | evaluate => exact .of_neverExits (hcall.interpretSource.withIp.bind fun _ => .pure _)
      | _ => cases hp

theorem exitsAtZero_runToken (n : Nat) (xt : Addr) : ExitsAtZero (runToken hooks call n xt) := by
  unfold runToken
  cases Token.decode xt with
  | primitive p =>
      refine (exitsAtZero_perform hcall hsys hrefill n p).bind fun flow => ?_
      cases flow with
      | advance => exact .of_neverExits (.modify _)
      | stay => exact .of_neverExits (.pure _)
  | literal v => exact .of_neverExits (NeverExits.bind (.onData _) fun _ => .modify _)
  | call body =>
      have hpush (v : Cell) : NeverExits (pushReturn v : MachineM H Unit) :=
        neverExits_iff_failsOnly.2 ((failsOnly_pushReturn v).imp fun _ h => h.ne_exit)
      exact .of_neverExits (NeverExits.get.bind fun m => (hpush _).bind fun _ => .modify _)

theorem exitsAtZero_runCode (n : Nat) : ExitsAtZero (runCode hooks call n) := by
  induction n with
  | zero => exact .of_neverExits .outOfFuel
  | succ n ih =>
      intro m m' h
      rw [runCode_succ] at h
      exact (exitsAtZero_runToken hcall hsys hrefill n m.nextToken).bind (fun _ => ih) m m' h

theorem exitsAtZero_runFrom (n : Nat) (xt : Addr) : ExitsAtZero (runFrom hooks call n xt) := by
  refine (exitsAtZero_runToken hcall hsys hrefill n xt).bind fun _ =>
    ExitsAtZero.bind (.of_neverExits .get) fun m => ?_
  split
  · exact .of_neverExits (.modify _)
  · exact exitsAtZero_runCode hcall hsys hrefill n

/-- However execution ends, no code is running. -/
theorem ip_lastState_execute (n : Nat) (xt : Addr) (m : Machine H) :
    (lastState (execute hooks call n xt m)).ip = 0 := by
  unfold execute
  cases hrun : runFrom hooks call n xt m with
  | ok u m1 =>
      -- only a token that left no code to run ends without a stop
      obtain ⟨_, m2, -, hrest⟩ := exists_of_bind_eq_ok hrun
      obtain ⟨_, m3, hget, hend⟩ := exists_of_bind_eq_ok hrest
      cases hget
      split at hend
      · cases hend
        rfl
      · exact absurd hend (runCode_ne_ok n _ _)
  | error stop m1 =>
      cases stop with
      | exit => exact exitsAtZero_runFrom hcall hsys hrefill n xt m m1 hrun
      | error e => rfl
      | outOfFuel => rfl

end Step

/-- The end of a definition is the good end of what executes it. -/
theorem neverExits_execute (n : Nat) (xt : Addr) : NeverExits (execute hooks call n xt) := by
  intro m m' h
  unfold execute at h
  split at h
  · cases h
  · cases h
  · rename_i stop m1 hne hrun
    cases h
    exact hne rfl

/-! ## Source text -/

theorem neverExits_interpretLiteral (v : Cell) :
    NeverExits (interpretLiteral v : MachineM H Unit) := by
  refine NeverExits.bind (.getDictionary _) fun compiling => ?_
  split
  · split
    · exact .onDictionary _
    · exact .bind (.onDictionary _) fun _ => .onDictionary _
  · exact .onData _

section Words

variable (hunknown : ∀ f, hooks.unknownWord? = some f → ∀ name, NeverExits (f call name))

include hunknown

theorem neverExits_interpretWord (n : Nat) (name : Span) :
    NeverExits (interpretWord hooks call n name) := by
  refine NeverExits.bind (.getDictionary _) fun meaning => ?_
  cases meaning with
  | known xt immediate =>
      refine NeverExits.bind (.getDictionary _) fun compiling => ?_
      split
      · exact .onDictionary _
      · exact neverExits_execute n xt
  | endless => exact .outOfFuel
  | unknown =>
      refine NeverExits.bind (.getDictionary _) fun number? => ?_
      cases number? with
      | some v => exact neverExits_interpretLiteral v
      | none =>
          cases hhook : hooks.unknownWord? with
          | some f => exact hunknown f hhook name
          | none => exact .fail _

theorem neverExits_interpretSource (n : Nat) : NeverExits (interpretSource hooks call n) := by
  induction n with
  | zero => exact .outOfFuel
  | succ n ih =>
      rw [interpretSource]
      refine NeverExits.bind (.getDictionary _) fun hasInput => ?_
      cases hasInput with
      | false => exact .pure _
      | true =>
          exact NeverExits.bind (.onDictionary _) fun name =>
            NeverExits.bind (neverExits_interpretWord hunknown n name) fun _ => ih

end Words

/-! ## The interpreter -/

/-- However deep runs are nested: the interpreter ends them well. -/
theorem endsWell_interpreter (hhooks : hooks.NeverExit) (N : Nat) : EndsWell (interpreter hooks N) := by
  induction N with
  | zero => exact ⟨fun _ => .of_neverExits .outOfFuel, .outOfFuel⟩
  | succ N ih =>
      exact ⟨exitsAtZero_runToken ih (hhooks.sys N) (hhooks.refill N) N,
        neverExits_interpretSource (fun f hf => hhooks.unknownWord f hf N) N⟩

/-! ## Words after each other -/

/-- Where no code is running when the program begins, none is when it ends. -/
def StaysIdle (x : MachineM H α) : Prop := Relates (fun m m' : Machine H => m.ip = 0 → m'.ip = 0) x

namespace StaysIdle

theorem bind {x : MachineM H α} {f : α → MachineM H β} (hx : StaysIdle x)
    (hf : ∀ a, StaysIdle (f a)) : StaysIdle (x >>= f) :=
  Relates.bind (fun h h' hip => h' (h hip)) hx hf

theorem throw (stop : Stop) : StaysIdle (throw stop : MachineM H α) := fun _ hip => hip

theorem getDictionary (f : Dictionary → α) : StaysIdle (getDictionary f : MachineM H α) :=
  fun _ hip => hip

theorem onData (x : StackM α) : StaysIdle (onData x : MachineM H α) := by
  rintro ⟨d, data, returns, ip, host⟩ hip
  unfold Machine.onData
  dsimp only
  cases x data <;> exact hip

theorem onDictionary (x : DictionaryM α) : StaysIdle (onDictionary x : MachineM H α) := by
  rintro ⟨d, data, returns, ip, host⟩ hip
  unfold Machine.onDictionary
  dsimp only
  cases x d <;> exact hip

end StaysIdle

theorem staysIdle_interpretLiteral (v : Cell) :
    StaysIdle (interpretLiteral v : MachineM H Unit) := by
  refine (StaysIdle.getDictionary _).bind fun compiling => ?_
  split
  · split
    · exact .onDictionary _
    · exact (StaysIdle.onDictionary _).bind fun _ => .onDictionary _
  · exact .onData _

/-- A word is compiled, pushed or executed, and after any of these no code is running. -/
theorem staysIdle_interpretWord (hhooks : hooks.NeverExit) (hzero : hooks.KeepsZero) (N n : Nat)
    (name : Span) : StaysIdle (interpretWord hooks (interpreter hooks N) n name) := by
  refine (StaysIdle.getDictionary _).bind fun meaning => ?_
  cases meaning with
  | known xt immediate =>
      refine (StaysIdle.getDictionary _).bind fun compiling => ?_
      split
      · exact .onDictionary _
      · exact fun m _ => ip_lastState_execute (endsWell_interpreter hhooks N) (hhooks.sys N)
          (hhooks.refill N) n xt m
  | endless => exact .throw _
  | unknown =>
      refine (StaysIdle.getDictionary _).bind fun number? => ?_
      cases number? with
      | some v => exact staysIdle_interpretLiteral v
      | none =>
          cases hhook : hooks.unknownWord? with
          | some f => exact fun m => hzero f hhook N name m
          | none => exact .throw _

/-- So it is after each word of a source. -/
theorem staysIdle_interpretSource (hhooks : hooks.NeverExit) (hzero : hooks.KeepsZero) (N n : Nat) :
    StaysIdle (interpretSource hooks (interpreter hooks N) n) := by
  induction n with
  | zero => exact .throw _
  | succ n ih =>
      rw [interpretSource]
      refine (StaysIdle.getDictionary _).bind fun hasInput => ?_
      cases hasInput with
      | false => exact fun _ hip => hip
      | true =>
          exact (StaysIdle.onDictionary _).bind fun name =>
            (staysIdle_interpretWord hhooks hzero N n name).bind fun _ => ih

/-! ## Calls between words -/

/-- A call of the code at `body` keeps zero for the way back, if there is room for it, and where the code
returns to that zero the call is over. -/
structure EndsOnZero (hooks : Hooks H) (call : Interpreter H) (m : Machine H) (xt body : Addr) :
    Prop where
  full : m.returns.push? 0 = none → ∀ n,
    execute hooks call n xt m = .error (.error .returnStackOverflow) m
  enters : ∀ returns, m.returns.push? 0 = some returns → ∀ n,
    runToken hooks call n xt m = .ok () { m with returns, ip := body }
  ends : ∀ returns m₁, m.returns.push? 0 = some returns →
    Goes hooks call { m with returns, ip := body } m₁ → m₁.returns = returns →
      m₁.nextToken = Primitive.exit.token →
        ∃ k, ∀ n, execute hooks call (n + k) xt m = .ok () { m₁ with returns := m.returns, ip := 0 }

theorem execute_of_runFrom_eq_exit (h : runFrom hooks call n xt m = .error .exit m') :
    execute hooks call n xt m = .ok () m' := by
  unfold execute
  rw [h]

/-- Code that comes to return to zero halts there, with the zero taken from the return stack. -/
theorem halts_exit {returns returns' : Stack} (hpush : returns.push? 0 = some returns')
    (hreturns : m.returns = returns') (hnext : m.nextToken = Primitive.exit.token) :
    Halts hooks call m (.error .exit { m with returns, ip := 0 }) := by
  refine halts_of_runToken fun n => ?_
  rw [hnext]
  obtain ⟨d, s, r, ip, host⟩ := m
  obtain rfl : r = returns' := hreturns
  rw [runToken_exit n d s _ ip host (Stack.pop?_of_push? hpush)]
  rfl

/-- Between words every call is of this kind. -/
theorem endsOnZero_of_ip_eq_zero {body : Addr} (hip : m.ip = 0) (hxt : Token.decode xt = .call body) :
    EndsOnZero hooks call m xt body := by
  obtain ⟨d, s, returns, ip, host⟩ := m
  obtain rfl : ip = 0 := hip
  -- the number of a call is the address of the code
  obtain rfl : body = xt := by
    have hencode := Token.encode_decode xt
    rw [hxt] at hencode
    exact hencode
  have hle := le_of_decode_eq_call hxt
  constructor
  · intro (hfull : returns.push? (0 : Addr).toInt16 = none) n
    have htoken : runToken hooks call n body ⟨d, s, returns, 0, host⟩ =
        .error (.error .returnStackOverflow) ⟨d, s, returns, 0, host⟩ := by
      rw [runToken_of_decode_call _ _ _ _ _ _ hxt, hfull]
    unfold execute runFrom
    rw [bind_eq_of_error htoken]
  · intro returns' (hpush : returns.push? (0 : Addr).toInt16 = some returns') n
    rw [runToken_of_decode_call _ _ _ _ _ _ hxt, hpush]
  · intro returns' m₁ hpush hgoes hreturns hnext
    obtain ⟨k, hk⟩ := hgoes.halts (halts_exit hpush hreturns hnext)
    refine ⟨k, fun n => execute_of_runFrom_eq_exit ?_⟩
    rw [runFrom_of_push? (n + k) d s host hle hpush]
    exact hk n

/-! ## A host that asks for more -/

theorem neverExits_sys_batch {call : Interpreter Batch} (hexecute : ∀ xt, NeverExits (call (.execute xt)))
    (hrefill : NeverExits (call .refill)) (selector : Cell) : NeverExits (Batch.sys call selector) := by
  refine NeverExits.bind (.modifyHost _) fun _ => ?_
  cases OutputCall.ofSelector? selector with
  | some output =>
      have htake : NeverExits (output.take : MachineM Batch String) :=
        NeverExits.bind (.getDictionary _) fun base => NeverExits.bind (.onData _) fun v => .pure _
      exact htake.bind fun text => .modifyHost _
  | none =>
      dsimp only
      split
      · exact NeverExits.bind (.onData _) fun v => hexecute v.toUInt16
      · split
        · exact hrefill
        · exact .fail _

theorem neverExits_refill_batch (call : Interpreter Batch) : NeverExits (Batch.refill call) := by
  refine NeverExits.bind .get fun m => ?_
  cases m.host.queue with
  | nil => exact .fail _
  | cons line rest => exact NeverExits.bind (.modifyHost _) fun _ => .onDictionary _

theorem neverExits_unknownWord_batch (call : Interpreter Batch) (name : Span) :
    NeverExits (Batch.unknownWord call name) := by
  refine NeverExits.bind (.modifyHost _) fun _ => NeverExits.bind (.getDictionary _) fun text => ?_
  split
  · exact .fail _
  · exact .fail _
  · split
    · exact neverExits_interpretLiteral _
    · split
      · split
        · exact neverExits_interpretLiteral _
        · exact .fail _
      · exact .fail _

/-- The host for unattended runs with all that it can do. -/
def fullHost : Hooks Batch := Batch.hooks true true true

/-- The host for unattended runs has tokens executed, reads lines and knows words of its own, and it never
takes any of this for the return of a definition. -/
theorem neverExit_fullHost : fullHost.NeverExit where
  sys N selector := by
    refine neverExits_sys_batch (fun xt => ?_) ?_ selector
    · cases N with
      | zero => exact .outOfFuel
      | succ N => exact neverExits_execute N xt
    · cases N with
      | zero => exact .outOfFuel
      | succ N => exact neverExits_refill_batch (interpreter fullHost N)
  refill N := neverExits_refill_batch (interpreter fullHost N)
  unknownWord f hf N name := by
    cases hf
    exact neverExits_unknownWord_batch _ name

theorem keepsZero_fullHost : fullHost.KeepsZero := by
  intro f hf N name
  cases hf
  refine StaysIdle.bind (fun _ hip => hip) fun _ => (StaysIdle.getDictionary _).bind fun text => ?_
  split
  · exact .throw _
  · exact .throw _
  · split
    · exact staysIdle_interpretLiteral _
    · split
      · split
        · exact staysIdle_interpretLiteral _
        · exact .throw _
      · exact .throw _

/-! ## The end of execution -/

/-- However execution ends, it leaves no code running and does not pass on that a definition returned. So
no code is running while a source is interpreted, wherever between words this may end, and every call
that is made then has zero for the way back. -/
theorem execute_ends_at_zero (hhooks : hooks.NeverExit) (N n : Nat) (xt : Addr) (m : Machine H) :
    (lastState (execute hooks (interpreter hooks N) n xt m)).ip = 0 ∧
      (∀ m', execute hooks (interpreter hooks N) n xt m ≠ .error .exit m') ∧
      ∀ m₁ : Machine H, m₁.ip = (lastState (execute hooks (interpreter hooks N) n xt m)).ip →
        (hooks.KeepsZero → ∀ N₁ n₁,
          (lastState (interpretSource hooks (interpreter hooks N₁) n₁ m₁)).ip = 0) ∧
        ∀ call xt₁ body, Token.decode xt₁ = .call body → EndsOnZero hooks call m₁ xt₁ body := by
  have hip := ip_lastState_execute (endsWell_interpreter hhooks N) (hhooks.sys N) (hhooks.refill N)
    n xt m
  refine ⟨hip, neverExits_execute n xt m, fun m₁ hm₁ => ⟨fun hzero N₁ n₁ => ?_, ?_⟩⟩
  · exact staysIdle_interpretSource hhooks hzero N₁ n₁ m₁ (hm₁.trans hip)
  · exact fun call xt₁ body hxt₁ => endsOnZero_of_ip_eq_zero (hm₁.trans hip) hxt₁

/-- A machine with a word for five and one that has the host execute the token of five. -/
def servedMachine : Machine Batch :=
  lastState (interpretLine fullHost 20 (Text.encode ": v 5 ; : w 42 7 sys 9 ;")
    (ofConfig ⟨4, 4, 128⟩ {}))

/-- The machine after the second word was executed. -/
def servedEnd : Machine Batch :=
  lastState (execute fullHost (interpreter fullHost 20) 20 108 servedMachine)

/-- The second word fails: the host already runs its code to the end, and what it goes on with at zero is no
code. Then the first word is called with zero for the way back, and it leaves five. -/
theorem execute_ends_at_zero_servedMachine :
    fullHost.NeverExit ∧ fullHost.KeepsZero ∧
      error? (execute fullHost (interpreter fullHost 20) 20 108 servedMachine) =
        some (.error .stackOverflow) ∧
      servedEnd.ip = 0 ∧
      (∀ returns, servedEnd.reset.returns.push? 0 = some returns →
        runToken fullHost (interpreter fullHost 20) 20 100 servedEnd.reset =
          .ok () { servedEnd.reset with returns, ip := 100 }) ∧
      (lastState (execute fullHost (interpreter fullHost 20) 20 100
        servedEnd.reset)).data.cells = [5] := by
  have hfacts : error? (execute fullHost (interpreter fullHost 20) 20 108 servedMachine) =
        some (.error .stackOverflow) ∧
      servedEnd.reset.ip = 0 ∧ Token.decode 100 = .call 100 ∧
      (lastState (execute fullHost (interpreter fullHost 20) 20 100
        servedEnd.reset)).data.cells = [5] := by
    decide +kernel
  obtain ⟨herror, hreset, hdecode, hfive⟩ := hfacts
  obtain ⟨hip, -, hcalls⟩ :=
    execute_ends_at_zero neverExit_fullHost 20 20 108 servedMachine
  have hcall := (hcalls servedEnd.reset (hreset.trans hip.symm)).2 (interpreter fullHost 20) 100 100 hdecode
  exact ⟨neverExit_fullHost, keepsZero_fullHost, herror, hip,
    fun returns hpush => hcall.enters returns hpush 20, hfive⟩

end Machine

end ThreadedForth
