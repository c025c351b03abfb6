import ThreadedForth.Machine.Interpreter
import ThreadedForth.Proofs.Program

/-!
# The bound on the work

The interpreter is given a bound on how deep runs are nested and how long each goes on. The bound is
no part of what a program means: with more of it a program ends as it did with less, unless the
smaller one was used up (`below_interpreter`). So a result that is reached with some bound is the
result (`EndsIn.eq`).

The host is taken to treat its requests as the machine itself does: it can not tell what became of a
request that was not answered (`Hooks.Steady`).
-/

set_option autoImplicit false

namespace ThreadedForth

namespace Machine

variable {H α β : Type}

/-- The second program ends as the first one does, unless that one runs out of steps. -/
def Below (x y : MachineM H α) : Prop :=
  ∀ m, (∃ m', x m = .error .outOfFuel m') ∨ y m = x m

namespace Below

variable {x y : MachineM H α}

theorem refl (x : MachineM H α) : Below x x := fun _ => Or.inr rfl

theorem outOfFuel (y : MachineM H α) : Below (throw .outOfFuel) y := fun m => Or.inl ⟨m, rfl⟩

theorem bind {f g : α → MachineM H β} (hx : Below x y) (hf : ∀ a, Below (f a) (g a)) :
    Below (x >>= f) (y >>= g) := by
  intro m
  rcases hx m with ⟨m', hm⟩ | heq
  · exact Or.inl ⟨m', bind_eq_of_error hm f⟩
  · cases hm : x m with
    | ok a m1 =>
        rw [bind_eq_of_ok (heq.trans hm), bind_eq_of_ok hm]
        exact hf a m1
    | error stop m1 =>
        right
        rw [bind_eq_of_error (heq.trans hm), bind_eq_of_error hm]

/-- A program that goes on in the same way after both. -/
theorem andThen (hx : Below x y) (f : α → MachineM H β) : Below (x >>= f) (y >>= f) :=
  hx.bind fun a => .refl (f a)

theorem withIp {x y : MachineM H Unit} (hx : Below x y) (ip : Addr) :
    Below (withIp ip x) (withIp ip y) := by
  intro m
  unfold Machine.withIp
  rcases hx { m with ip } with ⟨m', hm⟩ | heq
  · left
    exact ⟨{ m' with ip := m.ip }, by rw [hm]⟩
  · right
    rw [heq]

/-- A result that did not run out of steps is the result of both. -/
theorem eq_of_eq {r : EStateM.Result Stop (Machine H) α} {m : Machine H} (hx : Below x y)
    (hm : x m = r) (hr : ∀ m', r ≠ .error .outOfFuel m') : y m = r := by
  rcases hx m with ⟨m', hout⟩ | heq
  · exact absurd (hm.symm.trans hout) (hr m')
  · exact heq.trans hm

end Below

/-- The second interpreter answers every request that the first one answers, as that one does. -/
def Answers (call call' : Interpreter H) : Prop := ∀ request, Below (call request) (call' request)

end Machine

open Machine

/-- What the host does with a request depends on its answer alone. -/
structure Hooks.Steady {H : Type} (hooks : Hooks H) : Prop where
  sys {call call' : Interpreter H} (h : Answers call call') (selector : Cell) :
    Below (hooks.sys call selector) (hooks.sys call' selector)
  refill {call call' : Interpreter H} (h : Answers call call') :
    Below (hooks.refill call) (hooks.refill call')
  unknownWord {call call' : Interpreter H} (h : Answers call call')
    {f : Interpreter H → Span → MachineM H Unit} (hf : hooks.unknownWord? = some f) (name : Span) :
    Below (f call name) (f call' name)

/-- A host that says nothing does so whatever the interpreter answers. -/
theorem Hooks.steady_default {H : Type} : ({} : Hooks H).Steady where
  sys _ _ := .refl _
  refill _ := .refl _
  unknownWord _ _ hf := by cases hf

namespace Machine

variable {H : Type} {hooks : Hooks H} {call call' : Interpreter H} {n n' : Nat}

/-! ## Tokens -/

theorem below_awaitWord (hs : hooks.Steady) (hcall : Answers call call') (hn : n ≤ n') :
    Below (awaitWord hooks call n) (awaitWord hooks call' n') := by
  -- on the smaller bound: where that is used up, nothing is left to show
  induction n generalizing n' with
  | zero => exact .outOfFuel _
  | succ n ih =>
      obtain ⟨k, rfl⟩ : ∃ k, n' = k + 1 := ⟨n' - 1, by omega⟩
      rw [awaitWord, awaitWord]
      refine .bind (.refl _) fun hasInput => ?_
      cases hasInput with
      | true => exact .refl _
      | false => exact .bind (hs.refill hcall) fun _ => ih (by omega)

theorem below_colon (hs : hooks.Steady) (hcall : Answers call call') (hn : n ≤ n') :
    Below (colon hooks call n) (colon hooks call' n') := by
  refine .bind (.refl _) fun entry => .bind (.refl _) fun _ => .bind (.refl _) fun _ => ?_
  exact (below_awaitWord hs hcall hn).andThen _

/-- The primitives that ask the host or the interpreter, and those that do not. -/
theorem below_perform (hs : hooks.Steady) (hcall : Answers call call') (hn : n ≤ n')
    (p : Primitive) : Below (perform hooks call n p) (perform hooks call' n' p) := by
  cases p with
  | sys => exact .bind (.refl _) fun selector => (hs.sys hcall selector).andThen _
  | colon => exact (below_colon hs hcall hn).andThen _
  | tick => exact (below_awaitWord hs hcall hn).andThen _
  | execute => exact .bind (.refl _) fun xt => (hcall _).andThen _
  | refill => exact (hs.refill hcall).andThen _
  | evaluate => exact ((hcall _).withIp 0).andThen _
  | _ => exact .refl _

theorem below_runToken (hs : hooks.Steady) (hcall : Answers call call') (hn : n ≤ n') (xt : Addr) :
    Below (runToken hooks call n xt) (runToken hooks call' n' xt) := by
  unfold runToken
  cases Token.decode xt with
  | primitive p => exact (below_perform hs hcall hn p).andThen _
  | literal v => exact .refl _
  | call body => exact .refl _

/-! ## Code and text -/

theorem below_runCode (hs : hooks.Steady) (hcall : Answers call call') (hn : n ≤ n') :
    Below (runCode hooks call n) (runCode hooks call' n') := by
  induction n generalizing n' with
  | zero => exact .outOfFuel _
  | succ n ih =>
      obtain ⟨k, rfl⟩ : ∃ k, n' = k + 1 := ⟨n' - 1, by omega⟩
      rw [runCode, runCode]
      refine .bind (.refl _) fun xt => ?_
      exact .bind (below_runToken hs hcall (by omega) xt) fun _ => ih (by omega)

theorem below_runFrom (hs : hooks.Steady) (hcall : Answers call call') (hn : n ≤ n') (xt : Addr) :
    Below (runFrom hooks call n xt) (runFrom hooks call' n' xt) := by
  refine .bind (below_runToken hs hcall hn xt) fun _ => .bind (.refl _) fun m => ?_
  split
  · exact .refl _
  · exact below_runCode hs hcall hn

theorem below_execute (hs : hooks.Steady) (hcall : Answers call call') (hn : n ≤ n') (xt : Addr) :
    Below (execute hooks call n xt) (execute hooks call' n' xt) := by
  intro m
  unfold execute
  rcases below_runFrom hs hcall hn xt m with ⟨m', hm⟩ | heq
  · left
    exact ⟨{ m' with ip := 0 }, by rw [hm]⟩
  · right
    rw [heq]

theorem below_interpretWord (hs : hooks.Steady) (hcall : Answers call call') (hn : n ≤ n')
    (name : Span) :
    Below (interpretWord hooks call n name) (interpretWord hooks call' n' name) := by
  refine .bind (.refl _) fun meaning => ?_
  cases meaning with
  | known xt immediate =>
      refine .bind (.refl _) fun compiling => ?_
      split
      · exact .refl _
      · exact below_execute hs hcall hn xt
  | endless => exact .refl _
  | unknown =>
      refine .bind (.refl _) fun read => ?_
      cases read with
      | some v => exact .refl _
      | none =>
          cases hword : hooks.unknownWord? with
          | none => exact .refl _
          | some f => exact hs.unknownWord hcall hword name

theorem below_interpretSource (hs : hooks.Steady) (hcall : Answers call call') (hn : n ≤ n') :
    Below (interpretSource hooks call n) (interpretSource hooks call' n') := by
  induction n generalizing n' with
  | zero => exact .outOfFuel _
  | succ n ih =>
      obtain ⟨k, rfl⟩ : ∃ k, n' = k + 1 := ⟨n' - 1, by omega⟩
      rw [interpretSource, interpretSource]
      refine .bind (.refl _) fun hasInput => ?_
      split
      · refine .bind (.refl _) fun name => ?_
        exact .bind (below_interpretWord hs hcall (by omega) name) fun _ => ih (by omega)
      · exact .refl _

theorem below_answer (hs : hooks.Steady) (hcall : Answers call call') (hn : n ≤ n') :
    Answers (answer hooks call n) (answer hooks call' n') := by
  intro request
  cases request with
  | run xt => exact below_runToken hs hcall hn xt
  | execute xt => exact below_execute hs hcall hn xt
  | interpretSource => exact below_interpretSource hs hcall hn
  | interpretWord name => exact below_interpretWord hs hcall hn name
  | refill => exact hs.refill hcall
  | sys selector => exact hs.sys hcall selector

/-- With a larger bound every request is answered as with a smaller one. -/
theorem below_interpreter (hs : hooks.Steady) (hn : n ≤ n') :
    Answers (interpreter hooks n) (interpreter hooks n') := by
  induction n generalizing n' with
  | zero => exact fun _ => .outOfFuel _
  | succ n ih =>
      obtain ⟨k, rfl⟩ : ∃ k, n' = k + 1 := ⟨n' - 1, by omega⟩
      rw [interpreter, interpreter]
      -- the requests that come up meanwhile are answered with one level less
      exact below_answer hs (ih (by omega)) (by omega)

/-! ## Results -/

/-- A program with a bound on the nesting and one on its own steps, which ends as before with larger
ones. -/
def Growing (x : Nat → Nat → MachineM H Unit) : Prop :=
  ∀ {N N' n n' : Nat}, N ≤ N' → n ≤ n' → Below (x N n) (x N' n')

/-- With some bounds the program ends with the result, and not because they were used up. -/
def EndsIn (x : Nat → Nat → MachineM H Unit) (m : Machine H)
    (r : EStateM.Result Stop (Machine H) Unit) : Prop :=
  (∀ m', r ≠ .error .outOfFuel m') ∧ ∃ N n, x N n m = r

namespace EndsIn

variable {x y : Nat → Nat → MachineM H Unit} {m m' : Machine H}
  {r r' : EStateM.Result Stop (Machine H) Unit}

/-- The result is that of all larger bounds. -/
theorem exists_forall (hx : Growing x) (h : EndsIn x m r) :
    ∃ k, ∀ N n, k ≤ N → k ≤ n → x N n m = r := by
  rcases h with ⟨hfuel, N, n, hr⟩
  refine ⟨max N n, fun N' n' hN hn => ?_⟩
  exact (hx (by omega) (by omega)).eq_of_eq hr hfuel

theorem eq (hx : Growing x) (h : EndsIn x m r) (h' : EndsIn x m r') : r = r' := by
  rcases h.exists_forall hx with ⟨k, hk⟩
  rcases h'.exists_forall hx with ⟨k', hk'⟩
  calc r = x (max k k') (max k k') m := (hk _ _ (by omega) (by omega)).symm
    _ = r' := hk' _ _ (by omega) (by omega)

/-- Two programs that do the same with some bounds as large as you like end with the same. -/
theorem iff_of_forall (hx : Growing x) (hy : Growing y)
    (h : ∀ k, ∃ N n N' n', k ≤ min N n ∧ k ≤ min N' n' ∧ x N n m = y N' n' m') :
    EndsIn x m r ↔ EndsIn y m' r := by
  constructor
  · intro hends
    rcases hends.exists_forall hx with ⟨k, hk⟩
    rcases h k with ⟨N, n, N', n', hle, -, heq⟩
    exact ⟨hends.1, N', n', heq ▸ hk N n (by omega) (by omega)⟩
  · intro hends
    rcases hends.exists_forall hy with ⟨k, hk⟩
    rcases h k with ⟨N, n, N', n', -, hle, heq⟩
    exact ⟨hends.1, N, n, heq.trans (hk N' n' (by omega) (by omega))⟩

end EndsIn

/-- Two programs that end alike with the same bounds. -/
theorem EndsIn.exists_of_coupled {x x' : Nat → Nat → MachineM H Unit} {m m' : Machine H}
    {r : EStateM.Result Stop (Machine H) Unit} {R E : Machine H → Machine H → Prop} (hx : Growing x)
    (h : ∀ N n, Coupled R E (x N (n + 1) m) (x' N (n + 1) m')) (hr : EndsIn x m r) :
    ∃ r', EndsIn x' m' r' ∧ Coupled R E r r' := by
  obtain ⟨k, hk⟩ := hr.exists_forall hx
  have hboth := h k k
  rw [hk k (k + 1) (by omega) (by omega)] at hboth
  refine ⟨_, ⟨?_, k, k + 1, rfl⟩, hboth⟩
  intro m1 hout
  rw [hout] at hboth
  cases hboth
  exact hr.1 _ rfl

/-! ## Programs one after the other -/

section Sequence

variable {x x' y y' : Nat → Nat → MachineM H Unit} {m m' : Machine H}
  {r : EStateM.Result Stop (Machine H) Unit}

theorem Growing.bind (hx : Growing x) (hy : Growing y) :
    Growing fun N n => x N n >>= fun _ => y N n :=
  fun hN hn => (hx hN hn).bind fun _ => hy hN hn

/-- Two programs one after the other end as the second one does, or as the first one if that fails. -/
theorem EndsIn.bind_iff (hx : Growing x) (hy : Growing y) :
    EndsIn (fun N n => x N n >>= fun _ => y N n) m r ↔
      (∃ m1, EndsIn x m (.ok () m1) ∧ EndsIn y m1 r) ∨
        ∃ stop m1, EndsIn x m (.error stop m1) ∧ r = .error stop m1 := by
  constructor
  · rintro ⟨hfuel, N, n, h⟩
    change (x N n >>= fun _ => y N n) m = r at h
    cases hm : x N n m with
    | ok u m1 =>
        rw [bind_eq_of_ok hm] at h
        exact .inl ⟨m1, ⟨fun _ => by simp, N, n, hm⟩, hfuel, N, n, h⟩
    | error stop m1 =>
        rw [bind_eq_of_error hm] at h
        exact .inr ⟨stop, m1, ⟨h ▸ hfuel, N, n, hm⟩, h.symm⟩
  · rintro (⟨m1, hfirst, hsecond⟩ | ⟨stop, m1, hfirst, rfl⟩)
    · obtain ⟨k, hk⟩ := hfirst.exists_forall hx
      obtain ⟨k', hk'⟩ := hsecond.exists_forall hy
      refine ⟨hsecond.1, max k k', max k k', ?_⟩
      exact (bind_eq_of_ok (hk _ _ (by omega) (by omega)) _).trans (hk' _ _ (by omega) (by omega))
    · obtain ⟨hfuel, N, n, hm⟩ := hfirst
      exact ⟨hfuel, N, n, bind_eq_of_error hm _⟩

/-- Two programs one after the other succeed if both do. -/
theorem EndsIn.bind_ok_iff (hx : Growing x) (hy : Growing y) :
    EndsIn (fun N n => x N n >>= fun _ => y N n) m (.ok () m') ↔
      ∃ m1, EndsIn x m (.ok () m1) ∧ EndsIn y m1 (.ok () m') := by
  refine (bind_iff hx hy).trans ⟨?_, .inl⟩
  rintro (h | ⟨stop, m1, -, heq⟩)
  · exact h
  · cases heq

/-- What comes after two programs that end alike ends alike. -/
theorem EndsIn.bind_congr (hx : Growing x) (hx' : Growing x') (hy : Growing y)
    (h : ∀ r, EndsIn x m r ↔ EndsIn x' m' r) :
    EndsIn (fun N n => x N n >>= fun _ => y N n) m r ↔
      EndsIn (fun N n => x' N n >>= fun _ => y N n) m' r := by
  rw [bind_iff hx hy, bind_iff hx' hy]
  simp only [h]

/-- Programs whose first parts end alike, and whose second parts do so where the first parts succeed. -/
theorem EndsIn.exists_bind_of_coupled {R S E : Machine H → Machine H → Prop} (hx : Growing x)
    (hx' : Growing x') (hy : Growing y) (hy' : Growing y')
    (hfirst : ∀ N n, Coupled R E (x N (n + 1) m) (x' N (n + 1) m'))
    (hsecond : ∀ m1 m1', R m1 m1' → EndsIn y m1 r → ∃ r', EndsIn y' m1' r' ∧ Coupled S E r r')
    (h : EndsIn (fun N n => x N n >>= fun _ => y N n) m r) :
    ∃ r', EndsIn (fun N n => x' N n >>= fun _ => y' N n) m' r' ∧ Coupled S E r r' := by
  rcases (bind_iff hx hy).1 h with ⟨m1, hm1, hr⟩ | ⟨stop, m1, hm1, rfl⟩
  · obtain ⟨r1, hr1, hcoupled⟩ := hm1.exists_of_coupled hx hfirst
    cases hcoupled with
    | @ok _ _ m1' hboth =>
        obtain ⟨r', hr', hend⟩ := hsecond m1 m1' hboth hr
        exact ⟨r', (bind_iff hx' hy').2 (.inl ⟨m1', hr1, hr'⟩), hend⟩
  · obtain ⟨r1, hr1, hcoupled⟩ := hm1.exists_of_coupled hx hfirst
    cases hcoupled with
    | @error _ _ m1' hboth =>
        exact ⟨.error stop m1', (bind_iff hx' hy').2 (.inr ⟨stop, m1', hr1, rfl⟩), .error hboth⟩

end Sequence

/-! ## Words and the text -/

/-- The text that is interpreted in a machine. -/
def source (hooks : Hooks H) (N n : Nat) : MachineM H Unit :=
  interpretSource hooks (interpreter hooks N) n

/-- A word that was read. -/
def spelled (hooks : Hooks H) (name : Span) (N n : Nat) : MachineM H Unit :=
  interpretWord hooks (interpreter hooks N) n name

theorem growing_source (hs : hooks.Steady) : Growing (source hooks) :=
  fun hN hn => below_interpretSource hs (below_interpreter hs hN) hn

theorem growing_spelled (hs : hooks.Steady) (name : Span) : Growing (spelled hooks name) :=
  fun hN hn => below_interpretWord hs (below_interpreter hs hN) hn name

/-- The machine after the next word was read. -/
def afterWord (m : Machine H) : Machine H := { m with dictionary := m.dictionary.nextWord.2 }

theorem source_succ {m : Machine H} {N n : Nat} (h : m.dictionary.hasInput = true) :
    source hooks N (n + 1) m =
      (spelled hooks m.dictionary.nextWord.1 N n >>= fun _ => source hooks N n) m.afterWord := by
  change (if m.dictionary.hasInput then _ else _ : MachineM H Unit) m = _
  rw [if_pos h]
  rfl

end Machine

end ThreadedForth
