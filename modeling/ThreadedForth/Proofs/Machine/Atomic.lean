import ThreadedForth.Proofs.Dictionary.Stuck
import ThreadedForth.Proofs.Machine.Semicolon

/-!
# Failures of the stacks

A primitive that finds a stack full or without the cells it needs should leave both stacks as they
were. It does so because it takes all its cells at once and pushes no more than it took: a program that
took `n` cells (`StackM.Takes`) does not fail for want of room before it has pushed as many
(`StackM.Fits`, `Machine.Fits`).

One primitive takes a cell from one stack and pushes it on the other. Where there is no room for it,
the cell is lost (`stacks_of_perform_eq_error`).
-/

set_option autoImplicit false

namespace ThreadedForth

/-- The error says that a stack is full or that it lacks a cell. -/
def Error.isOfStack : Error → Bool
  | stackOverflow | stackUnderflow | returnStackOverflow | returnStackUnderflow => true
  | _ => false

/-- The primitive leads to the host or runs other code. -/
def Primitive.leadsOut : Primitive → Bool
  | sys | colon | tick | execute | refill | evaluate => true
  | _ => false

/-! ## Programs of the data stack -/

namespace StackM

variable {α β : Type} {n k : Nat} {x : StackM α} {f : α → StackM β}

/-- Where the program fails for the stack, the stack is as it was. -/
def Atomic (x : StackM α) : Prop :=
  ∀ s e s', x s = .error e s' → e.isOfStack = true → s' = s

/-- With room for `n` cells the program does not fail for the stack. -/
def Fits (n : Nat) (x : StackM α) : Prop :=
  ∀ s e s', s.depth + n ≤ s.capacity → x s = .error e s' → e.isOfStack = false

/-- The program leaves room for `n` cells. -/
structure Takes (n : Nat) (x : StackM α) : Prop where
  atomic : Atomic x
  room : ∀ s a s', x s = .ok a s' → s'.depth + n ≤ s'.capacity

/-- The program looks at the stack and does not change it. -/
def Looks (x : StackM α) : Prop := Relates (fun s t : Stack => t = s) x

theorem Looks.bind (hx : Looks x) (hf : ∀ a, Atomic (f a)) : Atomic (x >>= f) := by
  intro s e s' h he
  rcases of_bind_eq_error h with hfail | ⟨a, t, hok, hrest⟩
  · exact hx.of_eq_error hfail
  · obtain rfl : t = s := hx.of_eq_ok hok
    exact hf a t e s' hrest he

/-- A program that goes on in the room that it made fails before it changed anything, or not for the
stack. -/
theorem Takes.bind (hx : Takes n x) (hf : ∀ a, Fits n (f a)) : Atomic (x >>= f) := by
  intro s e s' h he
  rcases of_bind_eq_error h with hfail | ⟨a, t, hok, hrest⟩
  · exact hx.atomic s e s' hfail he
  · have hno := hf a t e s' (hx.room s a t hok) hrest
    rw [hno] at he
    cases he

theorem atomic_push (v : Cell) : Atomic (push v) := by
  intro s e s' h _
  unfold push at h
  split at h
  · cases h
  · cases h
    rfl

theorem atomic_setTop (v : Cell) : Atomic (setTop v) := by
  intro s e s' h _
  unfold setTop at h
  split at h
  · cases h
  · cases h
    rfl

theorem looks_pick (k : Nat) : Looks (pick k) := by
  intro s
  unfold pick
  split <;> rfl

/-- A program that drops `n` cells, or finds too few of them and drops none. -/
theorem takes_of_drop (h : ∀ s, (∃ a, n ≤ s.cells.length ∧ x s = .ok a (s.drop n)) ∨
    ∃ e, x s = .error e s) : Takes n x := by
  constructor
  · intro s e s' hrun _
    rcases h s with ⟨a, -, hok⟩ | ⟨e', herror⟩
    · rw [hok] at hrun
      cases hrun
    · rw [herror] at hrun
      cases hrun
      rfl
  · intro s a s' hrun
    rcases h s with ⟨a', hn, hok⟩ | ⟨e', herror⟩
    · rw [hok] at hrun
      cases hrun
      have hle := s.depth_le
      rw [← s.depth_eq] at hn
      show s.depth - n + n ≤ s.capacity
      omega
    · rw [herror] at hrun
      cases hrun

theorem takes_pop : Takes 1 pop := by
  refine takes_of_drop fun s => ?_
  rcases s with ⟨capacity, _ | ⟨v, vs⟩, depth, hdepth, hle⟩
  · exact .inr ⟨_, rfl⟩
  · exact .inl ⟨v, Nat.le_add_left 1 vs.length, rfl⟩

theorem takes_pop2 : Takes 2 pop2 := by
  refine takes_of_drop fun s => ?_
  unfold pop2
  split
  · rename_i hcells
    exact .inl ⟨_, by simp [hcells], rfl⟩
  · exact .inr ⟨_, rfl⟩

theorem takes_pop3 : Takes 3 pop3 := by
  refine takes_of_drop fun s => ?_
  unfold pop3
  split
  · rename_i hcells
    exact .inl ⟨_, by simp [hcells], rfl⟩
  · exact .inr ⟨_, rfl⟩

theorem takes_pop4 : Takes 4 pop4 := by
  refine takes_of_drop fun s => ?_
  unfold pop4
  split
  · rename_i hcells
    exact .inl ⟨_, by simp [hcells], rfl⟩
  · exact .inr ⟨_, rfl⟩

theorem Fits.mono (hx : Fits n x) (h : n ≤ k) : Fits k x :=
  fun s e s' hroom hrun => hx s e s' (by omega) hrun

theorem fits_push (v : Cell) : Fits 1 (push v) := by
  intro s e s' hroom h
  obtain ⟨t, hpush, -⟩ := s.exists_push? v (by omega)
  unfold push at h
  rw [hpush] at h
  cases h

/-- Two pushes need room for two cells. -/
theorem fits_push_push (v w : Cell) : Fits 2 (push v >>= fun _ => push w) := by
  intro s e s' hroom h
  obtain ⟨t, hpush, hdepth, hcapacity⟩ := s.exists_push? v (by omega)
  have hrun : push v s = .ok () t := by
    unfold push
    rw [hpush]
  rw [bind_eq_of_ok hrun] at h
  exact fits_push w t e s' (by omega) h

theorem atomic_binary (g : Cell → Cell → Cell) : Atomic (binary g) :=
  takes_pop2.bind fun _ => (fits_push _).mono (by decide)

theorem atomic_divide {g : DoubleCell → Cell → StackM Unit} (hg : ∀ d v, Fits 3 (g d v)) :
    Atomic (Operator.divide g) := by
  refine takes_pop3.bind fun p => ?_
  dsimp only
  split
  · -- to divide by zero is no failure of the stack
    intro s e s' _ h
    cases h
    rfl
  · exact hg _ _

/-- An operator that fails for the stack leaves it as it was. -/
theorem atomic_apply (op : Operator) : Atomic op.apply := by
  cases op with
  | drop => exact takes_pop.bind fun _ s e s' _ h => nomatch h
  | dup => exact (looks_pick 0).bind fun v => atomic_push v
  | swap => exact takes_pop2.bind fun _ => fits_push_push _ _
  | pick => exact (looks_pick 0).bind fun n => (looks_pick _).bind fun v => atomic_setTop v
  | mul => exact takes_pop2.bind fun _ => fits_push_push _ _
  | div => exact atomic_divide fun _ _ => (fits_push _).mono (by decide)
  | mod => exact atomic_divide fun _ _ => (fits_push _).mono (by decide)
  | depth => exact fun s => atomic_push _ s
  | mulAdd => exact takes_pop4.bind fun _ => (fits_push_push _ _).mono (by decide)
  | unsignedDivMod =>
      unfold Operator.apply
      exact atomic_divide fun _ _ => (fits_push_push _ _).mono (by decide)
  | equal => exact atomic_binary fun a b => flag (a == b)
  | less => exact atomic_binary fun a b => flag (a < b)
  | unsignedLess => exact atomic_binary fun a b => flag (a.toUInt16 < b.toUInt16)
  | _ => exact atomic_binary _

end StackM

/-! ## Programs of the machine -/

namespace Machine

variable {H α β : Type} {n : Nat} {m m' : Machine H} {e : Error}

/-- Where the program fails for a stack, both stacks are as they were. -/
def Atomic (x : MachineM H α) : Prop :=
  ∀ m e m', x m = .error (.error e) m' → e.isOfStack = true →
    m'.data = m.data ∧ m'.returns = m.returns

/-- With room for `n` cells on the data stack the program does not fail for a stack. -/
def Fits (n : Nat) (x : MachineM H α) : Prop :=
  ∀ m e m', m.data.depth + n ≤ m.data.capacity → x m = .error (.error e) m' →
    e.isOfStack = false

variable {x : MachineM H α} {f : α → MachineM H β}

/-- A program that goes on with what needs no room fails where its first part does. -/
theorem Atomic.bind (hx : Atomic x) (hf : ∀ a, Fits 0 (f a)) : Atomic (x >>= f) := by
  intro m e m' h he
  rcases of_bind_eq_error h with hx' | ⟨a, t, hx', hf'⟩
  · exact hx m e m' hx' he
  · have hno := hf a t e m' t.data.depth_le hf'
    rw [hno] at he
    cases he

theorem Fits.bind (hx : Fits n x) (hf : ∀ a, Fits 0 (f a)) : Fits n (x >>= f) := by
  intro m e m' hroom h
  rcases of_bind_eq_error h with hx' | ⟨a, t, hx', hf'⟩
  · exact hx m e m' hroom hx'
  · exact hf a t e m' t.data.depth_le hf'

theorem fits_getDictionary_bind {g : Dictionary → α} (hf : ∀ a, Fits n (f a)) :
    Fits n (getDictionary g >>= f) :=
  fun m e m' hroom h => hf (g m.dictionary) m e m' hroom h

theorem fits_pure (a : α) : Fits 0 (pure a : MachineM H α) := fun _ _ _ _ h => nomatch h

theorem atomic_onData {y : StackM α} (hy : y.Atomic) : Atomic (onData y : MachineM H α) := by
  rintro ⟨d, s, returns, ip, host⟩ e m' h he
  simp only [onData] at h
  split at h
  · cases h
  · rename_i e' s' hrun
    cases h
    exact ⟨hy s e s' hrun he, rfl⟩

theorem fits_onData {y : StackM α} (hy : y.Fits n) : Fits n (onData y : MachineM H α) := by
  rintro ⟨d, s, returns, ip, host⟩ e m' hroom h
  simp only [onData] at h
  split at h
  · cases h
  · rename_i e' s' hrun
    cases h
    exact hy s e s' hroom hrun

/-- A program that goes on in the room that it made fails before it changed a stack, or for another
reason. -/
theorem atomic_onData_bind {y : StackM α} (hy : y.Takes n) (hf : ∀ a, Fits n (f a)) :
    Atomic (onData y >>= f) := by
  rintro ⟨d, s, returns, ip, host⟩ e m' h he
  rcases of_bind_eq_error h with hfail | ⟨a, t, hok, hf'⟩
  · exact atomic_onData hy.atomic _ e m' hfail he
  · simp only [onData] at hok
    split at hok
    · rename_i a' s' hrun
      cases hok
      have hno := hf a _ e m' (hy.room s a s' hrun) hf'
      rw [hno] at he
      cases he
    · cases hok

theorem fits_onDictionary {y : DictionaryM α}
    (hy : ∀ d e d', y d = .error e d' → e.isOfStack = false) :
    Fits n (onDictionary y : MachineM H α) := by
  rintro ⟨d, s, returns, ip, host⟩ e m' - h
  simp only [onDictionary] at h
  split at h
  · cases h
  · rename_i e' d' hrun
    cases h
    exact hy d e d' hrun

/-! ## Primitives -/

theorem atomic_popReturn : Atomic (popReturn : MachineM H Cell) := by
  intro m e m' h _
  unfold popReturn at h
  split at h
  · cases h
  · cases h
    exact ⟨rfl, rfl⟩

theorem fits_push_push (v w : Cell) : Fits 2 (push v >>= fun _ => push w : MachineM H Unit) := by
  have honData : (push v >>= fun _ => push w : MachineM H Unit) =
      onData (StackM.push v >>= fun _ => StackM.push w) := by
    funext m
    show EStateM.bind (push v) (fun _ => push w) m = _
    unfold push onData
    simp only [EStateM.bind, bind]
    cases StackM.push v m.data <;> rfl
  rw [honData]
  exact fits_onData (StackM.fits_push_push v w)

theorem fits_pushMeaning (name : Span) : Fits 2 (pushMeaning name : MachineM H Unit) := by
  refine fits_getDictionary_bind fun meaning => ?_
  cases meaning with
  | known xt immediate => exact fits_push_push _ _
  | unknown => exact fits_push_push _ _
  | endless => exact fun m e m' _ h => nomatch h

theorem atomic_fetch : Atomic (fetch : MachineM H Unit) :=
  atomic_onData_bind StackM.takes_pop2 fun _ =>
    fits_getDictionary_bind fun _ => fits_onData ((StackM.fits_push _).mono (by decide))

theorem fits_modifyDictionary (g : Dictionary → Dictionary) :
    Fits n (modifyDictionary g : MachineM H Unit) := fun _ _ _ _ h => nomatch h

theorem atomic_store : Atomic (store : MachineM H Unit) := by
  refine atomic_onData_bind StackM.takes_pop3 fun p => ?_
  dsimp only
  split
  · exact fits_modifyDictionary _
  · split
    · -- the dictionary is full, if anything
      refine fits_onDictionary fun d e d' h => ?_
      rcases of_bind_eq_error h with hallot | ⟨a, d1, -, hpure⟩
      · rw [(Dictionary.of_allot_eq_error hallot).1]
        rfl
      · cases hpure
    · exact fits_modifyDictionary _

theorem atomic_semicolon : Atomic (semicolon : MachineM H Unit) := by
  intro m e m' h he
  rcases semicolon_cases m with ⟨e', hfails, -⟩ | ⟨v, data, -, -, -, hfails⟩ |
    ⟨v, data, d, -, -, -, -, hok⟩
  · rw [hfails] at h
    cases h
    exact ⟨rfl, rfl⟩
  · rw [hfails] at h
    cases h
    cases he
  · rw [hok] at h
    cases h

variable {hooks : Hooks H} {call : Interpreter H} {p : Primitive}

/-- A primitive that fails does so before the machine moves on. -/
theorem runToken_of_perform_eq_error {stop : Stop} (h : perform hooks call n p m = .error stop m') :
    runToken hooks call n p.token m = .error stop m' := by
  unfold runToken
  rw [decode_token]
  exact bind_eq_of_error h _

theorem atomic_toReturn : Atomic (perform hooks call n .toReturn) := by
  rintro ⟨d, s, returns, ip, host⟩ e m' h -
  have hrun := runToken_of_perform_eq_error h
  rw [runToken_toReturn] at hrun
  split at hrun
  · split at hrun
    · cases hrun
    · cases hrun
      exact ⟨rfl, rfl⟩
  · cases hrun
    exact ⟨rfl, rfl⟩

theorem atomic_literal : Atomic (perform hooks call n .literal) := by
  rintro ⟨d, s, returns, ip, host⟩ e m' h -
  have hrun := runToken_of_perform_eq_error h
  rw [runToken_literal] at hrun
  split at hrun
  · cases hrun
  · cases hrun
    exact ⟨rfl, rfl⟩

theorem atomic_returnDepth : Atomic (perform hooks call n .returnDepth) := by
  rintro ⟨d, s, returns, ip, host⟩ e m' h -
  have hrun := runToken_of_perform_eq_error h
  rw [runToken_returnDepth] at hrun
  split at hrun
  · cases hrun
  · cases hrun
    exact ⟨rfl, rfl⟩

theorem atomic_exit : Atomic (perform hooks call n .exit) := by
  refine atomic_popReturn.bind fun v => ?_
  rintro m e m' - h
  by_cases hv : v.toUInt16 = 0
  · rw [hv] at h
    cases h
  · simp only [if_neg hv] at h
    cases h

theorem atomic_branchIfZero : Atomic (perform hooks call n .branchIfZero) := by
  refine (atomic_onData StackM.takes_pop.atomic).bind fun v => ?_
  rintro m e m' - h
  by_cases hv : v = 0
  · simp only [if_pos hv] at h
    cases h
  · simp only [if_neg hv] at h
    cases h

/-- All primitives that lead nowhere else leave both stacks as they were where they fail for one of
them, except for the one that moves a cell from the return stack. -/
theorem atomic_perform (hp : p.leadsOut = false) (hne : p ≠ .fromReturn) :
    Atomic (perform hooks call n p) := by
  cases p with
  | operator op => exact (atomic_onData (StackM.atomic_apply op)).bind fun _ => fits_pure _
  | literal => exact atomic_literal
  | sys => cases hp
  | fetch => exact atomic_fetch.bind fun _ => fits_pure _
  | store => exact atomic_store.bind fun _ => fits_pure _
  | toReturn => exact atomic_toReturn
  | fromReturn => exact absurd rfl hne
  | colon => cases hp
  | tick => cases hp
  | execute => cases hp
  | exit => exact atomic_exit
  | semicolon => exact atomic_semicolon.bind fun _ => fits_pure _
  | branchIfZero => exact atomic_branchIfZero
  | branch => exact fun m e m' h => nomatch h
  | returnDepth => exact atomic_returnDepth
  | refill => cases hp
  | evaluate => cases hp
  | find =>
      exact atomic_onData_bind StackM.takes_pop2 fun _ =>
        (fits_pushMeaning _).bind fun _ => fits_pure _

/-- The top cell of the return stack is to be moved and the data stack has no room for it. -/
def LosesReturn (p : Primitive) (m : Machine H) : Prop :=
  p = .fromReturn ∧ m.data.depth = m.data.capacity ∧ m.returns.depth ≠ 0

instance (p : Primitive) (m : Machine H) : Decidable (LosesReturn p m) :=
  inferInstanceAs (Decidable (_ ∧ _))

/-- The move from the return stack fails where that stack is empty or the other one full. -/
theorem of_fromReturn_eq_error {stop : Stop}
    (h : perform hooks call n .fromReturn m = .error stop m') :
    m'.data = m.data ∧
      (m.returns.depth = 0 ∧ m'.returns = m.returns ∨
        m.data.depth = m.data.capacity ∧ m.returns.depth ≠ 0 ∧
          m'.returns = m.returns.drop 1) := by
  rcases m with ⟨d, s, returns, ip, host⟩
  have hrun := runToken_of_perform_eq_error h
  rw [runToken_fromReturn] at hrun
  cases hpop : returns.pop? with
  | none =>
      rw [hpop] at hrun
      cases hrun
      exact ⟨rfl, .inl ⟨Stack.pop?_eq_none_iff.1 hpop, rfl⟩⟩
  | some top =>
      obtain ⟨v, returns'⟩ := top
      have hne : returns.depth ≠ 0 := by
        intro h0
        rw [Stack.pop?_eq_none_iff.2 h0] at hpop
        cases hpop
      have hrest : returns' = returns.drop 1 := by
        apply Stack.ext
        · rw [Stack.capacity_drop, Stack.capacity_of_pop? hpop]
        · rw [Stack.cells_drop, Stack.cells_of_pop? hpop]
          rfl
      rw [hpop] at hrun
      cases hpush : s.push? v with
      | none =>
          simp only [hpush] at hrun
          cases hrun
          exact ⟨rfl, .inr ⟨Stack.push?_eq_none_iff.1 hpush, hne, hrest⟩⟩
      | some s' =>
          simp only [hpush] at hrun
          cases hrun

/-- A primitive that leads nowhere else and fails for a stack leaves the data stack as it was, and the
return stack too unless its top cell was to be moved to a full data stack. This cell is lost. -/
theorem stacks_of_perform_eq_error (hp : p.leadsOut = false)
    (h : perform hooks call n p m = .error (.error e) m') (he : e.isOfStack = true) :
    m'.data = m.data ∧ (m'.returns = m.returns ↔ ¬ LosesReturn p m) ∧
      (LosesReturn p m → m'.returns = m.returns.drop 1) := by
  by_cases hfrom : p = .fromReturn
  · subst hfrom
    obtain ⟨hdata, ⟨hempty, hreturns⟩ | ⟨hfull, hne, hreturns⟩⟩ := of_fromReturn_eq_error h
    · have hnot : ¬ LosesReturn .fromReturn m := fun hloses => hloses.2.2 hempty
      exact ⟨hdata, ⟨fun _ => hnot, fun _ => hreturns⟩, fun hloses => absurd hloses hnot⟩
    · have hloses : LosesReturn .fromReturn m := ⟨rfl, hfull, hne⟩
      refine ⟨hdata, ⟨fun hsame => ?_, fun hnot => absurd hloses hnot⟩, fun _ => hreturns⟩
      -- a stack that is not empty is another one without its top cell
      have hdepth : m.returns.depth - 1 = m.returns.depth :=
        congrArg Stack.depth (hreturns.symm.trans hsame)
      omega
  · obtain ⟨hdata, hreturns⟩ := atomic_perform hp hfrom m e m' h he
    have hnot : ¬ LosesReturn p m := fun hloses => hfrom hloses.1
    exact ⟨hdata, ⟨fun _ => hnot, fun _ => hreturns⟩, fun hloses => absurd hloses hnot⟩

/-- A machine with room for one cell on each stack, and a cell there. -/
def brimful : Machine Unit :=
  { ofDictionary (.setUp ⟨.sparse (.zeros 65536)⟩) () ⟨1, 1, 0⟩ with
    data := ⟨1, [7], 1, rfl, Nat.le_refl _⟩
    returns := ⟨1, [5], 1, rfl, Nat.le_refl _⟩ }

/-- The cell of the return stack is lost. The other way round nothing is. -/
theorem stacks_of_perform_brimful :
    (∃ m', perform {} (interpreter {} 0) 0 .fromReturn brimful =
        .error (.error .stackOverflow) m' ∧
        m'.data.cells = [7] ∧ m'.returns.cells = [] ∧ m'.returns ≠ brimful.returns) ∧
      ∃ m', perform {} (interpreter {} 0) 0 .toReturn brimful =
        .error (.error .returnStackOverflow) m' ∧
        m'.data.cells = [7] ∧ m'.returns = brimful.returns := by
  have hfrom : error? (perform {} (interpreter {} 0) 0 .fromReturn brimful) =
      some (.error .stackOverflow) := rfl
  have hto : error? (perform {} (interpreter {} 0) 0 .toReturn brimful) =
      some (.error .returnStackOverflow) := rfl
  constructor
  · obtain ⟨hdata, hsame, hlost⟩ := stacks_of_perform_eq_error (p := .fromReturn) rfl
      (eq_error_lastState hfrom) rfl
    have hloses : LosesReturn .fromReturn brimful := ⟨rfl, rfl, by decide⟩
    refine ⟨_, eq_error_lastState hfrom, congrArg Stack.cells hdata, ?_, ?_⟩
    · rw [hlost hloses]
      rfl
    · exact fun h => hsame.1 h hloses
  · obtain ⟨hdata, hsame, -⟩ := stacks_of_perform_eq_error (p := .toReturn) rfl
      (eq_error_lastState hto) rfl
    exact ⟨_, eq_error_lastState hto, congrArg Stack.cells hdata, hsame.2 (by decide)⟩

end Machine

end ThreadedForth
