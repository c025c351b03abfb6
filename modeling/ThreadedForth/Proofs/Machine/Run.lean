import ThreadedForth.Machine.Interpreter
import ThreadedForth.Proofs.Dictionary.Code
import ThreadedForth.Proofs.Stack

/-!
# Runs of compiled code

`runCode` is granted a number of tokens. A run of the code does not depend on it if it is large
enough, and that is how runs are spoken of here: `Goes m m'` says that code running in `m` comes
to run in `m'`, and `Halts m r` that it stops with the result `r`. Runs are put together by
`Goes.trans` and `Goes.halts` from single tokens (`goes_of_runToken`, `halts_of_runToken`).

Code that works on the data stack alone is described by `Does`: from the address `a` with the
stack `s` it comes to the address `b`, or it fails, as an outcome of a program of the data stack
says. Calls of such code are of the same kind (`does_call`).
-/

set_option autoImplicit false

namespace ThreadedForth

namespace Machine

variable {H : Type} (hooks : Hooks H) (call : Interpreter H)

/-- Code that runs in `m` comes to run in `m'`. -/
def Goes (m m' : Machine H) : Prop :=
  ∃ k, ∀ n, runCode hooks call (n + k) m = runCode hooks call n m'

/-- Code that runs in `m` stops with the result `r`. -/
def Halts (m : Machine H) (r : EStateM.Result Stop (Machine H) Unit) : Prop :=
  ∃ k, ∀ n, runCode hooks call (n + k) m = r

variable {hooks call} {m m' m'' : Machine H}

theorem Goes.refl (m : Machine H) : Goes hooks call m m := ⟨0, fun _ => rfl⟩

theorem Goes.trans (h : Goes hooks call m m') (h' : Goes hooks call m' m'') :
    Goes hooks call m m'' := by
  rcases h with ⟨k, hk⟩
  rcases h' with ⟨k', hk'⟩
  refine ⟨k' + k, fun n => ?_⟩
  calc runCode hooks call (n + (k' + k)) m = runCode hooks call (n + k' + k) m := by
        rw [Nat.add_assoc]
    _ = runCode hooks call (n + k') m' := hk (n + k')
    _ = runCode hooks call n m'' := hk' n

theorem Goes.halts {r : EStateM.Result Stop (Machine H) Unit} (h : Goes hooks call m m')
    (h' : Halts hooks call m' r) : Halts hooks call m r := by
  rcases h with ⟨k, hk⟩
  rcases h' with ⟨k', hk'⟩
  refine ⟨k' + k, fun n => ?_⟩
  calc runCode hooks call (n + (k' + k)) m = runCode hooks call (n + k' + k) m := by
        rw [Nat.add_assoc]
    _ = runCode hooks call (n + k') m' := hk (n + k')
    _ = r := hk' n

/-! ## One token -/

/-- The token that runs next. -/
def nextToken (m : Machine H) : Addr := (m.dictionary.readCell m.ip).toUInt16

theorem nextToken_eq {d : Dictionary} {ip t : Addr} (s returns : Stack) (host : H)
    (h : d.readCell ip = t.toInt16) : nextToken ⟨d, s, returns, ip, host⟩ = t := by
  unfold nextToken
  rw [h, UInt16.toUInt16_toInt16]

theorem runCode_succ (n : Nat) (m : Machine H) :
    runCode hooks call (n + 1) m =
      (runToken hooks call n m.nextToken >>= fun _ => runCode hooks call n) m := rfl

theorem goes_of_runToken (h : ∀ n, runToken hooks call n m.nextToken m = .ok () m') :
    Goes hooks call m m' :=
  ⟨1, fun n => by rw [runCode_succ, bind_eq_of_ok (h n)]⟩

theorem halts_of_runToken {stop : Stop}
    (h : ∀ n, runToken hooks call n m.nextToken m = .error stop m') :
    Halts hooks call m (.error stop m') :=
  ⟨1, fun n => by rw [runCode_succ, bind_eq_of_error (h n)]⟩

/-! ## What single tokens do -/

section Tokens

variable (n : Nat) (d : Dictionary) (s : Stack) (returns : Stack) (ip : Addr) (host : H)

theorem decode_token (p : Primitive) : Token.decode p.token = .primitive p := by
  rw [Token.decode, Primitive.ofToken?_token]

/-- A number that has a token of its own is pushed by it. -/
theorem decode_of_ofLiteral? {v : Cell} {t : Token} (h : Token.ofLiteral? v = some t) :
    Token.decode t.encode = .literal v := by
  rw [Token.ofLiteral?] at h
  split at h
  · rename_i hv
    obtain rfl : Token.literal v = t := Option.some.inj h
    have hall : ∀ k : Fin 59,
        Token.decode (Token.literal (Int16.ofNat k)).encode = .literal (Int16.ofNat k) := by
      decide
    have h0 : 0 ≤ v.toInt := Int16.le_iff_toInt_le.1 hv.1
    have h1 : v.toInt < 59 := Int16.lt_iff_toInt_lt.1 hv.2
    have heq : Int16.ofNat v.toInt.toNat = v := by
      apply Int16.toInt_inj.1
      rw [Int16.toInt_ofNat_of_lt (by omega), Int.toNat_of_nonneg h0]
    have hthis := hall ⟨v.toInt.toNat, by omega⟩
    rw [heq] at hthis
    exact hthis
  · cases h

theorem runToken_operator (op : Operator) :
    runToken hooks call n (Primitive.operator op).token ⟨d, s, returns, ip, host⟩ =
      match op.apply s with
      | .ok _ s' => .ok () ⟨d, s', returns, ip + cellSize, host⟩
      | .error e s' => .error (.error e) ⟨d, s', returns, ip, host⟩ := by
  unfold runToken
  rw [decode_token]
  cases h : op.apply s <;>
    simp only [perform, onData, h, bind, EStateM.bind, pure, EStateM.pure, advance]

theorem runToken_literal :
    runToken hooks call n Primitive.literal.token ⟨d, s, returns, ip, host⟩ =
      match s.push? (d.readCell (ip + cellSize)) with
      | some s' => .ok () ⟨d, s', returns, ip + cellSize + cellSize, host⟩
      | none => .error (.error .stackOverflow) ⟨d, s, returns, ip + cellSize, host⟩ := by
  unfold runToken
  rw [decode_token]
  cases h : s.push? (d.readCell (ip + cellSize)) <;>
    simp only [perform, push, StackM.push, onData, nextCell, h, bind, EStateM.bind, pure,
      EStateM.pure, advance]

/-- A token that stands for a number pushes it. -/
theorem runToken_number {xt : Addr} {v : Cell} (h : Token.decode xt = .literal v) :
    runToken hooks call n xt ⟨d, s, returns, ip, host⟩ =
      match s.push? v with
      | some s' => .ok () ⟨d, s', returns, ip + cellSize, host⟩
      | none => .error (.error .stackOverflow) ⟨d, s, returns, ip, host⟩ := by
  unfold runToken
  rw [h]
  cases hpush : s.push? v <;>
    simp only [push, StackM.push, onData, hpush, bind, EStateM.bind, advance]

theorem runToken_of_ofLiteral? {v : Cell} {t : Token} (ht : Token.ofLiteral? v = some t) :
    runToken hooks call n t.encode ⟨d, s, returns, ip, host⟩ =
      match s.push? v with
      | some s' => .ok () ⟨d, s', returns, ip + cellSize, host⟩
      | none => .error (.error .stackOverflow) ⟨d, s, returns, ip, host⟩ :=
  runToken_number n d s returns ip host (decode_of_ofLiteral? ht)

/-- From the first definition on, a token is a call. -/
theorem decode_of_le {body : Addr} (h : Layout.firstEntry ≤ body) :
    Token.decode body = .call body := by
  have hle : 96 ≤ body.toNat := UInt16.le_iff_toNat_le.1 h
  have hnone : Primitive.ofToken? body = none := by
    rw [Primitive.ofToken?, List.getElem?_eq_none]
    rw [Primitive.length_all]
    exact Nat.le_trans (by decide) hle
  rw [Token.decode, hnone]
  exact if_neg (UInt16.not_lt.2 h)

/-- A token that stands for a call keeps the way back and moves into the called code. -/
theorem runToken_of_decode_call {xt body : Addr} (h : Token.decode xt = .call body) :
    runToken hooks call n xt ⟨d, s, returns, ip, host⟩ =
      match returns.push? ip.toInt16 with
      | some returns' => .ok () ⟨d, s, returns', body, host⟩
      | none => .error (.error .returnStackOverflow) ⟨d, s, returns, ip, host⟩ := by
  unfold runToken
  rw [h]
  cases hpush : returns.push? ip.toInt16 <;>
    simp only [pushReturn, setIp, get_apply, hpush, bind, EStateM.bind]

theorem runToken_call {body : Addr} (hbody : Layout.firstEntry ≤ body) :
    runToken hooks call n body ⟨d, s, returns, ip, host⟩ =
      match returns.push? ip.toInt16 with
      | some returns' => .ok () ⟨d, s, returns', body, host⟩
      | none => .error (.error .returnStackOverflow) ⟨d, s, returns, ip, host⟩ :=
  runToken_of_decode_call n d s returns ip host (decode_of_le hbody)

theorem runToken_exit {v : Cell} {returns' : Stack} (h : returns.pop? = some (v, returns')) :
    runToken hooks call n Primitive.exit.token ⟨d, s, returns, ip, host⟩ =
      if v.toUInt16 = 0 then .error .exit ⟨d, s, returns', 0, host⟩
      else .ok () ⟨d, s, returns', v.toUInt16 + cellSize, host⟩ := by
  unfold runToken
  rw [decode_token]
  by_cases hv : v.toUInt16 = 0 <;>
    simp only [perform, popReturn, setIp, h, hv, if_true, if_false, throw_apply, bind, EStateM.bind,
      pure, EStateM.pure, advance]

/-- A jump leads as far from the cell after it as that cell says. -/
theorem runToken_branch :
    runToken hooks call n Primitive.branch.token ⟨d, s, returns, ip, host⟩ =
      .ok () ⟨d, s, returns, ip + cellSize + (d.readCell (ip + cellSize)).toUInt16, host⟩ := by
  unfold runToken
  rw [decode_token]
  simp only [perform, jump, nextCell, modify_apply, bind, EStateM.bind, pure, EStateM.pure, advance,
    UInt16.sub_add_cancel]

theorem runToken_branchIfZero :
    runToken hooks call n Primitive.branchIfZero.token ⟨d, s, returns, ip, host⟩ =
      match StackM.pop s with
      | .ok v s' =>
        .ok () ⟨d, s', returns, if v = 0 then ip + cellSize + (d.readCell (ip + cellSize)).toUInt16
          else ip + cellSize + cellSize, host⟩
      | .error e s' => .error (.error e) ⟨d, s', returns, ip, host⟩ := by
  unfold runToken
  rw [decode_token]
  cases hpop : StackM.pop s with
  | ok v s' =>
      by_cases hv : v = 0 <;>
        simp only [perform, pop, onData, hpop, hv, if_true, if_false, jump, nextCell, modify_apply,
          discard, Functor.discard, Functor.mapConst, Function.comp_apply, EStateM.map, bind,
          EStateM.bind, pure, EStateM.pure, advance, UInt16.sub_add_cancel]
  | error e s' => simp only [perform, pop, onData, hpop, bind, EStateM.bind]

/-- A cell moves from the data stack to the return stack, or both stay as they are. -/
theorem runToken_toReturn :
    runToken hooks call n Primitive.toReturn.token ⟨d, s, returns, ip, host⟩ =
      match s.pop? with
      | some (v, s') =>
        match returns.push? v with
        | some returns' => .ok () ⟨d, s', returns', ip + cellSize, host⟩
        | none => .error (.error .returnStackOverflow) ⟨d, s, returns, ip, host⟩
      | none => .error (.error .stackUnderflow) ⟨d, s, returns, ip, host⟩ := by
  unfold runToken
  rw [decode_token]
  rcases s with ⟨capacity, cells, depth, hdepth, hle⟩
  cases cells with
  | nil => rfl
  | cons v vs =>
      simp only [Stack.pop?]
      cases hpush : returns.push? v <;>
        simp only [perform, onData, StackM.top, StackM.pick, Stack.pick?, pushReturn, pop,
          StackM.pop, Stack.pop?, hpush, List.getElem?_cons_zero, discard, Functor.discard,
          Functor.mapConst, Function.comp_apply, EStateM.map, bind, EStateM.bind, pure,
          EStateM.pure, advance]

/-- A cell moves from the return stack to the data stack. If there is no room for it, it is
lost. -/
theorem runToken_fromReturn :
    runToken hooks call n Primitive.fromReturn.token ⟨d, s, returns, ip, host⟩ =
      match returns.pop? with
      | some (v, returns') =>
        match s.push? v with
        | some s' => .ok () ⟨d, s', returns', ip + cellSize, host⟩
        | none => .error (.error .stackOverflow) ⟨d, s, returns', ip, host⟩
      | none => .error (.error .returnStackUnderflow) ⟨d, s, returns, ip, host⟩ := by
  unfold runToken
  rw [decode_token]
  cases hpop : returns.pop? with
  | none => simp only [perform, popReturn, hpop, bind, EStateM.bind]
  | some p =>
      cases hpush : s.push? p.1 <;>
        simp only [perform, popReturn, push, onData, StackM.push, hpop, hpush, bind, EStateM.bind,
          pure, EStateM.pure, advance]

theorem runToken_returnDepth :
    runToken hooks call n Primitive.returnDepth.token ⟨d, s, returns, ip, host⟩ =
      match s.push? (Int16.ofNat returns.depth) with
      | some s' => .ok () ⟨d, s', returns, ip + cellSize, host⟩
      | none => .error (.error .stackOverflow) ⟨d, s, returns, ip, host⟩ := by
  unfold runToken
  rw [decode_token]
  cases hpush : s.push? (Int16.ofNat returns.depth) <;>
    simp only [perform, get_apply, push, onData, StackM.push, hpush, bind, EStateM.bind, pure,
      EStateM.pure, advance]

/-- A cell is read, or a byte as a small number. -/
theorem runToken_fetch {addr width : Cell} {vs : List Cell} (hs : s.cells = width :: addr :: vs) :
    runToken hooks call n Primitive.fetch.token ⟨d, s, returns, ip, host⟩ =
      match (s.drop 2).push? (if width ≠ 0 then d.readCell addr.toUInt16
        else (d.readByte addr.toUInt16).toUInt16.toInt16) with
      | some s' => .ok () ⟨d, s', returns, ip + cellSize, host⟩
      | none => .error (.error .stackOverflow) ⟨d, s.drop 2, returns, ip, host⟩ := by
  unfold runToken
  rw [decode_token]
  cases hpush : (s.drop 2).push? (if width ≠ 0 then d.readCell addr.toUInt16
      else (d.readByte addr.toUInt16).toUInt16.toInt16) <;>
    simp only [perform, fetch, push, StackM.push, onData, StackM.pop2, hs, getDictionary,
      hpush, bind, EStateM.bind, pure, EStateM.pure, advance]

/-- A cell is written, elsewhere than to `here`. -/
theorem runToken_store {addr v width : Cell} {vs : List Cell}
    (hs : s.cells = width :: addr :: v :: vs) (hwidth : width ≠ 0)
    (haddr : addr.toUInt16 ≠ SystemCell.here.addr) :
    runToken hooks call n Primitive.store.token ⟨d, s, returns, ip, host⟩ =
      .ok () ⟨d.writeCell addr.toUInt16 v, s.drop 3, returns, ip + cellSize, host⟩ := by
  unfold runToken
  rw [decode_token]
  simp only [perform, store, onData, StackM.pop3, hs, modifyDictionary, if_neg hwidth,
    if_neg haddr, bind, EStateM.bind, pure, EStateM.pure, advance]

/-- A byte is written. -/
theorem runToken_storeByte {addr v : Cell} {vs : List Cell} (hs : s.cells = 0 :: addr :: v :: vs) :
    runToken hooks call n Primitive.store.token ⟨d, s, returns, ip, host⟩ =
      .ok () ⟨d.writeByte addr.toUInt16 (Cell.lowByte v), s.drop 3, returns, ip + cellSize, host⟩ := by
  unfold runToken
  rw [decode_token]
  simp only [perform, store, onData, StackM.pop3, hs, modifyDictionary, if_true, bind,
    EStateM.bind, pure, EStateM.pure, advance]

/-- To write to `here` is to take the room up to there. -/
theorem runToken_store_here {v width : Cell} {vs : List Cell}
    (hs : s.cells = width :: SystemCell.here.addr.toInt16 :: v :: vs) (hwidth : width ≠ 0) :
    runToken hooks call n Primitive.store.token ⟨d, s, returns, ip, host⟩ =
      match Dictionary.allot (v - d.reserved .here) d with
      | .ok _ d' => .ok () ⟨d', s.drop 3, returns, ip + cellSize, host⟩
      | .error e d' => .error (.error e) ⟨d', s.drop 3, returns, ip, host⟩ := by
  unfold runToken
  rw [decode_token]
  cases hallot : Dictionary.allot (v - d.reserved .here) d <;>
    simp only [perform, store, onData, StackM.pop3, hs, onDictionary, if_neg hwidth,
      UInt16.toUInt16_toInt16, if_true, discard, Functor.discard, Functor.mapConst,
      Function.comp_apply, EStateM.map, hallot, bind, EStateM.bind, pure, EStateM.pure, advance]

end Tokens

/-! ## Code that works on the data stack -/

/-- The end of a program of the data stack: with a new stack, or with an error. -/
abbrev Outcome := EStateM.Result Error Stack Unit

variable (hooks call) in
/-- From the address `a` and the stack `s` the code comes to `b` with the stack of the outcome, or
fails with its error and its stack, if `free` cells are free on the return stack. -/
def Does (d : Dictionary) (free : Nat) (a b : Addr) (s : Stack) : Outcome → Prop
  | .ok _ s' => ∀ (returns : Stack) (host : H), returns.depth + free ≤ returns.capacity →
      Goes hooks call ⟨d, s, returns, a, host⟩ ⟨d, s', returns, b, host⟩
  | .error e s' => ∀ (returns : Stack) (host : H), returns.depth + free ≤ returns.capacity →
      ∃ m : Machine H, Halts hooks call ⟨d, s, returns, a, host⟩ (.error (.error e) m) ∧ m.data = s'

namespace Does

variable {d : Dictionary} {free free' : Nat} {a b c body : Addr} {s s' : Stack} {r : Outcome}

theorem refl (d : Dictionary) (free : Nat) (a : Addr) (s : Stack) :
    Does hooks call d free a a s (.ok () s) := fun _ _ _ => .refl _

theorem mono (h : Does hooks call d free a b s r) (hle : free ≤ free') :
    Does hooks call d free' a b s r := by
  cases r with
  | ok u s' => exact fun returns host hroom => h returns host (by omega)
  | error e s' => exact fun returns host hroom => h returns host (by omega)

/-- Code that is run up to `b` is run on from there. -/
theorem trans (h : Does hooks call d free a b s (.ok () s'))
    (h' : Does hooks call d free b c s' r) : Does hooks call d free a c s r := by
  cases r with
  | ok u t => exact fun returns host hroom => (h returns host hroom).trans (h' returns host hroom)
  | error e t =>
      intro returns host hroom
      obtain ⟨m, hhalts, hdata⟩ := h' returns host hroom
      exact ⟨m, (h returns host hroom).halts hhalts, hdata⟩

/-- The code of two programs, one after the other. -/
theorem bind {x y : StackM Unit} (hx : Does hooks call d free a b s (x s))
    (hy : ∀ s', Does hooks call d free b c s' (y s')) :
    Does hooks call d free a c s ((do x; y : StackM Unit) s) := by
  cases h : x s with
  | ok u s' =>
      rw [h] at hx
      rw [bind_eq_of_ok h]
      exact hx.trans (hy s')
  | error e s' =>
      rw [h] at hx
      rw [bind_eq_of_error h]
      exact hx

/-- Where the code would have come to does not matter if it fails. -/
theorem of_error {e : Error} (h : Does hooks call d free a b s (.error e s')) :
    Does hooks call d free a c s (.error e s') := h

end Does

section Cells

variable {d : Dictionary} {free : Nat} {a b c body : Addr} {r : Outcome} (s : Stack)

/-- A token works on the data stack if it changes no more than that and where the code goes on. -/
theorem does_of_runToken {t : Addr} (h : d.readCell a = t.toInt16)
    (hrun : ∀ (n : Nat) (returns : Stack) (host : H),
      runToken hooks call n t ⟨d, s, returns, a, host⟩ =
        match r with
        | .ok _ s' => .ok () ⟨d, s', returns, b, host⟩
        | .error e s' => .error (.error e) ⟨d, s', returns, c, host⟩) :
    Does hooks call d 0 a b s r := by
  cases r with
  | ok u s' =>
      intro returns host _
      refine goes_of_runToken fun n => ?_
      rw [nextToken_eq _ _ _ h]
      exact hrun n returns host
  | error e s' =>
      intro returns host _
      refine ⟨⟨d, s', returns, c, host⟩, halts_of_runToken fun n => ?_, rfl⟩
      rw [nextToken_eq _ _ _ h]
      exact hrun n returns host

theorem does_operator {op : Operator}
    (h : d.readCell a = (Primitive.operator op).token.toInt16) :
    Does hooks call d 0 a (a + cellSize) s (op.apply s) := by
  refine does_of_runToken s h (c := a) fun n returns host => ?_
  rw [runToken_operator]
  cases op.apply s <;> rfl

/-- A number that has a token of its own is one cell of code. -/
theorem does_shortLiteral {v : Cell} {t : Token} (ht : Token.ofLiteral? v = some t)
    (h : d.readCell a = t.encode.toInt16) :
    Does hooks call d 0 a (a + cellSize) s (StackM.push v s) := by
  refine does_of_runToken s h (c := a) fun n returns host => ?_
  rw [runToken_of_ofLiteral? _ _ _ _ _ _ ht, StackM.push]
  cases s.push? v <;> rfl

/-- Any other number is the cell after the token. -/
theorem does_longLiteral (h : d.readCell a = Primitive.literal.token.toInt16) :
    Does hooks call d 0 a (a + cellSize + cellSize) s
      (StackM.push (d.readCell (a + cellSize)) s) := by
  -- the instruction pointer has moved to the second cell when the push fails
  refine does_of_runToken s h (c := a + cellSize) fun n returns host => ?_
  rw [runToken_literal, StackM.push]
  cases s.push? (d.readCell (a + cellSize)) <;> rfl

/-- The code of a number pushes it. -/
theorem does_literal {v : Cell} (h : d.CellsAt a (literalCells v)) :
    Does hooks call d 0 a (after a (literalCells v)) s (StackM.push v s) := by
  rw [literalCells] at h ⊢
  cases ht : Token.ofLiteral? v with
  | some t =>
      rw [ht] at h
      exact does_shortLiteral s ht h.1
  | none =>
      rw [ht] at h
      have hdoes : Does hooks call d 0 a (a + cellSize + cellSize) s
          (StackM.push (d.readCell (a + cellSize)) s) := does_longLiteral s h.1
      rw [h.2.1] at hdoes
      exact hdoes

/-- A call does what the called code does up to its end, and needs one cell more of the return
stack for the way back. -/
theorem does_call (hbody : Layout.firstEntry ≤ body) (ha : a ≠ 0)
    (hcall : d.readCell a = body.toInt16)
    (hexit : d.readCell b = Primitive.exit.token.toInt16) (h : Does hooks call d free body b s r) :
    Does hooks call d (free + 1) a (a + cellSize) s r := by
  -- the call itself is the same whether the called code then fails or not
  have hinto : ∀ (returns : Stack) (host : H), returns.depth + (free + 1) ≤ returns.capacity →
      ∃ returns', returns.push? a.toInt16 = some returns' ∧
        returns'.depth + free ≤ returns'.capacity ∧
        Goes hooks call ⟨d, s, returns, a, host⟩ ⟨d, s, returns', body, host⟩ := by
    intro returns host hroom
    obtain ⟨returns', hpush, hdepth, hcap⟩ := returns.exists_push? a.toInt16 (by omega)
    refine ⟨returns', hpush, by omega, goes_of_runToken fun n => ?_⟩
    rw [nextToken_eq _ _ _ hcall, runToken_call _ _ _ _ _ _ hbody, hpush]
  cases r with
  | ok u s' =>
      intro returns host hroom
      obtain ⟨returns', hpush, hroom', hgoes⟩ := hinto returns host hroom
      refine (hgoes.trans (h returns' host hroom')).trans (goes_of_runToken fun n => ?_)
      rw [nextToken_eq _ _ _ hexit, runToken_exit _ _ _ _ _ _ (Stack.pop?_of_push? hpush),
        UInt16.toUInt16_toInt16, if_neg ha]
  | error e s' =>
      intro returns host hroom
      obtain ⟨returns', hpush, hroom', hgoes⟩ := hinto returns host hroom
      obtain ⟨m, hhalts, hdata⟩ := h returns' host hroom'
      exact ⟨m, hgoes.halts hhalts, hdata⟩

end Cells

/-! ## Execution -/

/-- A program that was begun in `m` ended as the outcome says: only the data stack changed, or it
stopped with the error and the stack of the outcome. -/
def EndsAs (m : Machine H) : Outcome → EStateM.Result Stop (Machine H) Unit → Prop
  | .ok _ s, r => r = .ok () { m with data := s }
  | .error e s, r => ∃ m', r = .error (.error e) m' ∧ m'.data = s

theorem endsAs_ok {d : Dictionary} {s s' returns : Stack} {ip : Addr} {host : H}
    {r : EStateM.Result Stop (Machine H) Unit} :
    EndsAs ⟨d, s, returns, ip, host⟩ (.ok () s') r ↔ r = .ok () ⟨d, s', returns, ip, host⟩ :=
  Iff.rfl

/-- To run a call is to run the called code. -/
theorem runFrom_of_push? {returns returns' : Stack} {body : Addr} (n : Nat) (d : Dictionary)
    (s : Stack) (host : H) (hbody : Layout.firstEntry ≤ body)
    (hpush : returns.push? (0 : Addr).toInt16 = some returns') :
    runFrom hooks call n body ⟨d, s, returns, 0, host⟩ =
      runCode hooks call n ⟨d, s, returns', body, host⟩ := by
  have htoken : runToken hooks call n body ⟨d, s, returns, 0, host⟩ =
      .ok () ⟨d, s, returns', body, host⟩ := by
    rw [runToken_call _ _ _ _ _ _ hbody, hpush]
  unfold runFrom
  rw [bind_eq_of_ok htoken]
  show (if body < Layout.firstEntry then _ else _ : MachineM H Unit) _ = _
  rw [if_neg (UInt16.not_lt.2 hbody)]

/-- Code runs until something stops it. -/
theorem runCode_ne_ok (n : Nat) (m m' : Machine H) : runCode hooks call n m ≠ .ok () m' := by
  induction n generalizing m with
  | zero =>
      intro h
      cases h
  | succ n ih =>
      rw [runCode_succ]
      intro h
      obtain ⟨u, m1, -, hrest⟩ := exists_of_bind_eq_ok h
      exact ih m1 hrest

/-- To execute code that does something and then exits is to do it. -/
theorem execute_of_does {d : Dictionary} {free : Nat} {body stop : Addr} {s : Stack} {o : Outcome}
    (hbody : Layout.firstEntry ≤ body) (h : Does hooks call d free body stop s o)
    (hexit : d.readCell stop = Primitive.exit.token.toInt16) (returns : Stack) (host : H)
    (hroom : returns.depth + free + 1 ≤ returns.capacity) :
    ∃ k, ∀ n, EndsAs ⟨d, s, returns, 0, host⟩ o
      (execute hooks call (n + k) body ⟨d, s, returns, 0, host⟩) := by
  obtain ⟨returns', hpush, hdepth, hcap⟩ :=
    returns.exists_push? (0 : Addr).toInt16 (by omega)
  have hrun : ∀ n, runFrom hooks call n body ⟨d, s, returns, 0, host⟩ =
      runCode hooks call n ⟨d, s, returns', body, host⟩ :=
    fun n => runFrom_of_push? n d s host hbody hpush
  cases o with
  | ok u s' =>
      have hgoes := h returns' host (by omega)
      -- the exit finds the address zero that the execution began with
      have hhalts : Halts hooks call ⟨d, s', returns', stop, host⟩
          (.error .exit ⟨d, s', returns, 0, host⟩) := by
        refine halts_of_runToken fun n => ?_
        rw [nextToken_eq _ _ _ hexit, runToken_exit _ _ _ _ _ _ (Stack.pop?_of_push? hpush),
          UInt16.toUInt16_toInt16, if_pos rfl]
      obtain ⟨k, hk⟩ := hgoes.halts hhalts
      refine ⟨k, fun n => ?_⟩
      simp only [EndsAs, execute, hrun, hk]
  | error e s' =>
      obtain ⟨m, ⟨k, hk⟩, hdata⟩ := h returns' host (by omega)
      refine ⟨k, fun n => ⟨{ m with ip := 0 }, ?_, hdata⟩⟩
      simp only [execute, hrun, hk]

/-- To execute an operator is to apply it. -/
theorem execute_operator (op : Operator) (n : Nat) (d : Dictionary) (s returns : Stack) (host : H) :
    EndsAs ⟨d, s, returns, 0, host⟩ (op.apply s)
      (execute hooks call n (Primitive.operator op).token ⟨d, s, returns, 0, host⟩) := by
  cases happly : op.apply s with
  | ok u s' =>
      have htoken : runToken hooks call n (Primitive.operator op).token ⟨d, s, returns, 0, host⟩ =
          .ok () ⟨d, s', returns, 0 + cellSize, host⟩ := by
        rw [runToken_operator, happly]
      simp only [EndsAs, execute, runFrom, bind_eq_of_ok htoken]
      rfl
  | error e s' =>
      have htoken : runToken hooks call n (Primitive.operator op).token ⟨d, s, returns, 0, host⟩ =
          .error (.error e) ⟨d, s', returns, 0, host⟩ := by
        rw [runToken_operator, happly]
      refine ⟨⟨d, s', returns, 0, host⟩, ?_, rfl⟩
      simp only [execute, runFrom, bind_eq_of_error htoken]

end Machine

end ThreadedForth
