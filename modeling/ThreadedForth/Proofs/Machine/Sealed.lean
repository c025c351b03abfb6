import ThreadedForth.Dictionary.Code
import ThreadedForth.Proofs.Machine.Run

/-!
# Code that keeps to itself

Code of numbers, operators, jumps and calls reads memory only to fetch its own tokens and their
operands. `Sealed d code` says that the places in `code` hold such tokens only and that each of them
leads to other such places. A place is an address together with the number of cells that its
definition has put on the return stack, so a definition comes to its exit with its own return
address on top (`Frames`).

A run of sealed code depends on nothing in memory but the cells at its places
(`execute_withDictionary`): in two dictionaries with the same cells there it does the same for every
number of steps, whether it ends, fails or goes on, and it leaves either dictionary as it is.
-/

set_option autoImplicit false

namespace ThreadedForth

/-- The bytes of a token with its operand. -/
def Token.size : Token → Nat
  | primitive p => if p.takesOperand then 4 else 2
  | _ => 2

theorem Token.size_bounds (t : Token) : 2 ≤ t.size ∧ t.size ≤ 4 := by
  unfold size
  split
  · split <;> simp
  · simp

theorem Token.eq_token_of_decode {xt : Addr} {p : Primitive} (h : decode xt = .primitive p) :
    xt = p.token := by
  rw [← encode_decode xt, h]
  rfl

namespace Dictionary

variable {d d' : Dictionary} {code : Addr → Nat → Prop} {a : Addr} {k : Nat}

/-- The token at an address. -/
def tokenAt (d : Dictionary) (a : Addr) : Token := Token.decode (d.readCell a).toUInt16

/-- Where the jump at an address leads. -/
def jumpTarget (d : Dictionary) (a : Addr) : Addr :=
  a + cellSize + (d.readCell (a + cellSize)).toUInt16

/-- After a token at an address, with `k` cells put on the return stack, the code goes on at places
of the code. -/
inductive Leads (d : Dictionary) (code : Addr → Nat → Prop) (a : Addr) : Nat → Token → Prop
  | number {k : Nat} {v : Cell} (next : code (a + cellSize) k) : Leads d code a k (.literal v)
  | literal {k : Nat} (next : code (a + cellSize + cellSize) k) :
      Leads d code a k (.primitive .literal)
  | operator {k : Nat} {op : Operator} (next : code (a + cellSize) k) :
      Leads d code a k (.primitive (.operator op))
  | branch {k : Nat} (target : code (d.jumpTarget a) k) : Leads d code a k (.primitive .branch)
  | branchIfZero {k : Nat} (target : code (d.jumpTarget a) k)
      (next : code (a + cellSize + cellSize) k) : Leads d code a k (.primitive .branchIfZero)
  | toReturn {k : Nat} (next : code (a + cellSize) (k + 1)) :
      Leads d code a k (.primitive .toReturn)
  | fromReturn {k : Nat} (next : code (a + cellSize) k) :
      Leads d code a (k + 1) (.primitive .fromReturn)
  | returnDepth {k : Nat} (next : code (a + cellSize) k) :
      Leads d code a k (.primitive .returnDepth)
  | call {k : Nat} {body : Addr} (callee : code body 0) (next : code (a + cellSize) k) :
      Leads d code a k (.call body)
  | exit : Leads d code a 0 (.primitive .exit)

instance decidableLeads (d : Dictionary) (code : Addr → Nat → Prop) [∀ a k, Decidable (code a k)]
    (a : Addr) : ∀ (k : Nat) (t : Token), Decidable (d.Leads code a k t)
  | k, .literal _ => decidable_of_iff (code (a + cellSize) k)
      ⟨.number, fun h => by cases h; assumption⟩
  | k, .call body => decidable_of_iff (code body 0 ∧ code (a + cellSize) k)
      ⟨fun h => .call h.1 h.2, fun h => by cases h with | call h h' => exact ⟨h, h'⟩⟩
  | k, .primitive .literal => decidable_of_iff (code (a + cellSize + cellSize) k)
      ⟨.literal, fun h => by cases h; assumption⟩
  | k, .primitive (.operator _) => decidable_of_iff (code (a + cellSize) k)
      ⟨.operator, fun h => by cases h; assumption⟩
  | k, .primitive .branch => decidable_of_iff (code (d.jumpTarget a) k)
      ⟨.branch, fun h => by cases h; assumption⟩
  | k, .primitive .branchIfZero =>
    decidable_of_iff (code (d.jumpTarget a) k ∧ code (a + cellSize + cellSize) k)
      ⟨fun h => .branchIfZero h.1 h.2, fun h => by cases h with | branchIfZero h h' => exact ⟨h, h'⟩⟩
  | k, .primitive .toReturn => decidable_of_iff (code (a + cellSize) (k + 1))
      ⟨.toReturn, fun h => by cases h; assumption⟩
  | 0, .primitive .fromReturn => isFalse nofun
  | k + 1, .primitive .fromReturn => decidable_of_iff (code (a + cellSize) k)
      ⟨.fromReturn, fun h => by cases h; assumption⟩
  | k, .primitive .returnDepth => decidable_of_iff (code (a + cellSize) k)
      ⟨.returnDepth, fun h => by cases h; assumption⟩
  | 0, .primitive .exit => isTrue .exit
  | _ + 1, .primitive .exit => isFalse nofun
  | _, .primitive .sys => isFalse nofun
  | _, .primitive .fetch => isFalse nofun
  | _, .primitive .store => isFalse nofun
  | _, .primitive .colon => isFalse nofun
  | _, .primitive .tick => isFalse nofun
  | _, .primitive .execute => isFalse nofun
  | _, .primitive .semicolon => isFalse nofun
  | _, .primitive .refill => isFalse nofun
  | _, .primitive .evaluate => isFalse nofun
  | _, .primitive .find => isFalse nofun

theorem tokenAt_of_readCell_eq {t : Addr} (h : d.readCell a = t.toInt16) :
    d.tokenAt a = Token.decode t := by
  rw [tokenAt, h, UInt16.toUInt16_toInt16]

/-- The code of a number leads behind it, whether the number has a cell of its own or not. -/
theorem leads_of_literalCells {v : Cell} {cs : List Cell}
    (hcells : d.CellsAt a (literalCells v ++ cs)) (hnext : code (after a (literalCells v)) k) :
    d.Leads code a k (d.tokenAt a) := by
  have hliteral := (cellsAt_append.1 hcells).1
  unfold literalCells at hliteral hnext
  cases ht : Token.ofLiteral? v with
  | some t =>
      rw [ht] at hliteral hnext
      rw [tokenAt_of_readCell_eq hliteral.1, Machine.decode_of_ofLiteral? ht]
      exact .number hnext
  | none =>
      rw [ht] at hliteral hnext
      rw [tokenAt_of_readCell_eq hliteral.1, Machine.decode_token]
      exact .literal hnext

/-- The places of the code hold tokens of sealed code, and no other place is reached from them. -/
def Sealed (d : Dictionary) (code : Addr → Nat → Prop) : Prop :=
  ∀ a k, code a k → d.Leads code a k (d.tokenAt a)

/-- A definition whose code, with all that it calls, is sealed and lies below `here`. -/
def SelfContained (d : Dictionary) (body : Addr) : Prop :=
  ∃ code : Addr → Nat → Prop, code body 0 ∧ d.Sealed code ∧ ∀ a k, code a k →
    Layout.firstEntry.toNat ≤ a.toNat ∧ a.toNat + (d.tokenAt a).size ≤ d.here.toNat

/-- The token at an address and its operand are the same in another dictionary. -/
structure SameAt (d d' : Dictionary) (a : Addr) : Prop where
  readCell_eq : d'.readCell a = d.readCell a
  operand_eq : (d.tokenAt a).size = 4 → d'.readCell (a + cellSize) = d.readCell (a + cellSize)

/-- A token is the same if its bytes are. -/
theorem SameAt.of_agreeOn {lo hi : Nat} (h : d.AgreeOn d' lo hi) (hlo : lo ≤ a.toNat)
    (hhi : a.toNat + (d.tokenAt a).size ≤ hi) (htop : hi ≤ 65536) : d.SameAt d' a := by
  have hsize := (d.tokenAt a).size_bounds
  refine ⟨h.readCell hlo (by omega) (by omega), fun h4 => ?_⟩
  have h2 : (a + cellSize).toNat = a.toNat + 2 := toNat_add_cellSize (by omega)
  exact h.readCell (by omega) (by omega) (by omega)

end Dictionary

namespace Machine

open Dictionary

variable {H : Type} {hooks : Hooks H} {call : Interpreter H} {d d' : Dictionary}
  {code : Addr → Nat → Prop}

/-- The return stack of a definition that has put `k` cells there. Its return address lies below
them; it is zero for the outermost definition, under which anything may lie. -/
inductive Frames (code : Addr → Nat → Prop) : Nat → List Cell → Prop
  | outermost (vs : List Cell) : Frames code 0 (0 :: vs)
  | caller {v : Cell} {k : Nat} {vs : List Cell} (next : code (v.toUInt16 + cellSize) k)
      (rest : Frames code k vs) : Frames code 0 (v :: vs)
  | kept {v : Cell} {k : Nat} {vs : List Cell} (rest : Frames code k vs) :
      Frames code (k + 1) (v :: vs)

/-- Results in two dictionaries that tell no difference but the dictionary. The stacks have room for
as many cells as given. If the run goes on, it goes on at a place of the code. -/
inductive Alike (d d' : Dictionary) (code : Addr → Nat → Prop) (host : H) (dataRoom returnRoom : Nat) :
    EStateM.Result Stop (Machine H) Unit → EStateM.Result Stop (Machine H) Unit → Prop
  | goes {s returns : Stack} {ip : Addr} {k : Nat} (hs : s.capacity = dataRoom)
      (hr : returns.capacity = returnRoom) (at_code : code ip k)
      (frames : Frames code k returns.cells) :
      Alike d d' code host dataRoom returnRoom (.ok () ⟨d, s, returns, ip, host⟩)
        (.ok () ⟨d', s, returns, ip, host⟩)
  | stops {stop : Stop} {s returns : Stack} {ip : Addr} (hs : s.capacity = dataRoom)
      (hr : returns.capacity = returnRoom) (exits : stop = .exit → ip = 0) :
      Alike d d' code host dataRoom returnRoom (.error stop ⟨d, s, returns, ip, host⟩)
        (.error stop ⟨d', s, returns, ip, host⟩)

/-! ## One token -/

section Tokens

variable (n : Nat) (s returns : Stack) {ip : Addr} {k : Nat} (host : H)

/-- A cell is pushed, or does not fit. -/
theorem alike_push {v : Cell} {next stop : Addr} (hnext : code next k)
    (hframes : Frames code k returns.cells) :
    Alike d d' code host s.capacity returns.capacity
      (match s.push? v with
        | some s' => .ok () ⟨d, s', returns, next, host⟩
        | none => .error (.error .stackOverflow) ⟨d, s, returns, stop, host⟩)
      (match s.push? v with
        | some s' => .ok () ⟨d', s', returns, next, host⟩
        | none => .error (.error .stackOverflow) ⟨d', s, returns, stop, host⟩) := by
  cases hpush : s.push? v with
  | some s' => exact .goes (Stack.capacity_of_push? hpush) rfl hnext hframes
  | none => exact .stops rfl rfl nofun

variable (hooks call)

theorem alike_operator (op : Operator) (hnext : code (ip + cellSize) k)
    (hframes : Frames code k returns.cells) :
    Alike d d' code host s.capacity returns.capacity
      (runToken hooks call n (Primitive.operator op).token ⟨d, s, returns, ip, host⟩)
      (runToken hooks call n (Primitive.operator op).token ⟨d', s, returns, ip, host⟩) := by
  have hroom := StackM.keepsRoom_apply op s
  rw [runToken_operator, runToken_operator]
  cases happly : op.apply s with
  | ok u s' =>
      rw [happly] at hroom
      exact .goes hroom rfl hnext hframes
  | error e s' =>
      rw [happly] at hroom
      exact .stops hroom rfl nofun

theorem alike_branchIfZero (hoperand : d'.readCell (ip + cellSize) = d.readCell (ip + cellSize))
    (htarget : code (d.jumpTarget ip) k) (hnext : code (ip + cellSize + cellSize) k)
    (hframes : Frames code k returns.cells) :
    Alike d d' code host s.capacity returns.capacity
      (runToken hooks call n Primitive.branchIfZero.token ⟨d, s, returns, ip, host⟩)
      (runToken hooks call n Primitive.branchIfZero.token ⟨d', s, returns, ip, host⟩) := by
  have hroom := StackM.keepsRoom_pop s
  rw [runToken_branchIfZero, runToken_branchIfZero, hoperand]
  cases hpop : StackM.pop s with
  | ok v s' =>
      rw [hpop] at hroom
      dsimp only
      split
      · exact .goes hroom rfl htarget hframes
      · exact .goes hroom rfl hnext hframes
  | error e s' =>
      rw [hpop] at hroom
      exact .stops hroom rfl nofun

/-- A definition puts one more cell over its return address. -/
theorem alike_toReturn (hnext : code (ip + cellSize) (k + 1)) (hframes : Frames code k returns.cells) :
    Alike d d' code host s.capacity returns.capacity
      (runToken hooks call n Primitive.toReturn.token ⟨d, s, returns, ip, host⟩)
      (runToken hooks call n Primitive.toReturn.token ⟨d', s, returns, ip, host⟩) := by
  rw [runToken_toReturn, runToken_toReturn]
  split
  · rename_i v s' hpop
    split
    · rename_i returns' hpush
      refine .goes (Stack.capacity_of_pop? hpop) (Stack.capacity_of_push? hpush) hnext ?_
      rw [Stack.cells_of_push? hpush]
      exact .kept hframes
    · exact .stops rfl rfl nofun
  · exact .stops rfl rfl nofun

/-- The cell that is taken is one that the definition itself has put there. -/
theorem alike_fromReturn (hnext : code (ip + cellSize) k) (hframes : Frames code (k + 1) returns.cells) :
    Alike d d' code host s.capacity returns.capacity
      (runToken hooks call n Primitive.fromReturn.token ⟨d, s, returns, ip, host⟩)
      (runToken hooks call n Primitive.fromReturn.token ⟨d', s, returns, ip, host⟩) := by
  rw [runToken_fromReturn, runToken_fromReturn]
  split
  · rename_i v returns' hpop
    have hroom := Stack.capacity_of_pop? hpop
    rw [Stack.cells_of_pop? hpop] at hframes
    cases hframes with
    | kept rest =>
        rw [← hroom]
        exact alike_push s returns' host hnext rest
  · exact .stops rfl rfl nofun

/-- The called definition starts with its return address on top. -/
theorem alike_call {xt body : Addr} (hdecode : Token.decode xt = .call body) (hcallee : code body 0)
    (hnext : code (ip + cellSize) k) (hframes : Frames code k returns.cells) :
    Alike d d' code host s.capacity returns.capacity
      (runToken hooks call n xt ⟨d, s, returns, ip, host⟩)
      (runToken hooks call n xt ⟨d', s, returns, ip, host⟩) := by
  rw [runToken_of_decode_call _ _ _ _ _ _ hdecode, runToken_of_decode_call _ _ _ _ _ _ hdecode]
  cases hpush : returns.push? ip.toInt16 with
  | some returns' =>
      refine .goes rfl (Stack.capacity_of_push? hpush) hcallee ?_
      rw [Stack.cells_of_push? hpush]
      exact .caller (by rw [UInt16.toUInt16_toInt16]; exact hnext) hframes
  | none => exact .stops rfl rfl nofun

/-- Under the exit lies the return address, so a caller goes on at a place of the code. -/
theorem alike_exit (hframes : Frames code 0 returns.cells) :
    Alike d d' code host s.capacity returns.capacity
      (runToken hooks call n Primitive.exit.token ⟨d, s, returns, ip, host⟩)
      (runToken hooks call n Primitive.exit.token ⟨d', s, returns, ip, host⟩) := by
  cases hpop : returns.pop? with
  | none =>
      -- every frame has a return address
      have hcells : returns.cells = [] := by
        rcases returns with ⟨capacity, cells, depth, hdepth, hle⟩
        cases cells with
        | nil => rfl
        | cons v vs => cases hpop
      rw [hcells] at hframes
      cases hframes
  | some p =>
      obtain ⟨v, returns'⟩ := p
      have hroom := Stack.capacity_of_pop? hpop
      rw [runToken_exit _ _ _ _ _ _ hpop, runToken_exit _ _ _ _ _ _ hpop]
      rw [Stack.cells_of_pop? hpop] at hframes
      cases hframes with
      | outermost => exact .stops rfl hroom fun _ => rfl
      | caller next rest =>
          split
          · exact .stops rfl hroom fun _ => rfl
          · exact .goes rfl hroom next rest

/-- A token of sealed code reads no memory but its own cells. -/
theorem alike_runToken (hleads : d.Leads code ip k (d.tokenAt ip)) (hsame : d.SameAt d' ip)
    (hframes : Frames code k returns.cells) :
    Alike d d' code host s.capacity returns.capacity
      (runToken hooks call n (d.readCell ip).toUInt16 ⟨d, s, returns, ip, host⟩)
      (runToken hooks call n (d.readCell ip).toUInt16 ⟨d', s, returns, ip, host⟩) := by
  have hoperand := hsame.operand_eq
  generalize ht : d.tokenAt ip = t at hleads hoperand
  unfold tokenAt at ht
  generalize (d.readCell ip).toUInt16 = xt at ht
  cases hleads with
  | number next =>
      rw [runToken_number _ _ _ _ _ _ ht, runToken_number _ _ _ _ _ _ ht]
      exact alike_push s returns host next hframes
  | literal next =>
      obtain rfl := Token.eq_token_of_decode ht
      rw [runToken_literal, runToken_literal, hoperand rfl]
      exact alike_push s returns host next hframes
  | operator next =>
      obtain rfl := Token.eq_token_of_decode ht
      exact alike_operator hooks call n s returns host _ next hframes
  | branch target =>
      obtain rfl := Token.eq_token_of_decode ht
      rw [runToken_branch, runToken_branch, hoperand rfl]
      exact .goes rfl rfl target hframes
  | branchIfZero target next =>
      obtain rfl := Token.eq_token_of_decode ht
      exact alike_branchIfZero hooks call n s returns host (hoperand rfl) target next hframes
  | toReturn next =>
      obtain rfl := Token.eq_token_of_decode ht
      exact alike_toReturn hooks call n s returns host next hframes
  | fromReturn next =>
      obtain rfl := Token.eq_token_of_decode ht
      exact alike_fromReturn hooks call n s returns host next hframes
  | returnDepth next =>
      obtain rfl := Token.eq_token_of_decode ht
      rw [runToken_returnDepth, runToken_returnDepth]
      exact alike_push s returns host next hframes
  | call callee next => exact alike_call hooks call n s returns host ht callee next hframes
  | exit =>
      obtain rfl := Token.eq_token_of_decode ht
      exact alike_exit hooks call n s returns host hframes

end Tokens

/-! ## Runs -/

variable (hooks call) in
/-- A run of sealed code is the same wherever its cells are. -/
theorem alike_runCode (hsealed : d.Sealed code) (hsame : ∀ a k, code a k → d.SameAt d' a)
    (n : Nat) (s returns : Stack) {ip : Addr} {k : Nat} (host : H) (hat : code ip k)
    (hframes : Frames code k returns.cells) :
    Alike d d' code host s.capacity returns.capacity
      (runCode hooks call n ⟨d, s, returns, ip, host⟩)
      (runCode hooks call n ⟨d', s, returns, ip, host⟩) := by
  induction n generalizing s returns ip k with
  | zero => exact .stops rfl rfl nofun
  | succ n ih =>
      have hcell := (hsame ip k hat).readCell_eq
      have halike := alike_runToken hooks call n s returns host (hsealed ip k hat) (hsame ip k hat)
        hframes
      have htoken : nextToken ⟨d', s, returns, ip, host⟩ = (d.readCell ip).toUInt16 :=
        congrArg Int16.toUInt16 hcell
      rw [runCode_succ, runCode_succ, htoken]
      change Alike d d' code host _ _
        (runToken hooks call n (nextToken ⟨d, s, returns, ip, host⟩) _)
        (runToken hooks call n (d.readCell ip).toUInt16 _) at halike
      generalize hx : runToken hooks call n (nextToken ⟨d, s, returns, ip, host⟩)
        ⟨d, s, returns, ip, host⟩ = x at halike
      generalize hy : runToken hooks call n (d.readCell ip).toUInt16 ⟨d', s, returns, ip, host⟩ = y
        at halike
      cases halike with
      | @goes s1 returns1 ip1 k1 hs hr at_code frames =>
          rw [bind_eq_of_ok hx, bind_eq_of_ok hy, ← hs, ← hr]
          exact ih s1 returns1 at_code frames
      | stops hs hr exits =>
          rw [bind_eq_of_error hx, bind_eq_of_error hy]
          exact .stops hs hr exits

/-- Two runs in different dictionaries ended alike, and neither changed its dictionary. If they ended
well, no code is running. -/
inductive Stays (d d' : Dictionary) (s returns : Stack) (host : H) :
    EStateM.Result Stop (Machine H) Unit → EStateM.Result Stop (Machine H) Unit → Prop
  | ok {s1 returns1 : Stack} (hs : s1.capacity = s.capacity)
      (hr : returns1.capacity = returns.capacity) :
      Stays d d' s returns host (.ok () ⟨d, s1, returns1, 0, host⟩)
        (.ok () ⟨d', s1, returns1, 0, host⟩)
  | error {stop : Stop} {s1 returns1 : Stack} {ip : Addr} (hs : s1.capacity = s.capacity)
      (hr : returns1.capacity = returns.capacity) :
      Stays d d' s returns host (.error stop ⟨d, s1, returns1, ip, host⟩)
        (.error stop ⟨d', s1, returns1, ip, host⟩)

variable (hooks call) in
/-- To execute a definition of sealed code is the same wherever its cells are, and changes no
memory. -/
theorem stays_execute (hsealed : d.Sealed code) (hsame : ∀ a k, code a k → d.SameAt d' a)
    (n : Nat) (s returns : Stack) {body : Addr} (host : H) (hbody : Layout.firstEntry ≤ body)
    (hat : code body 0) :
    Stays d d' s returns host (execute hooks call n body ⟨d, s, returns, 0, host⟩)
      (execute hooks call n body ⟨d', s, returns, 0, host⟩) := by
  cases hpush : returns.push? (0 : Addr).toInt16 with
  | none =>
      have hfull : ∀ d1, execute hooks call n body ⟨d1, s, returns, 0, host⟩ =
          .error (.error .returnStackOverflow) ⟨d1, s, returns, 0, host⟩ := by
        intro d1
        have htoken : runToken hooks call n body ⟨d1, s, returns, 0, host⟩ =
            .error (.error .returnStackOverflow) ⟨d1, s, returns, 0, host⟩ := by
          rw [runToken_call _ _ _ _ _ _ hbody, hpush]
        simp only [execute, runFrom, bind_eq_of_error htoken]
      rw [hfull, hfull]
      exact .error rfl rfl
  | some returns' =>
      have hframes : Frames code 0 returns'.cells := by
        rw [Stack.cells_of_push? hpush]
        exact .outermost _
      have hroom := Stack.capacity_of_push? hpush
      have halike := alike_runCode hooks call hsealed hsame n s returns' host hat hframes
      simp only [execute, runFrom_of_push? n _ s host hbody hpush]
      generalize hx : runCode hooks call n ⟨d, s, returns', body, host⟩ = x at halike ⊢
      generalize runCode hooks call n ⟨d', s, returns', body, host⟩ = y at halike ⊢
      cases halike with
      | goes => exact absurd hx (runCode_ne_ok n _ _)
      | @stops stop s1 returns1 ip hs hr exits =>
          cases stop with
          | exit =>
              rw [exits rfl]
              exact .ok hs (hr.trans hroom)
          | error e => exact .error hs (hr.trans hroom)
          | outOfFuel => exact .error hs (hr.trans hroom)

/-- The same result in another dictionary. -/
def withDictionary (d : Dictionary) :
    EStateM.Result Stop (Machine H) Unit → EStateM.Result Stop (Machine H) Unit
  | .ok _ m => .ok () { m with dictionary := d }
  | .error stop m => .error stop { m with dictionary := d }

variable (hooks call) in
/-- The result of sealed code in one dictionary tells the result in another one. -/
theorem execute_withDictionary (hsealed : d.Sealed code) (hsame : ∀ a k, code a k → d.SameAt d' a)
    (n : Nat) (s returns : Stack) {body : Addr} (host : H) (hbody : Layout.firstEntry ≤ body)
    (hat : code body 0) :
    execute hooks call n body ⟨d', s, returns, 0, host⟩ =
        withDictionary d' (execute hooks call n body ⟨d, s, returns, 0, host⟩) ∧
      (lastState (execute hooks call n body ⟨d, s, returns, 0, host⟩)).dictionary = d := by
  have hstays := stays_execute hooks call hsealed hsame n s returns host hbody hat
  generalize execute hooks call n body ⟨d, s, returns, 0, host⟩ = x at hstays ⊢
  generalize execute hooks call n body ⟨d', s, returns, 0, host⟩ = y at hstays ⊢
  cases hstays <;> exact ⟨rfl, rfl⟩

end Machine

end ThreadedForth
