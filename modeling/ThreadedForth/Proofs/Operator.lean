import ThreadedForth.Proofs.Stack

/-!
# The cells that operators leave

What an operator does to the list of cells is a function of that list alone (`Operator.effect?`). It
has no value where cells are missing or the divisor is zero. An operator for which it has one succeeds
and leaves these cells, if there is room for them (`Operator.leaves_apply`). A program of the data
stack leaves cells (`StackM.Leaves`) as its parts do, one after the other.
-/

set_option autoImplicit false

namespace ThreadedForth

namespace StackM

variable {α : Type} {s : Stack} {x y : StackM Unit} {v w a b c d : Cell} {vs ws us : List Cell}

/-- The program succeeds and leaves these cells. -/
def Leaves (x : StackM Unit) (s : Stack) (ws : List Cell) : Prop :=
  ∃ t, x s = .ok () t ∧ t.cells = ws ∧ t.capacity = s.capacity

/-- A program that goes on with a value and a stack leaves what the rest leaves. -/
theorem Leaves.of_bind {x : StackM α} {f : α → StackM Unit} {t : Stack} {r : α}
    (hx : x s = .ok r t) (hcap : t.capacity = s.capacity) (h : Leaves (f r) t ws) :
    Leaves (x >>= f) s ws := by
  obtain ⟨u, hu, hcells, hcap'⟩ := h
  exact ⟨u, (bind_eq_of_ok hx f).trans hu, hcells, hcap'.trans hcap⟩

theorem Leaves.bind (hx : Leaves x s vs)
    (hy : ∀ t : Stack, t.cells = vs → t.capacity = s.capacity → Leaves y t ws) :
    Leaves (x >>= fun _ => y) s ws := by
  obtain ⟨t, ht, hcells, hcap⟩ := hx
  exact .of_bind ht hcap (hy t hcells hcap)

theorem leaves_push (h : s.cells.length < s.capacity) : Leaves (push v) s (v :: s.cells) := by
  obtain ⟨t, hpush, hcells, hcap⟩ := Stack.exists_push?_of_length_lt (v := v) h
  refine ⟨t, ?_, hcells, hcap⟩
  unfold push
  rw [hpush]

/-- Two pushes, the second cell on top. -/
theorem leaves_push_push (h : s.cells.length + 2 ≤ s.capacity) :
    Leaves (push v >>= fun _ => push w) s (w :: v :: s.cells) := by
  refine (leaves_push (by omega)).bind fun t hcells hcap => ?_
  rw [← hcells]
  apply leaves_push
  rw [hcells, hcap, List.length_cons]
  omega

/-- The cells that a group of pops takes make room for as many. -/
theorem room_drop (n : Nat) (us : List Cell) (h : s.cells = us ++ ws) (hn : us.length = n) :
    (s.drop n).cells = ws ∧ ws.length + n ≤ s.capacity := by
  have hle := s.length_le
  rw [h, List.length_append] at hle
  constructor
  · rw [Stack.cells_drop, h, List.drop_left' hn]
  · omega

theorem top_of_cells (h : s.cells = v :: vs) : top s = .ok v s := by
  simp only [top, pick, Stack.pick?, h, List.getElem?_cons_zero]

theorem pop2_of_cells (h : s.cells = b :: a :: vs) : pop2 s = .ok (a, b) (s.drop 2) := by
  simp only [pop2, h]

theorem leaves_binary {f : Cell → Cell → Cell} (h : s.cells = b :: a :: vs) :
    Leaves (binary f) s (f a b :: vs) := by
  obtain ⟨hcells, hroom⟩ := room_drop 2 [b, a] h rfl
  refine .of_bind (pop2_of_cells h) rfl ?_
  rw [← hcells]
  apply leaves_push
  rw [hcells, s.capacity_drop]
  omega

/-- A divisor other than zero is taken along with the dividend. -/
theorem leaves_divide {f : DoubleCell → Cell → StackM Unit} (h : s.cells = c :: b :: a :: vs)
    (hc : c ≠ 0) (hf : ∀ t : Stack, t.cells = vs → vs.length + 3 ≤ t.capacity →
      Leaves (f (.ofCells a b) c) t ws) : Leaves (Operator.divide f) s ws := by
  obtain ⟨hcells, hroom⟩ := room_drop 3 [c, b, a] h rfl
  have hpop : pop3 s = .ok (a, b, c) (s.drop 3) := by simp only [pop3, h]
  refine .of_bind hpop rfl ?_
  dsimp only
  rw [if_neg hc]
  exact hf _ hcells hroom

end StackM

namespace Operator

open StackM

variable {s : Stack} {v w : Cell} {vs ws : List Cell}

/-- What is made of two cells, by the operators that replace two cells by one. -/
def binary? : Operator → Option (Cell → Cell → Cell)
  | add => some (· + ·)
  | sub => some (· - ·)
  | equal => some fun a b => flag (a == b)
  | less => some fun a b => flag (a < b)
  | and => some (· &&& ·)
  | or => some (· ||| ·)
  | xor => some (· ^^^ ·)
  | shiftLeft => some shiftedLeft
  | shiftRight => some shiftedRight
  | unsignedLess => some fun a b => flag (a.toUInt16 < b.toUInt16)
  | _ => none

/-- A double cell on top of others. -/
def pushed (d : DoubleCell) (vs : List Cell) : List Cell := d.toCells.2 :: d.toCells.1 :: vs

/-- The quotient of a double cell by a cell, both read as unsigned. -/
def unsignedQuotient (d : DoubleCell) (n : Cell) : Cell := (d / n.toUInt16.toUInt32).toUInt16.toInt16

/-- The remainder that goes with it. -/
def unsignedRemainder (d : DoubleCell) (n : Cell) : Cell := (d % n.toUInt16.toUInt32).toUInt16.toInt16

/-- The cells after a division, if the divisor is not zero. -/
def divided? (f : DoubleCell → Cell → List Cell) : List Cell → Option (List Cell)
  | n :: high :: low :: vs => if n = 0 then none else some (f (.ofCells low high) n ++ vs)
  | _ => none

/-- The cells after the operator, if it finds the cells that it needs and does not divide by zero. -/
def effect? : Operator → List Cell → Option (List Cell)
  | drop, _ :: vs => some vs
  | dup, v :: vs => some (v :: v :: vs)
  | swap, b :: a :: vs => some (a :: b :: vs)
  | pick, n :: vs => (vs[n.toUInt16.toNat]?).map (· :: vs)
  | depth, vs => some (Int16.ofNat vs.length :: vs)
  | mul, b :: a :: vs => some (pushed (product a b) vs)
  | mulAdd, summand :: factor :: high :: low :: vs =>
    some (pushed (.ofCells low high * factor.toUInt16.toUInt32 + summand.toUInt16.toUInt32) vs)
  | div, vs => divided? (fun d n => [signedQuotient d n]) vs
  | mod, vs => divided? (fun d n => [signedRemainder d n]) vs
  | unsignedDivMod, vs => divided? (fun d n => [unsignedQuotient d n, unsignedRemainder d n]) vs
  | op, b :: a :: vs => op.binary?.map fun f => f a b :: vs
  | _, _ => none

/-- A division that leaves its cells where there is room for three. -/
theorem leaves_of_divided? {f : DoubleCell → Cell → List Cell} {g : DoubleCell → Cell → StackM Unit}
    (h : divided? f s.cells = some ws)
    (hg : ∀ (d : DoubleCell) (n : Cell) (t : Stack), t.cells.length + 3 ≤ t.capacity →
      Leaves (g d n) t (f d n ++ t.cells)) : Leaves (divide g) s ws := by
  rcases hcells : s.cells with _ | ⟨n, _ | ⟨high, _ | ⟨low, vs⟩⟩⟩ <;> rw [hcells] at h
  · cases h
  · cases h
  · cases h
  by_cases hn : n = 0
  · rw [divided?, if_pos hn] at h
    cases h
  rw [divided?, if_neg hn] at h
  obtain rfl := Option.some.inj h
  refine leaves_divide hcells hn fun t ht hroom => ?_
  rw [← ht]
  exact hg _ n t (by rw [ht]; exact hroom)

theorem effect?_div {low high n : Cell} (hn : n ≠ 0) :
    div.effect? (n :: high :: low :: vs) = some (signedQuotient (.ofCells low high) n :: vs) :=
  if_neg hn

theorem effect?_mod {low high n : Cell} (hn : n ≠ 0) :
    mod.effect? (n :: high :: low :: vs) = some (signedRemainder (.ofCells low high) n :: vs) :=
  if_neg hn

theorem effect?_unsignedDivMod {low high n : Cell} (hn : n ≠ 0) :
    unsignedDivMod.effect? (n :: high :: low :: vs) =
      some (unsignedQuotient (.ofCells low high) n :: unsignedRemainder (.ofCells low high) n :: vs) :=
  if_neg hn

theorem effect?_unsignedDivMod_pushed {d : DoubleCell} {n : Cell} (hn : n ≠ 0) :
    unsignedDivMod.effect? (n :: pushed d vs) =
      some (unsignedQuotient d n :: unsignedRemainder d n :: vs) := by
  rw [pushed, effect?_unsignedDivMod hn, DoubleCell.ofCells_toCells]

theorem effect?_of_binary? {op : Operator} {f : Cell → Cell → Cell} (hf : op.binary? = some f) :
    op.effect? (w :: v :: vs) = some (f v w :: vs) := by
  cases op <;> cases hf <;> rfl

theorem apply_eq_binary {op : Operator} {f : Cell → Cell → Cell} (h : op.binary? = some f) :
    op.apply = StackM.binary f := by
  cases op <;> cases h <;> rfl

/-- An operator that replaces two cells by one. -/
theorem leaves_of_binary? {op : Operator} {f : Cell → Cell → Cell} (hf : op.binary? = some f)
    (h : op.effect? s.cells = some ws) : Leaves op.apply s ws := by
  rcases hcells : s.cells with _ | ⟨b, _ | ⟨a, vs⟩⟩ <;> rw [hcells] at h
  · cases op <;> cases hf <;> cases h
  · cases op <;> cases hf <;> cases h
  rw [effect?_of_binary? hf] at h
  obtain rfl := Option.some.inj h
  rw [apply_eq_binary hf]
  exact leaves_binary hcells

theorem leaves_drop (h : s.cells = v :: vs) : Leaves drop.apply s vs := by
  obtain ⟨t, hpop, hcells, hcap⟩ := Stack.exists_pop? h
  refine ⟨t, ?_, hcells, hcap⟩
  show (StackM.pop >>= fun _ => pure ()) s = _
  refine bind_eq_of_ok (a := v) ?_ _
  unfold StackM.pop
  rw [hpop]

theorem leaves_dup (h : s.cells = v :: vs) (hroom : vs.length + 2 ≤ s.capacity) :
    Leaves dup.apply s (v :: v :: vs) := by
  refine .of_bind (top_of_cells h) rfl ?_
  rw [← h]
  apply leaves_push
  rw [h, List.length_cons]
  omega

theorem leaves_swap (h : s.cells = w :: v :: vs) : Leaves swap.apply s (v :: w :: vs) := by
  obtain ⟨hcells, hroom⟩ := room_drop 2 [w, v] h rfl
  refine .of_bind (pop2_of_cells h) rfl ?_
  rw [← hcells]
  exact leaves_push_push (by rw [hcells]; exact hroom)

theorem leaves_pick (h : s.cells = v :: vs) (hpick : vs[v.toUInt16.toNat]? = some w) :
    Leaves pick.apply s (w :: vs) := by
  have hread : StackM.pick (v.toUInt16.toNat + 1) s = .ok w s := by
    simp only [StackM.pick, Stack.pick?, h, List.getElem?_cons_succ, hpick]
  refine .of_bind (top_of_cells h) rfl (.of_bind hread rfl ?_)
  rcases s with ⟨capacity, cells, depth, hdepth, hle⟩
  obtain rfl : cells = v :: vs := h
  exact ⟨_, rfl, rfl, rfl⟩

theorem leaves_mul (h : s.cells = w :: v :: vs) :
    Leaves mul.apply s (pushed (product v w) vs) := by
  obtain ⟨hcells, hroom⟩ := room_drop 2 [w, v] h rfl
  refine .of_bind (pop2_of_cells h) rfl ?_
  rw [← hcells]
  exact leaves_push_push (by rw [hcells]; exact hroom)

theorem leaves_mulAdd {low high factor summand : Cell}
    (h : s.cells = summand :: factor :: high :: low :: vs) :
    Leaves mulAdd.apply s (pushed
      (.ofCells low high * factor.toUInt16.toUInt32 + summand.toUInt16.toUInt32) vs) := by
  obtain ⟨hcells, hroom⟩ := room_drop 4 [summand, factor, high, low] h rfl
  have hpop : StackM.pop4 s = .ok (low, high, factor, summand) (s.drop 4) := by
    simp only [StackM.pop4, h]
  refine .of_bind hpop rfl ?_
  rw [← hcells]
  apply leaves_push_push
  rw [hcells, s.capacity_drop]
  omega

/-- An operator with an effect succeeds and has it, if there is room for the cells that it leaves. -/
theorem leaves_apply {op : Operator} (h : op.effect? s.cells = some ws)
    (hroom : ws.length ≤ s.capacity) : Leaves op.apply s ws := by
  cases op with
  | drop =>
      rcases hcells : s.cells with _ | ⟨v, vs⟩ <;> rw [hcells] at h <;> cases h
      exact leaves_drop hcells
  | dup =>
      rcases hcells : s.cells with _ | ⟨v, vs⟩ <;> rw [hcells] at h <;> cases h
      exact leaves_dup hcells hroom
  | swap =>
      rcases hcells : s.cells with _ | ⟨w, _ | ⟨v, vs⟩⟩ <;> rw [hcells] at h <;> cases h
      exact leaves_swap hcells
  | pick =>
      rcases hcells : s.cells with _ | ⟨v, vs⟩ <;> rw [hcells] at h
      · cases h
      · obtain ⟨w, hpick, rfl⟩ := Option.map_eq_some_iff.1 h
        exact leaves_pick hcells hpick
  | depth =>
      cases h
      have hdepth : depth.apply s = StackM.push (Int16.ofNat s.cells.length) s := by
        show StackM.push (Int16.ofNat s.depth) s = _
        rw [s.depth_eq]
      obtain ⟨t, hpush, hcells, hcap⟩ := leaves_push (v := Int16.ofNat s.cells.length) hroom
      exact ⟨t, hdepth.trans hpush, hcells, hcap⟩
  | mul =>
      rcases hcells : s.cells with _ | ⟨w, _ | ⟨v, vs⟩⟩ <;> rw [hcells] at h <;> cases h
      exact leaves_mul hcells
  | mulAdd =>
      rcases hcells : s.cells with _ | ⟨summand, _ | ⟨factor, _ | ⟨high, _ | ⟨low, vs⟩⟩⟩⟩ <;>
        rw [hcells] at h <;> cases h
      exact leaves_mulAdd hcells
  | div =>
      exact leaves_of_divided? (f := fun d n => [signedQuotient d n]) h
        fun d n t ht => leaves_push (by omega)
  | mod =>
      exact leaves_of_divided? (f := fun d n => [signedRemainder d n]) h
        fun d n t ht => leaves_push (by omega)
  | unsignedDivMod =>
      exact leaves_of_divided? (f := fun d n => [unsignedQuotient d n, unsignedRemainder d n]) h
        fun d n t ht => leaves_push_push (by omega)
  | _ => exact leaves_of_binary? rfl h

end Operator

end ThreadedForth
