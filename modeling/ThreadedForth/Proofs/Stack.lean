import ThreadedForth.Operator
import ThreadedForth.Proofs.Program

/-!
# Stacks

What a push and a pop do to the cells and to the room for them. No program of the data stack changes
how many cells there is room for (`StackM.keepsRoom_apply`).
-/

set_option autoImplicit false

namespace ThreadedForth

/-- A stack that is not full takes another cell. -/
theorem Stack.exists_push? (s : Stack) (v : Cell) (h : s.depth < s.capacity) :
    ∃ t, s.push? v = some t ∧ t.depth = s.depth + 1 ∧ t.capacity = s.capacity := by
  refine ⟨⟨s.capacity, v :: s.cells, s.depth + 1, congrArg Nat.succ s.depth_eq, h⟩, ?_, rfl, rfl⟩
  simp only [Stack.push?, dif_pos h]

/-- A stack with room for another cell takes it. -/
theorem Stack.exists_push?_of_length_lt {s : Stack} {v : Cell}
    (h : s.cells.length < s.capacity) :
    ∃ t, s.push? v = some t ∧ t.cells = v :: s.cells ∧ t.capacity = s.capacity := by
  obtain ⟨t, hpush, -, hcap⟩ := s.exists_push? v (by rw [s.depth_eq]; exact h)
  exact ⟨t, hpush, Stack.cells_of_push? hpush, hcap⟩

theorem Stack.capacity_of_push? {s t : Stack} {v : Cell} (h : s.push? v = some t) :
    t.capacity = s.capacity := by
  simp only [Stack.push?] at h
  split at h
  · cases h
    rfl
  · cases h

theorem StackM.push?_of_push_eq_ok {s t : Stack} {v : Cell} (h : push v s = .ok () t) :
    s.push? v = some t := by
  unfold push at h
  split at h
  · rename_i t' ht
    cases h
    exact ht
  · cases h

/-- The stack below its top cell. -/
theorem Stack.exists_pop? {s : Stack} {v : Cell} {vs : List Cell} (h : s.cells = v :: vs) :
    ∃ t, s.pop? = some (v, t) ∧ t.cells = vs ∧ t.capacity = s.capacity := by
  rcases s with ⟨capacity, cells, depth, hdepth, hle⟩
  obtain rfl : cells = v :: vs := h
  exact ⟨_, rfl, rfl, rfl⟩

theorem Stack.cells_of_pop? {s s' : Stack} {v : Cell} (h : s.pop? = some (v, s')) :
    s.cells = v :: s'.cells := by
  rcases s with ⟨capacity, cells, depth, hdepth, hle⟩
  cases cells with
  | nil => cases h
  | cons w ws =>
      cases h
      rfl

theorem Stack.capacity_of_pop? {s s' : Stack} {v : Cell} (h : s.pop? = some (v, s')) :
    s'.capacity = s.capacity := by
  rcases s with ⟨capacity, cells, depth, hdepth, hle⟩
  cases cells with
  | nil => cases h
  | cons w ws =>
      cases h
      rfl

/-- There is room where there is a cell. -/
theorem Stack.capacity_pos_of_pop? {s s' : Stack} {v : Cell} (h : s.pop? = some (v, s')) :
    0 < s.capacity := by
  rcases s with ⟨capacity, cells, depth, hdepth, hle⟩
  cases cells with
  | nil => cases h
  | cons w ws =>
      rw [List.length_cons] at hdepth
      show 0 < capacity
      omega

namespace StackM

variable {α β : Type}

/-- The program does not change how many cells there is room for. -/
def KeepsRoom (x : StackM α) : Prop := Relates (fun s t : Stack => t.capacity = s.capacity) x

theorem KeepsRoom.bind {x : StackM α} {f : α → StackM β} (hx : KeepsRoom x)
    (hf : ∀ a, KeepsRoom (f a)) : KeepsRoom (x >>= f) :=
  Relates.bind (fun h h' => h'.trans h) hx hf

theorem keepsRoom_push (v : Cell) : KeepsRoom (push v) := by
  intro s
  unfold push
  split
  · rename_i t hpush
    exact Stack.capacity_of_push? hpush
  · rfl

theorem keepsRoom_pop : KeepsRoom pop := by
  intro s
  unfold pop
  split
  · rename_i v t hpop
    exact Stack.capacity_of_pop? hpop
  · rfl

theorem keepsRoom_pick (n : Nat) : KeepsRoom (pick n) := by
  intro s
  unfold pick
  split <;> rfl

theorem keepsRoom_setTop (v : Cell) : KeepsRoom (setTop v) := by
  rintro ⟨capacity, cells, depth, hdepth, hle⟩
  cases cells <;> rfl

theorem keepsRoom_pop2 : KeepsRoom pop2 := by
  intro s
  unfold pop2
  split <;> rfl

theorem keepsRoom_pop3 : KeepsRoom pop3 := by
  intro s
  unfold pop3
  split <;> rfl

theorem keepsRoom_pop4 : KeepsRoom pop4 := by
  intro s
  unfold pop4
  split <;> rfl

theorem keepsRoom_pushDouble (d : DoubleCell) : KeepsRoom (pushDouble d) :=
  (keepsRoom_push _).bind fun _ => keepsRoom_push _

theorem keepsRoom_binary (f : Cell → Cell → Cell) : KeepsRoom (binary f) :=
  keepsRoom_pop2.bind fun _ => keepsRoom_push _

theorem keepsRoom_divide {f : DoubleCell → Cell → StackM Unit} (hf : ∀ d n, KeepsRoom (f d n)) :
    KeepsRoom (Operator.divide f) := by
  refine keepsRoom_pop3.bind fun p => ?_
  dsimp only
  split
  · exact fun s => rfl
  · exact hf _ _

theorem keepsRoom_apply (op : Operator) : KeepsRoom op.apply := by
  cases op with
  | drop => exact keepsRoom_pop.bind fun _ s => rfl
  | dup => exact (keepsRoom_pick 0).bind fun v => keepsRoom_push v
  | swap => exact keepsRoom_pop2.bind fun _ => (keepsRoom_push _).bind fun _ => keepsRoom_push _
  | pick =>
      exact (keepsRoom_pick 0).bind fun _ => (keepsRoom_pick _).bind fun _ => keepsRoom_setTop _
  | mul => exact keepsRoom_pop2.bind fun _ => keepsRoom_pushDouble _
  | div => exact keepsRoom_divide fun _ _ => keepsRoom_push _
  | mod => exact keepsRoom_divide fun _ _ => keepsRoom_push _
  | depth => exact fun s => keepsRoom_push _ s
  | mulAdd => exact keepsRoom_pop4.bind fun _ => keepsRoom_pushDouble _
  | equal => exact keepsRoom_binary fun a b => flag (a == b)
  | less => exact keepsRoom_binary fun a b => flag (a < b)
  | unsignedLess => exact keepsRoom_binary fun a b => flag (a.toUInt16 < b.toUInt16)
  | unsignedDivMod =>
      unfold Operator.apply
      exact keepsRoom_divide fun d n => (keepsRoom_push _).bind fun _ => keepsRoom_push _
  | _ => exact keepsRoom_binary _

end StackM

end ThreadedForth
