import ThreadedForth.Cell

/-!
# Bounded stacks

A stack of cells with a fixed capacity. The list of its cells, top first, is the whole view of a
stack; the number of cells is kept beside the list, so that a push need not count them. `push?`
fails exactly on a full stack and the others exactly where a cell is missing, and an operation
that fails has no new stack, so nothing is lost.
-/

set_option autoImplicit false

namespace ThreadedForth

/-- At most `capacity` cells. -/
structure Stack where
  capacity : Nat
  /-- The cells, top first. -/
  cells : List Cell
  /-- The number of cells. -/
  depth : Nat
  depth_eq : depth = cells.length
  depth_le : depth ≤ capacity

namespace Stack

/-- A stack without cells. -/
def empty (capacity : Nat) : Stack := ⟨capacity, [], 0, rfl, Nat.zero_le _⟩

/-- The cells, bottom first. -/
def toList (s : Stack) : List Cell := s.cells.reverse

/-- Puts a cell on top, if there is room. -/
def push? (v : Cell) : Stack → Option Stack
  | ⟨n, vs, k, hk, _⟩ =>
    if h : k < n then some ⟨n, v :: vs, k + 1, congrArg Nat.succ hk, h⟩ else none

/-- Takes the top cell off. -/
def pop? : Stack → Option (Cell × Stack)
  | ⟨_, [], _, _, _⟩ => none
  | ⟨n, v :: vs, k, hk, h⟩ =>
    some (v, ⟨n, vs, k - 1, congrArg Nat.pred hk, Nat.le_trans (Nat.pred_le k) h⟩)

/-- The cell so many places below the top; zero places below is the top itself. -/
def pick? (s : Stack) (n : Nat) : Option Cell := s.cells[n]?

/-- Replaces the top cell. -/
def setTop? (v : Cell) : Stack → Option Stack
  | ⟨_, [], _, _, _⟩ => none
  | ⟨n, _ :: vs, k, hk, h⟩ => some ⟨n, v :: vs, k, hk, h⟩

/-- The stack without its top `n` cells. -/
def drop (s : Stack) (n : Nat) : Stack :=
  ⟨s.capacity, s.cells.drop n, s.depth - n, by rw [List.length_drop, s.depth_eq],
    Nat.le_trans (Nat.sub_le _ _) s.depth_le⟩

/-- The stack without any of its cells. -/
def clear (s : Stack) : Stack := empty s.capacity

@[ext] theorem ext {s t : Stack} (hn : s.capacity = t.capacity) (hc : s.cells = t.cells) :
    s = t := by
  obtain ⟨n, vs, k, hk, hl⟩ := s
  obtain ⟨n', vs', k', hk', hl'⟩ := t
  obtain rfl : n = n' := hn
  obtain rfl : vs = vs' := hc
  obtain rfl : k = k' := hk.trans hk'.symm
  rfl

/-- A stack can hold its own cells. -/
theorem length_le (s : Stack) : s.cells.length ≤ s.capacity := s.depth_eq ▸ s.depth_le

@[simp] theorem cells_drop (s : Stack) (n : Nat) : (s.drop n).cells = s.cells.drop n := rfl

@[simp] theorem capacity_drop (s : Stack) (n : Nat) : (s.drop n).capacity = s.capacity := rfl

theorem push?_eq_none_iff {s : Stack} {v : Cell} : s.push? v = none ↔ s.depth = s.capacity := by
  have := s.depth_le
  simp [push?]
  omega

theorem pop?_eq_none_iff {s : Stack} : s.pop? = none ↔ s.depth = 0 := by
  rcases s with ⟨n, _ | ⟨v, vs⟩, k, hk, h⟩ <;> simp [pop?, hk]

/-- A push puts its cell on top of the others. -/
theorem cells_of_push? {s t : Stack} {v : Cell} (h : s.push? v = some t) :
    t.cells = v :: s.cells := by
  simp only [push?] at h
  split at h
  · cases h
    rfl
  · cases h

/-- What was pushed last is popped first, and the stack below it is as it was. -/
theorem pop?_of_push? {s t : Stack} {v : Cell} (h : s.push? v = some t) :
    t.pop? = some (v, s) := by
  simp only [push?] at h
  split at h
  · cases h
    rfl
  · cases h

end Stack

end ThreadedForth
