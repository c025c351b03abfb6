import ThreadedForth.Memory

/-!
# Memories as storage

All that a dictionary does with its memory is to ask for the capacity, and to read and write single
bytes and cells. A `Storage` answers such requests, whatever its states are. In one that is `Bytewise`
the bytes below the capacity are all there is to it: a byte that is written is seen at its address and
nowhere else, the rest reads zero, and a cell is two bytes. Single blocks of memory are so
(`FlatMemory.bytewise_storage`), although they read most cells in one step, and so is every storage
that supplies bytes only and leaves the cells to the two bytes (`ByteAccess.bytewise_storage`).

Two storages with the same capacity and the same bytes cannot be told apart: not by a single request
(`Alike.serve`), not by any sequence of requests (`Alike.serveAll`), nor by a program that chooses each
request after the replies to those before it (`Alike.run`).
-/

set_option autoImplicit false

namespace ThreadedForth

/-- What can be asked of a memory. -/
inductive Storage.Request where
  | capacity
  | readByte (a : Addr)
  | writeByte (a : Addr) (v : UInt8)
  | readCell (a : Addr)
  | writeCell (a : Addr) (v : Cell)

/-- The values that a request can return. -/
def Storage.Request.Reply : Storage.Request → Type
  | capacity => Nat
  | readByte _ => UInt8
  | readCell _ => Cell
  | writeByte _ _ | writeCell _ _ => Unit

/-- How the requests are answered, with `σ` for the states of the memory. -/
structure Storage (σ : Type) where
  capacity : σ → Nat
  readByte : σ → Addr → UInt8
  writeByte : σ → Addr → UInt8 → σ
  readCell : σ → Addr → Cell
  writeCell : σ → Addr → Cell → σ

namespace Storage

variable {σ τ : Type}

/-- The reply to a request, and the state after it. -/
def serve (S : Storage σ) : (r : Request) → σ → r.Reply × σ
  | .capacity, s => (S.capacity s, s)
  | .readByte a, s => (S.readByte s a, s)
  | .writeByte a v, s => ((), S.writeByte s a v)
  | .readCell a, s => (S.readCell s a, s)
  | .writeCell a v, s => ((), S.writeCell s a v)

/-- The replies to one request after the other, and the state after all of them. -/
def serveAll (S : Storage σ) : List Request → σ → List (Σ r : Request, r.Reply) × σ
  | [], s => ([], s)
  | r :: rs, s =>
    let (reply, s') := S.serve r s
    let (replies, s'') := serveAll S rs s'
    (⟨r, reply⟩ :: replies, s'')

/-- There is nothing to a storage but the bytes below its capacity. -/
structure Bytewise (S : Storage σ) : Prop where
  capacity_writeByte : ∀ s a v, S.capacity (S.writeByte s a v) = S.capacity s
  readByte_of_capacity_le : ∀ s a, S.capacity s ≤ a.toNat → S.readByte s a = 0
  readByte_writeByte : ∀ s a b v,
    S.readByte (S.writeByte s a v) b = if b = a ∧ a.toNat < S.capacity s then v else S.readByte s b
  readCell_eq : ∀ s a, S.readCell s a = Cell.ofBytes (S.readByte s a) (S.readByte s (a + 1))
  writeCell_eq : ∀ s a v, S.writeCell s a v =
    S.writeByte (S.writeByte s a (Cell.lowByte v)) (a + 1) (Cell.highByte v)

end Storage

/-! ## Storages that are bytewise -/

/-- Access to single bytes below a capacity. Reads past the end return zero, and writes past the end
change nothing. -/
structure ByteAccess (σ : Type) where
  capacity : σ → Nat
  readByte : σ → Addr → UInt8
  writeByte : σ → Addr → UInt8 → σ
  capacity_writeByte : ∀ s a v, capacity (writeByte s a v) = capacity s
  readByte_of_capacity_le : ∀ s a, capacity s ≤ a.toNat → readByte s a = 0
  readByte_writeByte : ∀ s a b v,
    readByte (writeByte s a v) b = if b = a ∧ a.toNat < capacity s then v else readByte s b

/-- The storage in which a cell is accessed as two bytes, one after the other. -/
def ByteAccess.storage {σ : Type} (B : ByteAccess σ) : Storage σ where
  capacity := B.capacity
  readByte := B.readByte
  writeByte := B.writeByte
  readCell s a := Cell.ofBytes (B.readByte s a) (B.readByte s (a + 1))
  writeCell s a v := B.writeByte (B.writeByte s a (Cell.lowByte v)) (a + 1) (Cell.highByte v)

theorem ByteAccess.bytewise_storage {σ : Type} (B : ByteAccess σ) : B.storage.Bytewise where
  capacity_writeByte := B.capacity_writeByte
  readByte_of_capacity_le := B.readByte_of_capacity_le
  readByte_writeByte := B.readByte_writeByte
  readCell_eq _ _ := rfl
  writeCell_eq _ _ _ := rfl

/-- A single block of memory. It reads a cell that lies in the block in one step. -/
def FlatMemory.storage : Storage FlatMemory where
  capacity := FlatMemory.capacity
  readByte := FlatMemory.readByte
  writeByte := FlatMemory.writeByte
  readCell := FlatMemory.readCell
  writeCell m a v := (m.writeByte a (Cell.lowByte v)).writeByte (a + 1) (Cell.highByte v)

theorem FlatMemory.bytewise_storage : FlatMemory.storage.Bytewise where
  capacity_writeByte := FlatMemory.capacity_writeByte
  readByte_of_capacity_le _ _ := FlatMemory.readByte_of_capacity_le
  readByte_writeByte := FlatMemory.readByte_writeByte
  readCell_eq := FlatMemory.readCell_eq
  writeCell_eq _ _ _ := rfl

/-- The bytes of a sparse memory. -/
def SparseMemory.access : ByteAccess SparseMemory where
  capacity := SparseMemory.capacity
  readByte := SparseMemory.readByte
  writeByte := SparseMemory.writeByte
  capacity_writeByte := SparseMemory.capacity_writeByte
  readByte_of_capacity_le _ _ := SparseMemory.readByte_of_capacity_le
  readByte_writeByte := SparseMemory.readByte_writeByte

/-- A memory in either of the two layouts. -/
def Memory.storage : Storage Memory where
  capacity := Memory.capacity
  readByte := Memory.readByte
  writeByte := Memory.writeByte
  readCell := Memory.readCell
  writeCell := Memory.writeCell

theorem Memory.bytewise_storage : Memory.storage.Bytewise where
  capacity_writeByte := Memory.capacity_writeByte
  readByte_of_capacity_le _ _ := Memory.readByte_of_capacity_le
  readByte_writeByte := Memory.readByte_writeByte
  readCell_eq := Memory.readCell_eq
  writeCell_eq _ _ _ := rfl

/-! ## Storages that hold the same -/

/-- Two storages have the same capacity and hold the same bytes. -/
structure Alike {σ τ : Type} (S : Storage σ) (T : Storage τ) (s : σ) (t : τ) : Prop where
  capacity_eq : S.capacity s = T.capacity t
  readByte_eq : ∀ a : Addr, a.toNat < S.capacity s → S.readByte s a = T.readByte t a

namespace Alike

variable {σ τ : Type} {S : Storage σ} {T : Storage τ} {s : σ} {t : τ}

/-- The same byte is read at every address, also past the end. -/
theorem readByte (hS : S.Bytewise) (hT : T.Bytewise) (h : Alike S T s t) (a : Addr) :
    S.readByte s a = T.readByte t a := by
  by_cases ha : a.toNat < S.capacity s
  · exact h.readByte_eq a ha
  · have hle := Nat.le_of_not_lt ha
    rw [hS.readByte_of_capacity_le s a hle,
      hT.readByte_of_capacity_le t a (by rw [← h.capacity_eq]; exact hle)]

theorem readCell (hS : S.Bytewise) (hT : T.Bytewise) (h : Alike S T s t) (a : Addr) :
    S.readCell s a = T.readCell t a := by
  rw [hS.readCell_eq, hT.readCell_eq, h.readByte hS hT a, h.readByte hS hT (a + 1)]

theorem writeByte (hS : S.Bytewise) (hT : T.Bytewise) (h : Alike S T s t) (a : Addr) (v : UInt8) :
    Alike S T (S.writeByte s a v) (T.writeByte t a v) where
  capacity_eq := by rw [hS.capacity_writeByte, hT.capacity_writeByte, h.capacity_eq]
  readByte_eq b _ := by
    rw [hS.readByte_writeByte, hT.readByte_writeByte, h.capacity_eq, h.readByte hS hT b]

theorem writeCell (hS : S.Bytewise) (hT : T.Bytewise) (h : Alike S T s t) (a : Addr) (v : Cell) :
    Alike S T (S.writeCell s a v) (T.writeCell t a v) := by
  rw [hS.writeCell_eq, hT.writeCell_eq]
  exact (h.writeByte hS hT a _).writeByte hS hT (a + 1) _

/-- A request has the same reply, and what holds the same before it does so after it. -/
theorem serve (hS : S.Bytewise) (hT : T.Bytewise) (h : Alike S T s t) (r : Storage.Request) :
    (S.serve r s).1 = (T.serve r t).1 ∧ Alike S T (S.serve r s).2 (T.serve r t).2 := by
  cases r with
  | capacity => exact ⟨h.capacity_eq, h⟩
  | readByte a => exact ⟨h.readByte hS hT a, h⟩
  | writeByte a v => exact ⟨rfl, h.writeByte hS hT a v⟩
  | readCell a => exact ⟨h.readCell hS hT a, h⟩
  | writeCell a v => exact ⟨rfl, h.writeCell hS hT a v⟩

theorem serveAll (hS : S.Bytewise) (hT : T.Bytewise) (h : Alike S T s t) (rs : List Storage.Request) :
    (S.serveAll rs s).1 = (T.serveAll rs t).1 ∧
      Alike S T (S.serveAll rs s).2 (T.serveAll rs t).2 := by
  induction rs generalizing s t with
  | nil => exact ⟨rfl, h⟩
  | cons r rs ih =>
      obtain ⟨hreply, hnext⟩ := h.serve hS hT r
      obtain ⟨hreplies, hlast⟩ := ih hnext
      refine ⟨?_, hlast⟩
      simp only [Storage.serveAll, hreply, hreplies]

end Alike

/-! ## Programs of requests -/

/-- A program that makes requests. What it does next depends on the replies so far. -/
inductive Access (α : Type) where
  | done (a : α)
  | ask (r : Storage.Request) (next : r.Reply → Access α)

namespace Access

variable {α β σ τ : Type}

/-- The value of a program in a storage, and the state after it. -/
def run (S : Storage σ) : Access α → σ → α × σ
  | done a, s => (a, s)
  | ask r next, s => run S (next (S.serve r s).1) (S.serve r s).2

/-- One program after the other. -/
def bind : Access α → (α → Access β) → Access β
  | done a, f => f a
  | ask r next, f => ask r fun reply => bind (next reply) f

theorem run_bind (S : Storage σ) (p : Access α) (f : α → Access β) (s : σ) :
    (p.bind f).run S s = (f (p.run S s).1).run S (p.run S s).2 := by
  induction p generalizing s with
  | done a => rfl
  | ask r next ih => exact ih _ _

end Access

/-- A program has the same value in storages that hold the same, and they do so after it. -/
theorem Alike.run {α σ τ : Type} {S : Storage σ} {T : Storage τ} {s : σ} {t : τ} (hS : S.Bytewise)
    (hT : T.Bytewise) (h : Alike S T s t) (p : Access α) :
    (p.run S s).1 = (p.run T t).1 ∧ Alike S T (p.run S s).2 (p.run T t).2 := by
  induction p generalizing s t with
  | done a => exact ⟨rfl, h⟩
  | ask r next ih =>
      obtain ⟨hreply, hnext⟩ := h.serve hS hT r
      rw [Access.run, Access.run, hreply]
      exact ih _ hnext

end ThreadedForth
