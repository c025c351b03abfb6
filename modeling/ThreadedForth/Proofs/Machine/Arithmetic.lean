import ThreadedForth.Proofs.Arithmetic
import ThreadedForth.Proofs.Machine.Words

/-!
# Double-cell arithmetic

What multiplication and division leave on the data stack, as numbers. `Replaces` says what some items
do wherever they stand, in source text or in compiled code: they take arguments and leave results, and
nothing else changes. It is put together item by item (`Item.Leads`). The main result,
`double_cell_arithmetic`, tells so of the five operators that work on double cells, and of two
programs in which one of them undoes another.
-/

set_option autoImplicit false

namespace ThreadedForth

namespace Item

/-- Whether the item is no word. -/
def isPlain : Item → Bool
  | word _ _ => false
  | _ => true

/-- Plain items lead from some cells to others, with room for so many. -/
inductive Leads (capacity : Nat) : List Item → List Cell → List Cell → Prop
  | nil {vs : List Cell} : Leads capacity [] vs vs
  | literal {v : Cell} {is : List Item} {vs ws : List Cell} (room : vs.length < capacity)
      (rest : Leads capacity is (v :: vs) ws) : Leads capacity (.literal v :: is) vs ws
  | operator {op : Operator} {is : List Item} {vs us ws : List Cell} (effect : op.effect? vs = some us)
      (room : us.length ≤ capacity) (rest : Leads capacity is us ws) :
      Leads capacity (.operator op :: is) vs ws

/-- What the items lead to is what they leave. -/
theorem Leads.leaves {is : List Item} {s : Stack} {ws : List Cell}
    (h : Leads s.capacity is s.cells ws) : StackM.Leaves (runItems is) s ws := by
  generalize hvs : s.cells = vs at h
  generalize hcap : s.capacity = capacity at h
  induction h generalizing s with
  | nil =>
      rw [runItems]
      exact ⟨s, rfl, hvs, rfl⟩
  | @literal v is vs ws room rest ih =>
      subst hvs hcap
      rw [runItems, run]
      exact (StackM.leaves_push room).bind fun t hcells hcap => ih hcells hcap
  | operator effect room rest ih =>
      subst hvs hcap
      rw [runItems, run]
      exact (Operator.leaves_apply effect room).bind fun t hcells hcap => ih hcells hcap

theorem depthOfItems_eq_zero {is : List Item} (h : is.all isPlain) : depthOfItems is = 0 := by
  induction is with
  | nil => rw [depthOfItems]
  | cons i is ih =>
      rw [List.all_cons, Bool.and_eq_true] at h
      rw [depthOfItems, ih h.2, Nat.max_zero]
      cases i with
      | literal v => rw [depth]
      | operator op => rw [depth]
      | word body items => cases h.1

theorem hasWord_of_isPlain {i : Item} (h : i.isPlain) (d : Dictionary) (limit : Nat) :
    d.HasWord limit i := by
  cases i with
  | literal v => trivial
  | operator op => trivial
  | word body items => cases h

end Item

namespace Machine

variable {H : Type} (hooks : Hooks H) (call : Interpreter H)

/-- Items take the arguments from the data stack and leave the results, if there is room for so many
cells more. -/
structure Replaces (is : List Item) (args results : List Cell) (room : Nat) : Prop where
  /-- What stands for them in source text is interpreted. -/
  written : ∀ (d : Dictionary) (ws : List Written) (s returns : Stack) (host : H) (vs : List Cell),
    DenotesAll d ws is → d.compiling = false → s.cells = args ++ vs →
      s.cells.length + room ≤ s.capacity → ∃ s' : Stack, s'.cells = results ++ vs ∧
        s'.capacity = s.capacity ∧ ∃ k, ∀ n, ws.forM (interpretWritten hooks call (n + k))
          ⟨d, s, returns, 0, host⟩ = .ok () ⟨d, s', returns, 0, host⟩
  /-- Their code is run. -/
  compiled : ∀ (d : Dictionary) (limit : Nat) (a b : Addr) (s returns : Stack) (host : H)
    (vs : List Cell), d.ItemsAt limit is a b → Layout.firstEntry ≤ a → s.cells = args ++ vs →
      s.cells.length + room ≤ s.capacity → ∃ s' : Stack, s'.cells = results ++ vs ∧
        s'.capacity = s.capacity ∧
        Goes hooks call ⟨d, s, returns, a, host⟩ ⟨d, s', returns, b, host⟩

variable {hooks call} {is : List Item} {args results : List Cell} {room : Nat}

theorem replaces_of_leads (hplain : is.all Item.isPlain)
    (h : ∀ capacity vs, args.length + vs.length + room ≤ capacity →
      Item.Leads capacity is (args ++ vs) (results ++ vs)) :
    Replaces hooks call is args results room := by
  have hdepth := Item.depthOfItems_eq_zero hplain
  have hleaves : ∀ (s : Stack) (vs : List Cell), s.cells = args ++ vs →
      s.cells.length + room ≤ s.capacity → StackM.Leaves (Item.runItems is) s (results ++ vs) := by
    intro s vs hs hroom
    apply Item.Leads.leaves
    rw [hs, List.length_append] at hroom
    rw [hs]
    exact h s.capacity vs hroom
  constructor
  · intro d ws s returns host vs hdenotes hcompiling hs hroom
    obtain ⟨s', hrun, hcells, hcap⟩ := hleaves s vs hs hroom
    have hwords : ∀ i ∈ is, d.HasWord 0 i := fun i hi =>
      Item.hasWord_of_isPlain (List.all_eq_true.1 hplain i hi) d 0
    obtain ⟨k, hk⟩ := exists_forM_interpretWritten_endsAs hooks call hdenotes hcompiling hwords s
      returns host (by rw [hdepth]; exact returns.depth_le)
    rw [hrun] at hk
    exact ⟨s', hcells, hcap, k, hk⟩
  · intro d limit a b s returns host vs hitems ha hs hroom
    obtain ⟨s', hrun, hcells, hcap⟩ := hleaves s vs hs hroom
    have hdoes : Does hooks call d (Item.depthOfItems is) a b s (Item.runItems is s) :=
      does_of_itemsAt hitems (UInt16.le_iff_toNat_le.1 ha) s
    rw [hrun] at hdoes
    exact ⟨s', hcells, hcap, hdoes returns host (by rw [hdepth]; exact returns.depth_le)⟩

/-- An operator that leaves no more cells than it takes. -/
theorem replaces_operator {op : Operator}
    (h : ∀ vs, op.effect? (args ++ vs) = some (results ++ vs))
    (hle : results.length ≤ args.length) : Replaces hooks call [.operator op] args results 0 := by
  refine replaces_of_leads rfl fun capacity vs hroom => .operator (h vs) ?_ .nil
  rw [List.length_append]
  omega

/-! ## Products and quotients -/

section Values

variable (hooks : Hooks H) (call : Interpreter H) (a b low high factor summand : Cell)

theorem replaces_mul : ∃ low high, Replaces hooks call [.operator .mul] [b, a] [high, low] 0 ∧
    (DoubleCell.ofCells low high).toNat = a.toUInt16.toNat * b.toUInt16.toNat := by
  refine ⟨_, _, replaces_operator (fun vs => rfl) (Nat.le_refl 2), ?_⟩
  rw [DoubleCell.ofCells_toCells, Operator.toNat_product]

theorem replaces_mulAdd : ∃ low' high',
    Replaces hooks call [.operator .mulAdd] [summand, factor, high, low] [high', low'] 0 ∧
      (DoubleCell.ofCells low' high').toNat = ((DoubleCell.ofCells low high).toNat *
        factor.toUInt16.toNat + summand.toUInt16.toNat) % 4294967296 := by
  refine ⟨_, _, replaces_operator (fun vs => rfl) (by decide : 2 ≤ 4), ?_⟩
  rw [DoubleCell.ofCells_toCells, Operator.toNat_mulAdd]

variable {n : Cell}

theorem replaces_unsignedDivMod (hn : n ≠ 0) : ∃ quotient remainder,
    Replaces hooks call [.operator .unsignedDivMod] [n, high, low] [quotient, remainder] 0 ∧
      remainder.toUInt16.toNat = (DoubleCell.ofCells low high).toNat % n.toUInt16.toNat ∧
      quotient.toUInt16.toNat =
        (DoubleCell.ofCells low high).toNat / n.toUInt16.toNat % 65536 ∧
      (high.toUInt16 < n.toUInt16 → (DoubleCell.ofCells low high).toNat =
        quotient.toUInt16.toNat * n.toUInt16.toNat + remainder.toUInt16.toNat ∧
          remainder.toUInt16 < n.toUInt16) := by
  refine ⟨_, _, replaces_operator (fun vs => Operator.effect?_unsignedDivMod hn) (by decide : 2 ≤ 3),
    Operator.toNat_unsignedRemainder hn, Operator.toNat_unsignedQuotient, fun h => ⟨?_, ?_⟩⟩
  · exact Operator.toNat_ofCells_eq h
  · rw [UInt16.lt_iff_toNat_lt, Operator.toNat_unsignedRemainder hn]
    exact Nat.mod_lt _ (Operator.toNat_pos hn)

theorem replaces_div (hn : n ≠ 0) : ∃ quotient,
    Replaces hooks call [.operator .div] [n, high, low] [quotient] 0 ∧ quotient.toInt =
      ((DoubleCell.ofCells low high).toInt32.toInt.tdiv n.toInt).bmod 65536 :=
  ⟨_, replaces_operator (fun vs => Operator.effect?_div hn) (by decide : 1 ≤ 3),
    Operator.toInt_signedQuotient⟩

theorem replaces_mod (hn : n ≠ 0) : ∃ remainder,
    Replaces hooks call [.operator .mod] [n, high, low] [remainder] 0 ∧
      remainder.toInt = (DoubleCell.ofCells low high).toInt32.toInt.tmod n.toInt ∧
      remainder.toInt.natAbs < n.toInt.natAbs ∧
      (remainder = 0 ∨
        (remainder.toInt < 0 ↔ (DoubleCell.ofCells low high).toInt32.toInt < 0)) := by
  have hvalue := Operator.toInt_signedRemainder (d := .ofCells low high) hn
  refine ⟨_, replaces_operator (fun vs => Operator.effect?_mod hn) (by decide : 1 ≤ 3), hvalue, ?_, ?_⟩
  · rw [hvalue]
    exact Operator.natAbs_tmod_lt hn _
  · rw [hvalue, ← Int16.toInt_inj, hvalue]
    exact Operator.tmod_eq_zero_or_neg_iff _ _

/-! ## Products that are undone -/

/-- A product is divided by one of its factors. -/
theorem replaces_mul_unsignedDivMod (hb : b ≠ 0) : Replaces hooks call
    [.literal a, .literal b, .operator .mul, .literal b, .operator .unsignedDivMod] [] [a, 0] 3 := by
  refine replaces_of_leads rfl fun capacity vs hroom => ?_
  rw [List.length_nil] at hroom
  have hdivides : Operator.unsignedDivMod.effect? (b :: Operator.pushed (Operator.product a b) vs) =
      some (a :: 0 :: vs) := by
    rw [Operator.effect?_unsignedDivMod_pushed hb, (Operator.divided_product a b hb).1,
      (Operator.divided_product a b hb).2]
  refine .literal (by simp; omega) (.literal (by simp; omega) ?_)
  refine .operator rfl (by simp [Operator.pushed]; omega) ?_
  refine .literal (by simp [Operator.pushed]; omega) ?_
  exact .operator hdivides (by simp; omega) .nil

/-- A digit is added to a multiple of the base, and what comes of it is divided by the base. -/
theorem replaces_mulAdd_unsignedDivMod {m : Cell} (d a : Cell) (h : a.toUInt16 < m.toUInt16) :
    Replaces hooks call [.literal d, .literal 0, .literal m, .literal a, .operator .mulAdd,
      .literal m, .operator .unsignedDivMod] [] [d, a] 4 := by
  have hm : m ≠ 0 := by
    rintro rfl
    exact absurd (UInt16.lt_iff_toNat_lt.1 h) (Nat.not_lt_zero _)
  refine replaces_of_leads rfl fun capacity vs hroom => ?_
  rw [List.length_nil] at hroom
  have hdivides : Operator.unsignedDivMod.effect? (m :: Operator.pushed
      (.ofCells d 0 * m.toUInt16.toUInt32 + a.toUInt16.toUInt32) vs) = some (d :: a :: vs) := by
    rw [Operator.effect?_unsignedDivMod_pushed hm, (Operator.divided_mulAdd a d h).1,
      (Operator.divided_mulAdd a d h).2]
  refine .literal (by simp; omega) (.literal (by simp; omega) ?_)
  refine .literal (by simp; omega) (.literal (by simp; omega) ?_)
  refine .operator rfl (by simp [Operator.pushed]; omega) ?_
  refine .literal (by simp [Operator.pushed]; omega) ?_
  exact .operator hdivides (by simp; omega) .nil

end Values

/-- Double-cell arithmetic is exact, in source text and in compiled code. Lists of cells are told from
the top of the stack down; a double cell is a low cell under a high one. -/
theorem double_cell_arithmetic (hooks : Hooks H) (call : Interpreter H) :
    (∀ a b, ∃ low high, Replaces hooks call [.operator .mul] [b, a] [high, low] 0 ∧
      (DoubleCell.ofCells low high).toNat = a.toUInt16.toNat * b.toUInt16.toNat) ∧
    (∀ low high factor summand, ∃ low' high',
      Replaces hooks call [.operator .mulAdd] [summand, factor, high, low] [high', low'] 0 ∧
      (DoubleCell.ofCells low' high').toNat = ((DoubleCell.ofCells low high).toNat *
        factor.toUInt16.toNat + summand.toUInt16.toNat) % 4294967296) ∧
    (∀ low high n, n ≠ 0 → ∃ quotient remainder,
      Replaces hooks call [.operator .unsignedDivMod] [n, high, low] [quotient, remainder] 0 ∧
      remainder.toUInt16.toNat = (DoubleCell.ofCells low high).toNat % n.toUInt16.toNat ∧
      quotient.toUInt16.toNat =
        (DoubleCell.ofCells low high).toNat / n.toUInt16.toNat % 65536 ∧
      (high.toUInt16 < n.toUInt16 → (DoubleCell.ofCells low high).toNat =
        quotient.toUInt16.toNat * n.toUInt16.toNat + remainder.toUInt16.toNat ∧
          remainder.toUInt16 < n.toUInt16)) ∧
    (∀ low high n, n ≠ 0 → ∃ quotient,
      Replaces hooks call [.operator .div] [n, high, low] [quotient] 0 ∧ quotient.toInt =
        ((DoubleCell.ofCells low high).toInt32.toInt.tdiv n.toInt).bmod 65536) ∧
    (∀ low high n, n ≠ 0 → ∃ remainder,
      Replaces hooks call [.operator .mod] [n, high, low] [remainder] 0 ∧
      remainder.toInt = (DoubleCell.ofCells low high).toInt32.toInt.tmod n.toInt ∧
      remainder.toInt.natAbs < n.toInt.natAbs ∧
      (remainder = 0 ∨
        (remainder.toInt < 0 ↔ (DoubleCell.ofCells low high).toInt32.toInt < 0))) ∧
    (∀ a b, b ≠ 0 → Replaces hooks call
      [.literal a, .literal b, .operator .mul, .literal b, .operator .unsignedDivMod] [] [a, 0] 3) ∧
    (∀ d m a : Cell, a.toUInt16 < m.toUInt16 → Replaces hooks call
      [.literal d, .literal 0, .literal m, .literal a, .operator .mulAdd, .literal m,
        .operator .unsignedDivMod] [] [d, a] 4) := by
  refine ⟨?_, ?_, ?_, ?_, ?_, ?_, ?_⟩
  · exact replaces_mul hooks call
  · exact replaces_mulAdd hooks call
  · exact fun low high n hn => replaces_unsignedDivMod hooks call low high hn
  · exact fun low high n hn => replaces_div hooks call low high hn
  · exact fun low high n hn => replaces_mod hooks call low high hn
  · exact fun a b hb => replaces_mul_unsignedDivMod hooks call a b hb
  · exact fun d m a h => replaces_mulAdd_unsignedDivMod hooks call d a h

/-- A machine before a line with the names of three operators. -/
def reckoningMachine : Machine Unit := lastState <|
  (onDictionary (Dictionary.loadInput (Text.encode "_/ * um/mod")) : MachineM Unit Unit)
  (ofDictionary (.setUp ⟨.sparse (.zeros 1024)⟩) () {})

/-- A product and its division by a factor, as they are written with names from the line. -/
def undoneProduct : List (Written × Item) :=
  [(.number (-300), .literal (-300)), (.number 700, .literal 700),
    (.name (.ofLength 19 1), .operator .mul), (.number 700, .literal 700),
    (.name (.ofLength 21 6), .operator .unsignedDivMod)]

theorem reckoningMachine_eq :
    reckoningMachine.dictionary.compiling = false ∧
      Denotes reckoningMachine.dictionary (.name (.ofLength 16 2)) (.operator .div) ∧
      ∀ p ∈ undoneProduct, Denotes reckoningMachine.dictionary p.1 p.2 := by
  decide +kernel

/-- The least double cell divided by minus one, where the quotient does not fit, and a product that is
undone. -/
theorem double_cell_arithmetic_rare :
    (∃ k, ∀ n, ∃ s : Stack, s.cells = [0] ∧
      [Written.name (.ofLength 16 2)].forM (interpretWritten {} (interpreter {} 20) (n + k))
        (⟨reckoningMachine.dictionary, ⟨3, [-1, -32768, 0], 3, rfl, by decide⟩, .empty 0, 0, ()⟩ :
          Machine Unit) = .ok () ⟨reckoningMachine.dictionary, s, .empty 0, 0, ()⟩) ∧
    ∃ k, ∀ n, ∃ s : Stack, s.cells = [-300, 0] ∧
      (undoneProduct.map Prod.fst).forM (interpretWritten {} (interpreter {} 20) (n + k))
        (⟨reckoningMachine.dictionary, .empty 3, .empty 0, 0, ()⟩ : Machine Unit) =
          .ok () ⟨reckoningMachine.dictionary, s, .empty 0, 0, ()⟩ := by
  obtain ⟨hcompiling, hdivide, hundone⟩ := reckoningMachine_eq
  obtain ⟨-, -, -, hdiv, -, hproduct, -⟩ := double_cell_arithmetic (H := Unit) {} (interpreter {} 20)
  constructor
  · obtain ⟨quotient, hreplaces, hvalue⟩ := hdiv 0 (-32768) (-1) (by decide)
    obtain rfl : quotient = 0 := Int16.toInt_inj.1 (hvalue.trans (by decide))
    obtain ⟨s, hcells, -, k, hk⟩ := hreplaces.written reckoningMachine.dictionary _
      ⟨3, [-1, -32768, 0], 3, rfl, by decide⟩ (.empty 0) () [] (.cons hdivide .nil) hcompiling rfl
      (by decide)
    exact ⟨k, fun n => ⟨s, hcells, hk n⟩⟩
  · obtain ⟨s, hcells, -, k, hk⟩ := (hproduct (-300) 700 (by decide)).written
      reckoningMachine.dictionary _ (.empty 3) (.empty 0) () [] (denotesAll_of_forall hundone)
      hcompiling rfl (by decide)
    exact ⟨k, fun n => ⟨s, hcells, hk n⟩⟩

end Machine

end ThreadedForth
