import ThreadedForth.Prelude
import ThreadedForth.Proofs.Arithmetic
import ThreadedForth.Proofs.Machine.Keywords
import ThreadedForth.Proofs.Machine.Reaches

/-!
# Stack words

The words of the standard vocabulary that work on the data stack alone (`StackWord`). Each is a small
program made of numbers, operators and other such words (`StackWord.body`), which may park a cell on
the return stack meanwhile. What a word is for is told by its effect on the cells
(`StackWord.effect?`), with numbers in place of cells.

`Runs` is the meaning of such a program, told with the effects of the words that it calls. That the
body of each word has the effect of the word is a computation with lists (`StackWord.runs_body`). Code
comes to where its program comes to (`reaches_of_runs`), and a word that is called does so by
induction on the room that the calls have left on the return stack (`reaches_word`). The main result
is `execute_stackWord`.
-/

set_option autoImplicit false

namespace ThreadedForth

/-- A word that works on the data stack. -/
inductive StackWord where
  | rot | nip
  /-- `over` -/
  | over_
  /-- `2dup` -/
  | twoDup
  /-- `2drop` -/
  | twoDrop
  /-- `1+` -/
  | increment
  /-- `1-` -/
  | decrement
  | cells | negate | invert
  /-- `abs` -/
  | abs_
  /-- `min` -/
  | min_
  /-- `max` -/
  | max_
  /-- `>` -/
  | greater
  /-- `<>` -/
  | notEqual
  /-- `0=` -/
  | isZero
  /-- `0<` -/
  | isNegative
  /-- `s>d` -/
  | extend
  /-- `/` -/
  | div
  | mod
deriving DecidableEq

instance : Enumerated StackWord where
  values := [.rot, .nip, .over_, .twoDup, .twoDrop, .increment, .decrement, .cells, .negate, .invert,
    .abs_, .min_, .max_, .greater, .notEqual, .isZero, .isNegative, .extend, .div, .mod]
  mem_values w := by cases w <;> decide

/-- A piece of the program of a stack word. -/
inductive Piece where
  | number (v : Cell)
  | operator (op : Operator)
  | word (w : StackWord)
  /-- Moves the top cell to the return stack. -/
  | keep
  /-- Moves it back. -/
  | putBack
  /-- Passes over the next piece if the top cell is zero, and takes it off. -/
  | unlessZero

namespace Piece

variable (kit : StackWord → Addr)

/-- The cells of a piece. The words are called where `kit` says. -/
def cells : Piece → List Cell
  | number v => literalCells v
  | operator op => [operatorCell op]
  | word w => [(kit w).toInt16]
  | keep => [Primitive.toReturn.token.toInt16]
  | putBack => [Primitive.fromReturn.token.toInt16]
  | unlessZero => [Primitive.branchIfZero.token.toInt16, 4]

/-- Whether the piece is passed over as a whole by the jump of `unlessZero`. -/
def isSingle : Piece → Bool
  | operator _ => true
  | word _ => true
  | _ => false

end Piece

namespace StackWord

/-- The program of a stack word. -/
def body : StackWord → List Piece
  | rot => [.keep, .operator .swap, .putBack, .operator .swap]
  | over_ => [.number 1, .operator .pick]
  | nip => [.operator .swap, .operator .drop]
  | twoDup => [.word over_, .word over_]
  | twoDrop => [.operator .drop, .operator .drop]
  | increment => [.number 1, .operator .add]
  | decrement => [.number 1, .operator .sub]
  | cells => [.number 2, .operator .mul, .operator .drop]
  | negate => [.number 0, .operator .swap, .operator .sub]
  | abs_ => [.operator .dup, .word isNegative, .unlessZero, .word negate]
  | min_ => [.word twoDup, .word greater, .unlessZero, .operator .swap, .operator .drop]
  | max_ => [.word twoDup, .operator .less, .unlessZero, .operator .swap, .operator .drop]
  | greater => [.operator .swap, .operator .less]
  | notEqual => [.operator .equal, .word isZero]
  | isZero => [.number 0, .operator .equal]
  | isNegative => [.number 0, .operator .less]
  | invert => [.number (-1), .operator .xor]
  | extend => [.operator .dup, .word isNegative]
  | div => [.keep, .word extend, .putBack, .operator .div]
  | mod => [.keep, .word extend, .putBack, .operator .mod]

/-- The code of a stack word. -/
def code (kit : StackWord → Addr) (w : StackWord) : List Cell :=
  w.body.flatMap (Piece.cells kit) ++ [exitCell]

/-- The cells after the word, if it finds its arguments and does not divide by zero. Numbers that do
not fit into a cell are wrapped. -/
def effect? : StackWord → List Cell → Option (List Cell)
  | rot, c :: b :: a :: vs => some (a :: c :: b :: vs)
  | over_, b :: a :: vs => some (a :: b :: a :: vs)
  | nip, b :: _ :: vs => some (b :: vs)
  | twoDup, b :: a :: vs => some (b :: a :: b :: a :: vs)
  | twoDrop, _ :: _ :: vs => some vs
  | increment, a :: vs => some (.ofInt (a.toInt + 1) :: vs)
  | decrement, a :: vs => some (.ofInt (a.toInt - 1) :: vs)
  | cells, a :: vs => some (.ofInt (a.toInt * 2) :: vs)
  | negate, a :: vs => some (.ofInt (-a.toInt) :: vs)
  | abs_, a :: vs => some (.ofInt a.toInt.natAbs :: vs)
  | min_, b :: a :: vs => some (.ofInt (min a.toInt b.toInt) :: vs)
  | max_, b :: a :: vs => some (.ofInt (max a.toInt b.toInt) :: vs)
  | greater, b :: a :: vs => some (flag (b.toInt < a.toInt) :: vs)
  | notEqual, b :: a :: vs => some (flag (a.toInt ≠ b.toInt) :: vs)
  | isZero, a :: vs => some (flag (a.toInt = 0) :: vs)
  | isNegative, a :: vs => some (flag (a.toInt < 0) :: vs)
  | invert, a :: vs => some (~~~a :: vs)
  | extend, a :: vs => some (Operator.pushed a.toInt32.toUInt32 vs)
  | div, b :: a :: vs => if b = 0 then none else some (.ofInt (a.toInt.tdiv b.toInt) :: vs)
  | mod, b :: a :: vs => if b = 0 then none else some (.ofInt (a.toInt.tmod b.toInt) :: vs)
  | _, _ => none

/-- How many cells more than before are on the data stack at some time. -/
def dataRoom : StackWord → Nat
  | twoDup | min_ | max_ | extend | abs_ => 2
  | over_ | increment | decrement | cells | negate | isZero | isNegative | invert | div | mod => 1
  | rot | nip | twoDrop | greater | notEqual => 0

/-- How many cells the word puts on the return stack, return addresses of its calls included. -/
def returnRoom : StackWord → Nat
  | div | mod => 3
  | min_ | max_ => 2
  | rot | twoDup | notEqual | extend | abs_ => 1
  | _ => 0

end StackWord

/-! ## What programs of stack words do -/

/-- Pieces take the cells of the data stack, and those that are kept on the return stack, to the cells
that they leave, with nothing kept. So many cells fit on the data stack, and so many can be kept. -/
inductive Runs (C R : Nat) : List Piece → List Cell → List Cell → List Cell → Prop
  | done {vs : List Cell} : Runs C R [] vs [] vs
  | number {v : Cell} {ps : List Piece} {vs ks ws : List Cell} (room : vs.length < C)
      (rest : Runs C R ps (v :: vs) ks ws) : Runs C R (.number v :: ps) vs ks ws
  | operator {op : Operator} {ps : List Piece} {vs us ks ws : List Cell}
      (effect : op.effect? vs = some us) (room : us.length ≤ C) (rest : Runs C R ps us ks ws) :
      Runs C R (.operator op :: ps) vs ks ws
  | word {w : StackWord} {ps : List Piece} {vs us ks ws : List Cell}
      (effect : w.effect? vs = some us) (data : vs.length + w.dataRoom ≤ C)
      (returns : ks.length + 1 + w.returnRoom ≤ R) (rest : Runs C R ps us ks ws) :
      Runs C R (.word w :: ps) vs ks ws
  | keep {v : Cell} {ps : List Piece} {vs ks ws : List Cell} (room : ks.length < R)
      (rest : Runs C R ps vs (v :: ks) ws) : Runs C R (.keep :: ps) (v :: vs) ks ws
  | putBack {v : Cell} {ps : List Piece} {vs ks ws : List Cell} (room : vs.length < C)
      (rest : Runs C R ps (v :: vs) ks ws) : Runs C R (.putBack :: ps) vs (v :: ks) ws
  | pass {v : Cell} {ps : List Piece} {vs ks ws : List Cell} (nonzero : v ≠ 0)
      (rest : Runs C R ps vs ks ws) : Runs C R (.unlessZero :: ps) (v :: vs) ks ws
  | skip {p : Piece} {ps : List Piece} {vs ks ws : List Cell} (single : p.isSingle = true)
      (rest : Runs C R ps vs ks ws) : Runs C R (.unlessZero :: p :: ps) (0 :: vs) ks ws

theorem Runs.binary {C R : Nat} {op : Operator} {f : Cell → Cell → Cell} {ps : List Piece} {a b : Cell}
    {vs ks ws : List Cell} (hf : op.binary? = some f) (room : vs.length < C)
    (rest : Runs C R ps (f a b :: vs) ks ws) : Runs C R (.operator op :: ps) (b :: a :: vs) ks ws :=
  .operator (Operator.effect?_of_binary? hf) room rest

namespace StackWord

variable {C : Nat} {a b c v : Cell} {ws : List Cell}

theorem beq_zero (a : Cell) : (a == 0) = decide (a.toInt = 0) := by
  by_cases ha : a = 0
  · rw [ha]
    rfl
  · have hne : ¬ a.toInt = 0 := fun h => ha (Int16.toInt_inj.1 h)
    rw [beq_false_of_ne ha, decide_eq_false hne]

/-- To test the flag of a test is to test for the opposite. -/
theorem effect?_isZero_flag (a b : Cell) (vs : List Cell) :
    effect? isZero (flag (a == b) :: vs) = some (flag (a.toInt ≠ b.toInt) :: vs) := by
  by_cases hab : a = b
  · rw [hab, beq_self_eq_true, decide_eq_false (fun h => h rfl)]
    rfl
  · rw [beq_false_of_ne hab, decide_eq_true (mt Int16.toInt_inj.1 hab)]
    rfl

theorem runs_rot (vs : List Cell) (hroom : vs.length + 3 ≤ C) :
    Runs C 1 (body rot) (c :: b :: a :: vs) [] (a :: c :: b :: vs) := by
  refine .keep (by decide) (.operator rfl (by simp; omega) ?_)
  exact .putBack (by simp; omega) (.operator rfl (by simp; omega) .done)

theorem runs_over (vs : List Cell) (hroom : vs.length + 3 ≤ C) :
    Runs C 0 (body over_) (b :: a :: vs) [] (a :: b :: a :: vs) :=
  .number (by simp; omega) (.operator rfl (by simp; omega) .done)

theorem runs_nip (vs : List Cell) (hroom : vs.length + 2 ≤ C) :
    Runs C 0 (body nip) (b :: a :: vs) [] (b :: vs) :=
  .operator rfl (by simp; omega) (.operator rfl (by simp; omega) .done)

theorem runs_twoDup (vs : List Cell) (hroom : vs.length + 4 ≤ C) :
    Runs C 1 (body twoDup) (b :: a :: vs) [] (b :: a :: b :: a :: vs) := by
  refine .word rfl (by simp [dataRoom]; omega) (Nat.le_refl 1) ?_
  exact .word rfl (by simp [dataRoom]; omega) (Nat.le_refl 1) .done

theorem runs_twoDrop (vs : List Cell) (hroom : vs.length + 2 ≤ C) :
    Runs C 0 (body twoDrop) (b :: a :: vs) [] vs :=
  .operator rfl (by simp; omega) (.operator rfl (by omega) .done)

/-- An operator with two arguments, the upper one of which is a number. -/
theorem runs_number_binary (op : Operator) {f : Cell → Cell → Cell} (hf : op.binary? = some f)
    (vs : List Cell) (hroom : vs.length + 2 ≤ C) :
    Runs C 0 [.number v, .operator op] (a :: vs) [] (f a v :: vs) :=
  .number (by simp; omega) (.binary hf (by omega) .done)

theorem runs_increment (vs : List Cell) (hroom : vs.length + 2 ≤ C) :
    Runs C 0 (body increment) (a :: vs) [] (.ofInt (a.toInt + 1) :: vs) := by
  rw [Int16.ofInt_add, Int16.ofInt_toInt]
  exact runs_number_binary .add rfl vs hroom

theorem runs_decrement (vs : List Cell) (hroom : vs.length + 2 ≤ C) :
    Runs C 0 (body decrement) (a :: vs) [] (.ofInt (a.toInt - 1) :: vs) := by
  rw [Int16.ofInt_sub, Int16.ofInt_toInt]
  exact runs_number_binary .sub rfl vs hroom

theorem runs_isZero (vs : List Cell) (hroom : vs.length + 2 ≤ C) :
    Runs C 0 (body isZero) (a :: vs) [] (flag (a.toInt = 0) :: vs) := by
  rw [← beq_zero]
  exact runs_number_binary .equal rfl vs hroom

theorem runs_isNegative (vs : List Cell) (hroom : vs.length + 2 ≤ C) :
    Runs C 0 (body isNegative) (a :: vs) [] (flag (a.toInt < 0) :: vs) := by
  have hlt : (a.toInt < 0) = (a < 0) := propext (Int16.lt_iff_toInt_lt (y := 0)).symm
  simp only [hlt]
  exact runs_number_binary .less rfl vs hroom

theorem runs_invert (vs : List Cell) (hroom : vs.length + 2 ≤ C) :
    Runs C 0 (body invert) (a :: vs) [] (~~~a :: vs) := by
  rw [← Int16.xor_neg_one]
  exact runs_number_binary .xor rfl vs hroom

/-- Half of a double product is dropped. -/
theorem runs_cells (vs : List Cell) (hroom : vs.length + 2 ≤ C) :
    Runs C 0 (body cells) (a :: vs) [] (.ofInt (a.toInt * 2) :: vs) := by
  rw [← Operator.toCells_product_two]
  refine .number (by simp; omega) (.operator rfl (by simp [Operator.pushed]; omega) ?_)
  exact .operator rfl (by simp; omega) .done

theorem runs_negate (vs : List Cell) (hroom : vs.length + 2 ≤ C) :
    Runs C 0 (body negate) (a :: vs) [] (.ofInt (-a.toInt) :: vs) := by
  rw [Int16.ofInt_neg, Int16.ofInt_toInt, ← Int16.zero_sub]
  refine .number (by simp; omega) (.operator rfl (by simp; omega) ?_)
  exact .binary rfl (by omega) .done

theorem runs_abs (vs : List Cell) (hroom : vs.length + 3 ≤ C) :
    Runs C 1 (body abs_) (a :: vs) [] (.ofInt a.toInt.natAbs :: vs) := by
  refine .operator rfl (by simp; omega) (.word rfl ?_ (Nat.le_refl 1) ?_)
  · simp [dataRoom]
    omega
  -- the flag chooses between the call of `negate` and the exit
  by_cases hneg : a.toInt < 0
  · have hvalue : (a.toInt.natAbs : Int) = -a.toInt := by omega
    rw [decide_eq_true hneg, hvalue]
    exact .pass (by decide) (.word rfl (by simp [dataRoom]; omega) (Nat.le_refl 1) .done)
  · have hvalue : (a.toInt.natAbs : Int) = a.toInt := by omega
    rw [decide_eq_false hneg, hvalue, Int16.ofInt_toInt]
    exact .skip rfl .done

theorem runs_min (vs : List Cell) (hroom : vs.length + 4 ≤ C) :
    Runs C 2 (body min_) (b :: a :: vs) [] (.ofInt (min a.toInt b.toInt) :: vs) := by
  refine .word rfl (by simp [dataRoom]; omega) (Nat.le_refl 2) (.word rfl ?_ (by decide) ?_)
  · simp [dataRoom]
    omega
  -- whichever comes to lie on top is dropped
  by_cases hlt : b.toInt < a.toInt
  · rw [decide_eq_true hlt, Int.min_eq_right (by omega), Int16.ofInt_toInt]
    exact .pass (by decide) (.operator rfl (by simp; omega) (.operator rfl (by simp; omega) .done))
  · rw [decide_eq_false hlt, Int.min_eq_left (by omega), Int16.ofInt_toInt]
    exact .skip rfl (.operator rfl (by simp; omega) .done)

theorem runs_max (vs : List Cell) (hroom : vs.length + 4 ≤ C) :
    Runs C 2 (body max_) (b :: a :: vs) [] (.ofInt (max a.toInt b.toInt) :: vs) := by
  refine .word rfl (by simp [dataRoom]; omega) (Nat.le_refl 2) (.binary rfl (by simp; omega) ?_)
  by_cases hlt : a.toInt < b.toInt
  · rw [decide_eq_true (Int16.lt_iff_toInt_lt.2 hlt), Int.max_eq_right (by omega),
      Int16.ofInt_toInt]
    exact .pass (by decide) (.operator rfl (by simp; omega) (.operator rfl (by simp; omega) .done))
  · rw [decide_eq_false (mt Int16.lt_iff_toInt_lt.1 hlt), Int.max_eq_left (by omega),
      Int16.ofInt_toInt]
    exact .skip rfl (.operator rfl (by simp; omega) .done)

theorem runs_greater (vs : List Cell) (hroom : vs.length + 2 ≤ C) :
    Runs C 0 (body greater) (b :: a :: vs) [] (flag (b.toInt < a.toInt) :: vs) := by
  simp only [← Int16.lt_iff_toInt_lt]
  exact .operator rfl (by simp; omega) (.binary rfl (by omega) .done)

theorem runs_notEqual (vs : List Cell) (hroom : vs.length + 2 ≤ C) :
    Runs C 1 (body notEqual) (b :: a :: vs) [] (flag (a.toInt ≠ b.toInt) :: vs) := by
  refine .binary rfl (by omega) ?_
  exact .word (effect?_isZero_flag a b vs) (by simp [dataRoom]; omega) (Nat.le_refl 1) .done

/-- The upper cell of a double cell tells the sign of the lower one. -/
theorem runs_extend (vs : List Cell) (hroom : vs.length + 3 ≤ C) :
    Runs C 1 (body extend) (a :: vs) [] (Operator.pushed a.toInt32.toUInt32 vs) := by
  rw [Operator.pushed_toUInt32]
  refine .operator rfl (by simp; omega) ?_
  exact .word rfl (by simp [dataRoom]; omega) (Nat.le_refl 1) .done

/-- A division by a signed operator, with the dividend made a double cell. -/
theorem runs_divided {op : Operator} {q : Cell} (vs : List Cell) (hroom : vs.length + 3 ≤ C)
    (heffect : op.effect? (b :: Operator.pushed a.toInt32.toUInt32 vs) = some (q :: vs)) :
    Runs C 3 [.keep, .word extend, .putBack, .operator op] (b :: a :: vs) [] (q :: vs) := by
  -- the divisor is kept under the return address of `s>d`
  refine .keep (by decide) (.word rfl (by simp [dataRoom]; omega) (Nat.le_refl 3) ?_)
  exact .putBack (by simp [Operator.pushed]; omega) (.operator heffect (by simp; omega) .done)

theorem runs_div (vs : List Cell) (hb : b ≠ 0) (hroom : vs.length + 3 ≤ C) :
    Runs C 3 (body div) (b :: a :: vs) [] (.ofInt (a.toInt.tdiv b.toInt) :: vs) := by
  refine runs_divided vs hroom ?_
  rw [Operator.pushed, Operator.effect?_div hb, DoubleCell.ofCells_toCells,
    Operator.signedQuotient_toUInt32]

theorem runs_mod (vs : List Cell) (hb : b ≠ 0) (hroom : vs.length + 3 ≤ C) :
    Runs C 3 (body mod) (b :: a :: vs) [] (.ofInt (a.toInt.tmod b.toInt) :: vs) := by
  refine runs_divided vs hroom ?_
  rw [Operator.pushed, Operator.effect?_mod hb, DoubleCell.ofCells_toCells,
    Operator.signedRemainder_toUInt32 a b hb]

/-- The program of a word has the effect of the word. -/
theorem runs_body {w : StackWord} {vs : List Cell} (h : w.effect? vs = some ws)
    (hroom : vs.length + w.dataRoom ≤ C) : Runs C w.returnRoom w.body vs [] ws := by
  cases w with
  | rot =>
      rcases vs with _ | ⟨c, _ | ⟨b, _ | ⟨a, vs⟩⟩⟩ <;> cases h
      exact runs_rot vs hroom
  | over_ =>
      rcases vs with _ | ⟨b, _ | ⟨a, vs⟩⟩ <;> cases h
      exact runs_over vs hroom
  | nip =>
      rcases vs with _ | ⟨b, _ | ⟨a, vs⟩⟩ <;> cases h
      exact runs_nip vs hroom
  | twoDup =>
      rcases vs with _ | ⟨b, _ | ⟨a, vs⟩⟩ <;> cases h
      exact runs_twoDup vs hroom
  | twoDrop =>
      rcases vs with _ | ⟨b, _ | ⟨a, vs⟩⟩ <;> cases h
      exact runs_twoDrop _ hroom
  | increment =>
      rcases vs with _ | ⟨a, vs⟩ <;> cases h
      exact runs_increment vs hroom
  | decrement =>
      rcases vs with _ | ⟨a, vs⟩ <;> cases h
      exact runs_decrement vs hroom
  | cells =>
      rcases vs with _ | ⟨a, vs⟩ <;> cases h
      exact runs_cells vs hroom
  | negate =>
      rcases vs with _ | ⟨a, vs⟩ <;> cases h
      exact runs_negate vs hroom
  | abs_ =>
      rcases vs with _ | ⟨a, vs⟩ <;> cases h
      exact runs_abs vs hroom
  | min_ =>
      rcases vs with _ | ⟨b, _ | ⟨a, vs⟩⟩ <;> cases h
      exact runs_min vs hroom
  | max_ =>
      rcases vs with _ | ⟨b, _ | ⟨a, vs⟩⟩ <;> cases h
      exact runs_max vs hroom
  | greater =>
      rcases vs with _ | ⟨b, _ | ⟨a, vs⟩⟩ <;> cases h
      exact runs_greater vs hroom
  | notEqual =>
      rcases vs with _ | ⟨b, _ | ⟨a, vs⟩⟩ <;> cases h
      exact runs_notEqual vs hroom
  | isZero =>
      rcases vs with _ | ⟨a, vs⟩ <;> cases h
      exact runs_isZero vs hroom
  | isNegative =>
      rcases vs with _ | ⟨a, vs⟩ <;> cases h
      exact runs_isNegative vs hroom
  | invert =>
      rcases vs with _ | ⟨a, vs⟩ <;> cases h
      exact runs_invert vs hroom
  | extend =>
      rcases vs with _ | ⟨a, vs⟩ <;> cases h
      exact runs_extend vs hroom
  | div =>
      rcases vs with _ | ⟨b, _ | ⟨a, vs⟩⟩
      · cases h
      · cases h
      rw [effect?, Option.ite_none_left_eq_some] at h
      obtain ⟨hb, ⟨⟩⟩ := h
      exact runs_div vs hb hroom
  | mod =>
      rcases vs with _ | ⟨b, _ | ⟨a, vs⟩⟩
      · cases h
      · cases h
      rw [effect?, Option.ite_none_left_eq_some] at h
      obtain ⟨hb, ⟨⟩⟩ := h
      exact runs_mod vs hb hroom

end StackWord

/-! ## The code of stack words -/

namespace Machine

open Dictionary

variable {H : Type} {hooks : Hooks H} {call : Interpreter H} {C R : Nat} {host : H}
  {d : Dictionary} {limit a : Addr} {kit : StackWord → Addr} {rs : List Cell} {T : Machine H → Prop}

/-- The jump of `unlessZero` leads over one cell. -/
theorem jumpAt_unlessZero {cs : List Cell}
    (h : d.HasCode limit a (Primitive.branchIfZero.token.toInt16 :: 4 :: cs)) :
    d.JumpAt .branchIfZero a (afterJump a + cellSize) := by
  have hlimit := h.le_limit
  have htop := limit.toNat_lt
  rw [List.length_cons, List.length_cons] at hlimit
  refine ⟨by omega, h.cellsAt.1, ?_, trivial⟩
  have hoffset : afterJump a + cellSize = a + cellSize + 4 := by
    rw [afterJump, UInt16.add_assoc]
    rfl
  rw [h.cellsAt.2.1, hoffset, UInt16.toInt16_add, Int16.add_comm, Int16.add_sub_cancel]
  rfl

variable (hooks call R host) in
/-- A word that is called goes on after the call with the cells that it leaves, if it finds so much
room on the return stack. -/
def CallsBack (d : Dictionary) (C : Nat) (kit : StackWord → Addr) (rs : List Cell) : Prop :=
  ∀ (w : StackWord) (vs ws : List Cell) (a : Addr) (T : Machine H → Prop), w.effect? vs = some ws →
    vs.length + w.dataRoom ≤ C → rs.length + 1 + w.returnRoom ≤ R → a ≠ 0 →
    d.readCell a = (kit w).toInt16 → Reaches hooks call C R host d ws rs (a + cellSize) T →
    Reaches hooks call C R host d vs rs a T

/-- Code does what its program does and comes to the exit. -/
theorem reaches_of_runs {r : Nat} {ps : List Piece} {vs ks ws : List Cell} (h : Runs C r ps vs ks ws)
    (hcode : d.HasCode limit a (ps.flatMap (Piece.cells kit) ++ [exitCell]))
    (hroom : rs.length + r ≤ R) (hcalls : ∀ ks, CallsBack hooks call R host d C kit (ks ++ rs))
    (hexit : ∀ stop, d.readCell stop = exitCell → Reaches hooks call C R host d ws rs stop T) :
    Reaches hooks call C R host d vs (ks ++ rs) a T := by
  induction h generalizing a with
  | done => exact hexit a hcode.readCell_eq
  | @number v ps vs ks ws room rest ih =>
      rw [List.flatMap_cons, List.append_assoc] at hcode
      exact reaches_number (cellsAt_append.1 hcode.cellsAt).1 room (ih hcode.append_right hexit)
  | operator effect room rest ih =>
      exact reaches_operator hcode.readCell_eq effect room (ih hcode.tail hexit)
  | @word w ps vs us ks ws effect data returns rest ih =>
      refine hcalls ks w vs us a T effect data ?_ hcode.ne_zero hcode.readCell_eq
        (ih hcode.tail hexit)
      rw [List.length_append]
      omega
  | @keep v ps vs ks ws room rest ih =>
      refine reaches_toReturn hcode.readCell_eq ?_ (ih hcode.tail hexit)
      rw [List.length_append]
      omega
  | putBack room rest ih =>
      exact reaches_fromReturn hcode.readCell_eq room (ih hcode.tail hexit)
  | @pass v ps vs ks ws nonzero rest ih =>
      refine reaches_branchIfZero (jumpAt_unlessZero hcode) ?_
      rw [if_neg nonzero]
      exact ih hcode.tail.tail hexit
  | @skip p ps vs ks ws single rest ih =>
      refine reaches_branchIfZero (jumpAt_unlessZero hcode) ?_
      rw [if_pos rfl]
      cases p with
      | operator op => exact ih hcode.tail.tail.tail hexit
      | word w => exact ih hcode.tail.tail.tail hexit
      | _ => cases single

/-- A word comes to its exit. The induction is on the room that is left on the return stack: each call
takes a cell of it for the way back. -/
theorem reaches_word (hd : ∀ w, d.HasCode limit (kit w) (w.code kit)) {w : StackWord}
    {vs ws : List Cell} (heffect : w.effect? vs = some ws) (hdata : vs.length + w.dataRoom ≤ C)
    (hreturns : rs.length + w.returnRoom ≤ R)
    (hexit : ∀ stop, d.readCell stop = exitCell → Reaches hooks call C R host d ws rs stop T) :
    Reaches hooks call C R host d vs rs (kit w) T := by
  generalize hfree : R - rs.length = free
  induction free using Nat.strongRecOn generalizing w vs ws rs T with
  | ind free ih =>
      show Reaches hooks call C R host d vs ([] ++ rs) (kit w) T
      refine reaches_of_runs (StackWord.runs_body heffect hdata) (hd w) hreturns ?_ hexit
      intro ks w' us us' a T' heffect' hdata' hreturns' ha hcall hrest
      rw [List.length_append] at hreturns'
      refine reaches_call hcall (UInt16.le_iff_toNat_le.2 (hd w').le)
        (by rw [List.length_append]; omega) ?_
      refine ih _ ?_ heffect' hdata' ?_ (fun stop hstop => reaches_exit hstop ha hrest) rfl
      · rw [List.length_cons, List.length_append]
        omega
      · rw [List.length_cons, List.length_append]
        omega

variable (hooks call host) in
/-- A stack word replaces its arguments by what its effect says, and changes nothing else: whether it
is executed by itself, or its call is the next token of code that runs. -/
theorem execute_stackWord (hd : ∀ w, d.HasCode limit (kit w) (w.code kit)) (w : StackWord)
    (s returns : Stack) {ws : List Cell} (heffect : w.effect? s.cells = some ws)
    (hdata : s.depth + w.dataRoom ≤ s.capacity)
    (hreturns : returns.depth + 1 + w.returnRoom ≤ returns.capacity) :
    ∃ s' : Stack, s'.cells = ws ∧ s'.capacity = s.capacity ∧
      (∃ k, ∀ n, execute hooks call (n + k) (kit w) ⟨d, s, returns, 0, host⟩ =
        .ok () ⟨d, s', returns, 0, host⟩) ∧
      ∀ a, a ≠ 0 → d.readCell a = (kit w).toInt16 →
        Goes hooks call ⟨d, s, returns, a, host⟩ ⟨d, s', returns, a + cellSize, host⟩ := by
  rw [s.depth_eq] at hdata
  rw [returns.depth_eq] at hreturns
  have hbody : Layout.firstEntry ≤ kit w := UInt16.le_iff_toNat_le.2 (hd w).le
  -- executed by itself, the word comes to its exit above a zero on the return stack
  have hexecute : Reaches hooks call s.capacity returns.capacity host d s.cells (0 :: returns.cells)
      (kit w) fun m => ∃ stop, d.readCell stop = exitCell ∧
        Stands s.capacity returns.capacity host d ws (0 :: returns.cells) stop m := by
    refine reaches_word hd heffect hdata (by rw [List.length_cons]; omega) fun stop hstop => ?_
    exact reaches_of_stands fun m hm => ⟨stop, hstop, hm⟩
  obtain ⟨m, ⟨stop, hstop, hm⟩, hends⟩ := exists_of_reaches hbody (by omega) hexecute
  obtain rfl := hm.data_cells
  refine ⟨m.data, rfl, hm.data_capacity, ?_, fun a ha hcall => ?_⟩
  · rw [← hm.data_capacity] at hm
    obtain ⟨k, hk⟩ := hends .exit _ (halts_of_stands hm hstop)
    exact ⟨k, hk⟩
  · have hreaches : Reaches hooks call s.capacity returns.capacity host d s.cells returns.cells a
        (Stands s.capacity returns.capacity host d m.data.cells returns.cells (a + cellSize)) := by
      refine reaches_call hcall hbody (by omega) ?_
      refine reaches_word hd heffect hdata (by rw [List.length_cons]; omega) fun stop hstop => ?_
      exact reaches_exit hstop ha (reaches_of_stands fun m hm => hm)
    obtain ⟨m', hgoes, hm'⟩ := hreaches ⟨d, s, returns, a, host⟩ ⟨rfl, rfl, rfl, rfl, rfl, rfl, rfl⟩
    rw [← hm.data_capacity] at hm'
    rw [← hm'.eq]
    exact hgoes

/-- A machine with the stack words and those of which they are made, before a line with three names. -/
def wordedMachine : Machine Unit := lastState <|
  (do
    Prelude.interpretLines {} 100 ([0, 1, 2, 3, 4, 5, 6, 7, 8, 13, 15, 16, 18, 19, 21, 27, 28, 35, 36,
      37, 38, 39, 40, 41, 42, 43, 46, 47, 48].filterMap (Prelude.lines[·]?))
    onDictionary (Dictionary.loadInput (Text.encode "abs min /")) : MachineM Unit Unit)
  (ofDictionary (.setUp ⟨.sparse (.zeros 1024)⟩) () {})

/-- Where the stack words are in it. -/
def wordedKit : StackWord → Addr
  | .increment => 100
  | .decrement => 110
  | .over_ => 122
  | .rot => 134
  | .nip => 150
  | .twoDup => 162
  | .twoDrop => 176
  | .cells => 210
  | .isZero => 344
  | .isNegative => 354
  | .notEqual => 364
  | .greater => 374
  | .invert => 388
  | .negate => 404
  | .abs_ => 418
  | .min_ => 436
  | .max_ => 456
  | .extend => 476
  | .div => 486
  | .mod => 502

theorem wordedMachine_eq :
    (∀ w, wordedMachine.dictionary.HasCode 512 (wordedKit w) (w.code wordedKit)) ∧
      wordedMachine.dictionary.meaning (.ofLength 16 3) = .known (wordedKit .abs_) false ∧
      wordedMachine.dictionary.meaning (.ofLength 20 3) = .known (wordedKit .min_) false ∧
      wordedMachine.dictionary.meaning (.ofLength 24 1) = .known (wordedKit .div) false := by
  decide +kernel

/-- The least cell has no opposite, and its quotient by minus one is itself. -/
theorem execute_stackWord_least :
    (∃ k, ∀ n, ∃ s : Stack, s.cells = [-32768, 5] ∧
      execute {} (interpreter {} 20) (n + k) (wordedKit .abs_)
        (⟨wordedMachine.dictionary, ⟨4, [-32768, 5], 2, rfl, by decide⟩, .empty 2, 0, ()⟩ :
          Machine Unit) = .ok () ⟨wordedMachine.dictionary, s, .empty 2, 0, ()⟩) ∧
    ∃ k, ∀ n, ∃ s : Stack, s.cells = [-32768, 5] ∧
      execute {} (interpreter {} 20) (n + k) (wordedKit .div)
        (⟨wordedMachine.dictionary, ⟨4, [-1, -32768, 5], 3, rfl, by decide⟩, .empty 4, 0, ()⟩ :
          Machine Unit) = .ok () ⟨wordedMachine.dictionary, s, .empty 4, 0, ()⟩ := by
  have hd := wordedMachine_eq.1
  constructor
  · obtain ⟨s, hcells, -, ⟨k, hk⟩, -⟩ := execute_stackWord {} (interpreter {} 20) () hd .abs_
      ⟨4, [-32768, 5], 2, rfl, by decide⟩ (.empty 2) rfl (by decide) (by decide)
    exact ⟨k, fun n => ⟨s, hcells, hk n⟩⟩
  · obtain ⟨s, hcells, -, ⟨k, hk⟩, -⟩ := execute_stackWord {} (interpreter {} 20) () hd .div
      ⟨4, [-1, -32768, 5], 3, rfl, by decide⟩ (.empty 4) rfl (by decide) (by decide)
    exact ⟨k, fun n => ⟨s, hcells, hk n⟩⟩

end Machine

end ThreadedForth
