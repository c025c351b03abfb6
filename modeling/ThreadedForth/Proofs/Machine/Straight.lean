import ThreadedForth.Proofs.Dictionary.Settled
import ThreadedForth.Proofs.Machine.Compile
import ThreadedForth.Proofs.Machine.Sealed

/-!
# Words of straight code

The code of finished words is sealed: from each of its tokens it goes on to the next one, or to a
word before it (`sealed_places`). So a finished word does the same in every dictionary that holds the
same words, and changes neither of them (`stays_execute_word`). Numbers and the primitives of the
data stack are of the same kind.
-/

set_option autoImplicit false

namespace ThreadedForth

/-- The places of the code of words: where a piece of code, or the exit after it, begins. -/
def places (ws : List Word) (a : Addr) (k : Nat) : Prop :=
  k = 0 ∧ ∃ w ∈ ws, ∃ before rest, w.code = before ++ rest ∧ Straight ws rest ∧
    a = after w.body before

variable {ws : List Word} {w : Word}

/-- The code of a word begins at its body. -/
theorem Stacked.places_body (h : Stacked ws) (hw : w ∈ ws) : places ws w.body 0 :=
  ⟨rfl, w, hw, [], w.code, rfl, h.straight hw, rfl⟩

namespace Dictionary

open Machine

variable {d d' : Dictionary} {a : Addr} {k : Nat}

/-- At a place lie the rest of the code and the exit. -/
theorem Settled.cellsAt_place (h : d.Settled ws) (hw : w ∈ ws) {before rest : List Cell}
    (hcode : w.code = before ++ rest) :
    d.CellsAt (after w.body before) (rest ++ [Primitive.exit.token.toInt16]) := by
  have hcells := h.cellsAt w hw
  rw [Word.cells, hcode, List.append_assoc] at hcells
  exact (cellsAt_append.1 hcells).2

/-- From a place straight code leads to the place after the token, and to the words that it calls. -/
theorem Settled.leads (h : d.Settled ws) {rest : List Cell} (hrest : Straight ws rest)
    (hcells : d.CellsAt a (rest ++ [Primitive.exit.token.toInt16]))
    (hnext : ∀ before rest', rest = before ++ rest' → Straight ws rest' →
      places ws (after a before) 0) : d.Leads (places ws) a 0 (d.tokenAt a) := by
  cases hrest with
  | nil =>
      rw [tokenAt_of_readCell_eq hcells.1, decode_token]
      exact .exit
  | @number v rest hrest =>
      rw [List.append_assoc] at hcells
      exact leads_of_literalCells hcells (hnext (literalCells v) rest rfl hrest)
  | @primitive p rest hp hrest =>
      have hplace := hnext [p.token.toInt16] rest rfl hrest
      rw [tokenAt_of_readCell_eq hcells.1, decode_token]
      cases p with
      | operator op => exact .operator hplace
      | returnDepth => exact .returnDepth hplace
      | _ => cases hp
  | @call w rest hw hrest =>
      have hplace := hnext [w.body.toInt16] rest rfl hrest
      have hbody : Layout.firstEntry ≤ w.body :=
        UInt16.le_iff_toNat_le.2 (Nat.le_trans (Nat.le_add_right _ 2) (h.le_body hw))
      rw [tokenAt_of_readCell_eq hcells.1, decode_of_le hbody]
      exact .call (h.stacked.places_body hw) hplace

theorem Settled.sealed_places (h : d.Settled ws) : d.Sealed (places ws) := by
  rintro a k ⟨rfl, w, hw, before, rest, hcode, hrest, rfl⟩
  refine h.leads hrest (h.cellsAt_place hw hcode) fun before' rest' heq hrest' => ?_
  refine ⟨rfl, w, hw, before ++ before', rest', ?_, hrest', (after_append ..).symm⟩
  rw [hcode, heq, List.append_assoc]

/-- At the places of the same words lie the same tokens. -/
theorem Settled.sameAt (h : d.Settled ws) (h' : d'.Settled ws) (ha : places ws a k) :
    d.SameAt d' a := by
  rcases ha with ⟨rfl, w, hw, before, rest, hcode, -, rfl⟩
  have hcells := h.cellsAt_place hw hcode
  have hcells' := h'.cellsAt_place hw hcode
  cases rest with
  | nil =>
      -- the exit has no operand
      refine ⟨hcells'.1.trans hcells.1.symm, fun hsize => ?_⟩
      rw [tokenAt_of_readCell_eq hcells.1, decode_token] at hsize
      cases hsize
  | cons v rest =>
      refine ⟨hcells'.1.trans hcells.1.symm, fun _ => ?_⟩
      cases rest with
      | nil => exact hcells'.2.1.trans hcells.2.1.symm
      | cons v' rest => exact hcells'.2.1.trans hcells.2.1.symm

end Dictionary

namespace Machine

variable {H : Type} {hooks : Hooks H} {call : Interpreter H} {n : Nat} {d d' : Dictionary}
  {s returns : Stack} {host : H}

/-! ## What changes no dictionary -/

theorem stays_onData {y : StackM Unit} (hy : y.KeepsRoom) :
    Stays d d' s returns host (onData y ⟨d, s, returns, 0, host⟩)
      (onData y ⟨d', s, returns, 0, host⟩) := by
  have hroom := hy s
  simp only [onData]
  cases h : y s with
  | ok u s1 =>
      rw [h] at hroom
      exact .ok hroom rfl
  | error e s1 =>
      rw [h] at hroom
      exact .error hroom rfl

/-- A primitive that is a program of the data stack. -/
theorem stays_execute_onData {p : Primitive} {x : MachineM H Unit} {y : StackM Unit}
    (hperform : perform hooks call n p = (do x; return .advance)) (hy : y.KeepsRoom)
    (hx : ∀ d, x ⟨d, s, returns, 0, host⟩ = onData y ⟨d, s, returns, 0, host⟩) :
    Stays d d' s returns host (execute hooks call n p.token ⟨d, s, returns, 0, host⟩)
      (execute hooks call n p.token ⟨d', s, returns, 0, host⟩) := by
  have hroom := hy s
  cases h : y s with
  | ok u s1 =>
      have hrun : ∀ d, x ⟨d, s, returns, 0, host⟩ = .ok () ⟨d, s1, returns, 0, host⟩ := fun d => by
        rw [hx]
        simp only [onData, h]
      rw [h] at hroom
      rw [execute_token_of_ok hperform (hrun d) rfl, execute_token_of_ok hperform (hrun d') rfl]
      exact .ok hroom rfl
  | error e s1 =>
      have hrun : ∀ d, x ⟨d, s, returns, 0, host⟩ = .error (.error e) ⟨d, s1, returns, 0, host⟩ :=
        fun d => by
          rw [hx]
          simp only [onData, h]
      rw [h] at hroom
      rw [execute_token_of_error hperform (hrun d) (by simp),
        execute_token_of_error hperform (hrun d') (by simp)]
      exact .error hroom rfl

theorem stays_execute_stackWord {p : Primitive} (hp : p.isStackWord = true) :
    Stays d d' s returns host (execute hooks call n p.token ⟨d, s, returns, 0, host⟩)
      (execute hooks call n p.token ⟨d', s, returns, 0, host⟩) := by
  cases p with
  | operator op =>
      exact stays_execute_onData (x := onData op.apply) rfl (StackM.keepsRoom_apply op)
        fun d => rfl
  | returnDepth =>
      refine stays_execute_onData (x := do push (Int16.ofNat (← get).returns.depth)) rfl
        (StackM.keepsRoom_push (Int16.ofNat returns.depth)) fun d => ?_
      rfl
  | _ => cases hp

/-- To move the top cell to the return stack. -/
theorem stays_execute_toReturn : Stays d d' s returns host
    (execute hooks call n Primitive.toReturn.token ⟨d, s, returns, 0, host⟩)
    (execute hooks call n Primitive.toReturn.token ⟨d', s, returns, 0, host⟩) := by
  have hrun : ∀ d, runToken hooks call n Primitive.toReturn.token ⟨d, s, returns, 0, host⟩ = _ :=
    fun d => runToken_toReturn n d s returns 0 host
  cases hpop : s.pop? with
  | none =>
      rw [hpop] at hrun
      rw [execute_of_runToken_eq_error (hrun d) nofun, execute_of_runToken_eq_error (hrun d') nofun]
      exact .error rfl rfl
  | some p =>
      cases hpush : returns.push? p.1 with
      | none =>
          simp only [hpop, hpush] at hrun
          rw [execute_of_runToken_eq_error (hrun d) nofun,
            execute_of_runToken_eq_error (hrun d') nofun]
          exact .error rfl rfl
      | some returns1 =>
          simp only [hpop, hpush] at hrun
          have hlow : (0 : Addr) + cellSize < Layout.firstEntry := by decide
          rw [execute_of_runToken_eq_ok (hrun d) hlow, execute_of_runToken_eq_ok (hrun d') hlow]
          exact .ok (Stack.capacity_of_pop? hpop) (Stack.capacity_of_push? hpush)

/-- To move a cell back from there. -/
theorem stays_execute_fromReturn : Stays d d' s returns host
    (execute hooks call n Primitive.fromReturn.token ⟨d, s, returns, 0, host⟩)
    (execute hooks call n Primitive.fromReturn.token ⟨d', s, returns, 0, host⟩) := by
  have hrun : ∀ d, runToken hooks call n Primitive.fromReturn.token ⟨d, s, returns, 0, host⟩ = _ :=
    fun d => runToken_fromReturn n d s returns 0 host
  cases hpop : returns.pop? with
  | none =>
      rw [hpop] at hrun
      rw [execute_of_runToken_eq_error (hrun d) nofun, execute_of_runToken_eq_error (hrun d') nofun]
      exact .error rfl rfl
  | some p =>
      cases hpush : s.push? p.1 with
      | none =>
          simp only [hpop, hpush] at hrun
          rw [execute_of_runToken_eq_error (hrun d) nofun,
            execute_of_runToken_eq_error (hrun d') nofun]
          exact .error rfl (Stack.capacity_of_pop? hpop)
      | some s1 =>
          simp only [hpop, hpush] at hrun
          have hlow : (0 : Addr) + cellSize < Layout.firstEntry := by decide
          rw [execute_of_runToken_eq_ok (hrun d) hlow, execute_of_runToken_eq_ok (hrun d') hlow]
          exact .ok (Stack.capacity_of_push? hpush) (Stack.capacity_of_pop? hpop)

variable {ws : List Word} {w : Word}

/-- A finished word does the same wherever the words before it are the same. -/
theorem stays_execute_word (h : d.Settled ws) (h' : d'.Settled ws) (hw : w ∈ ws) :
    Stays d d' s returns host (execute hooks call n w.body ⟨d, s, returns, 0, host⟩)
      (execute hooks call n w.body ⟨d', s, returns, 0, host⟩) := by
  have hbody : Layout.firstEntry ≤ w.body :=
    UInt16.le_iff_toNat_le.2 (Nat.le_trans (Nat.le_add_right _ 2) (h.le_body hw))
  exact stays_execute hooks call h.sealed_places (fun a k ha => h.sameAt h' ha) n s returns host
    hbody (h.stacked.places_body hw)

end Machine

end ThreadedForth
