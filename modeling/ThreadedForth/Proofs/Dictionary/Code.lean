import ThreadedForth.Proofs.Dictionary.Room
import ThreadedForth.Token

/-!
# Cells of code

`CellsAt d a cells` says that cells lie one after the other from an address on. To append cells is
to put them there (`of_forM_append_eq_ok`), and they stay as long as their bytes do
(`CellsAt.of_agreeOn`).
-/

set_option autoImplicit false

namespace ThreadedForth

/-- The address after cells that begin at an address. -/
def after : Addr → List Cell → Addr
  | a, [] => a
  | a, _ :: vs => after (a + cellSize) vs

theorem after_cons (a : Addr) (v : Cell) (vs : List Cell) :
    after a (v :: vs) = after (a + cellSize) vs := rfl

theorem after_append (a : Addr) (vs ws : List Cell) : after a (vs ++ ws) = after (after a vs) ws := by
  induction vs generalizing a with
  | nil => rfl
  | cons v vs ih => exact ih (a + cellSize)

theorem toNat_after {a : Addr} {vs : List Cell} (h : a.toNat + 2 * vs.length < 65536) :
    (after a vs).toNat = a.toNat + 2 * vs.length := by
  induction vs generalizing a with
  | nil => rfl
  | cons v vs ih =>
      rw [List.length_cons] at h ⊢
      have h2 : (a + cellSize).toNat = a.toNat + 2 := toNat_add_cellSize (by omega)
      rw [after, ih (by omega), h2]
      omega

/-- The code of a number: its own token, or two cells. -/
def literalCells (v : Cell) : List Cell :=
  match Token.ofLiteral? v with
  | some t => [t.encode.toInt16]
  | none => [Primitive.literal.token.toInt16, v]

/-- The code of a number with the number in a cell of its own. -/
def longLiteral (v : Cell) : List Cell := [Primitive.literal.token.toInt16, v]

namespace Dictionary

variable {d d' : Dictionary} {a : Addr} {vs ws : List Cell} {lo hi : Nat}

/-- The cells lie one after the other from the address on. -/
def CellsAt (d : Dictionary) : Addr → List Cell → Prop
  | _, [] => True
  | a, v :: vs => d.readCell a = v ∧ CellsAt d (a + cellSize) vs

instance decidableCellsAt (d : Dictionary) :
    ∀ (a : Addr) (vs : List Cell), Decidable (d.CellsAt a vs)
  | _, [] => isTrue trivial
  | a, v :: vs =>
    have := decidableCellsAt d (a + cellSize) vs
    inferInstanceAs (Decidable (d.readCell a = v ∧ d.CellsAt (a + cellSize) vs))

theorem cellsAt_append : d.CellsAt a (vs ++ ws) ↔ d.CellsAt a vs ∧ d.CellsAt (after a vs) ws := by
  induction vs generalizing a with
  | nil => exact ⟨fun h => ⟨trivial, h⟩, fun h => h.2⟩
  | cons v vs ih =>
      rw [List.cons_append, CellsAt, CellsAt, ih, and_assoc]
      rfl

theorem CellsAt.of_agreeOn (h : d.CellsAt a vs) (hd : d.AgreeOn d' lo hi) (hlo : lo ≤ a.toNat)
    (hhi : a.toNat + 2 * vs.length ≤ hi) (htop : a.toNat + 2 * vs.length < 65536) :
    d'.CellsAt a vs := by
  induction vs generalizing a with
  | nil => trivial
  | cons v vs ih =>
      rw [List.length_cons] at hhi htop
      have h2 : (a + cellSize).toNat = a.toNat + 2 := toNat_add_cellSize (by omega)
      refine ⟨?_, ih h.2 (by omega) (by omega) (by omega)⟩
      rw [hd.readCell hlo (by omega) (by omega)]
      exact h.1

/-- Where the same cells lie, the bytes are the same. -/
theorem CellsAt.readByte_eq {b : Addr} (h : d.CellsAt a vs) (h' : d'.CellsAt a vs)
    (htop : a.toNat + 2 * vs.length < 65536) (hle : a.toNat ≤ b.toNat)
    (hlt : b.toNat < a.toNat + 2 * vs.length) : d'.readByte b = d.readByte b := by
  induction vs generalizing a with
  | nil => exact absurd hlt (Nat.not_lt.2 hle)
  | cons v vs ih =>
      rw [List.length_cons] at htop hlt
      have h1 : (a + 1).toNat = a.toNat + 1 := toNat_add_one (by omega)
      have h2 : (a + cellSize).toNat = a.toNat + 2 := toNat_add_cellSize (by omega)
      obtain ⟨hlow, hhigh⟩ := readByte_eq_of_readCell_eq (h'.1.trans h.1.symm)
      by_cases hrest : a.toNat + 2 ≤ b.toNat
      · exact ih h.2 h'.2 (by omega) (by omega) (by omega)
      by_cases hb : b.toNat = a.toNat
      · rw [UInt16.toNat_inj.1 hb]
        exact hlow
      · have hb1 : b = a + 1 := UInt16.toNat_inj.1 (by omega)
        rw [hb1]
        exact hhigh

theorem forM_append_singleton (v : Cell) : [v].forM append = append v := by
  show (do append v; pure PUnit.unit) = append v
  rw [bind_pure_unit]

theorem forM_append_pair (v w : Cell) : [v, w].forM append = (do append v; append w) := by
  show (do append v; [w].forM append) = _
  rw [forM_append_singleton]

/-- Cells that are appended lie where `here` was. -/
theorem of_forM_append_eq_ok (hd : d.Ready) (h : vs.forM append d = .ok () d') :
    d.Grows d' ∧ d'.here.toNat = d.here.toNat + 2 * vs.length ∧ d'.CellsAt d.here vs := by
  induction vs generalizing d with
  | nil =>
      cases h
      exact ⟨.refl hd, rfl, trivial⟩
  | cons v vs ih =>
      obtain ⟨_, d1, hfirst, hrest⟩ := exists_of_bind_eq_ok h
      obtain ⟨hgrow, hready, hnum, hread⟩ := of_append_eq_ok hfirst
      obtain ⟨hgrow', hnum', hcells⟩ := ih hready hrest
      have hle := hready.le_here
      have hlt := hgrow'.here_lt
      have hcap := d'.capacity_le
      have hmono := hgrow'.here_le
      rw [toNat_firstEntry] at hle
      rw [here_of_append_eq_ok hfirst] at hcells
      refine ⟨hgrow.trans hgrow', by rw [List.length_cons]; omega, ?_, hcells⟩
      have hdle := hd.le_here
      rw [toNat_firstEntry] at hdle
      rw [hgrow'.agreeOn.readCell (by omega) (by omega) (by omega), hread]

end Dictionary

end ThreadedForth
