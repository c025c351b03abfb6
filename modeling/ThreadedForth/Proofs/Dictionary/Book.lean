import ThreadedForth.Proofs.Dictionary.Code
import ThreadedForth.Proofs.Dictionary.Extents

/-!
# Variables and constants in memory

A book says which names were given and what they hold (`Book`). The entries of a book lie one above the
other, and the body of each has the cells that make it hold what the book says (`Shelved`). A variable
keeps its number between cells of its code, at `dataAddr`. To write there is to assign the number in
the book (`Shelved.assign`).
-/

set_option autoImplicit false

namespace ThreadedForth

/-! ## Books -/

/-- What a name holds. -/
inductive Holding where
  /-- A number that can be changed. -/
  | var (v : Cell)
  | const (v : Cell)
  /-- Words that were compiled. -/
  | code
deriving DecidableEq

/-- The names that were given, newest first, and what they hold. -/
abbrev Book := List (List UInt8 × Holding)

namespace Book

/-- What the newest entry with a name holds, letters of either case being equal. -/
def holding? : Book → List UInt8 → Option Holding
  | [], _ => none
  | e :: book, text => if Text.same text e.1 then some e.2 else holding? book text

/-- A number is stored in the newest variable with a name. -/
def assign : Book → List UInt8 → Cell → Book
  | [], _, _ => []
  | e :: book, text, v =>
    if Text.same text e.1 then (e.1, .var v) :: book else e :: assign book text v

variable {book : Book} {text other : List UInt8} {x : Holding}

theorem holding?_assign (v : Cell) (h : book.holding? text = some x) :
    (book.assign text v).holding? text = some (.var v) := by
  induction book with
  | nil => cases h
  | cons e book ih =>
      rw [holding?] at h
      by_cases hsame : Text.same text e.1 = true
      · rw [assign, if_pos hsame, holding?, if_pos hsame]
      · rw [if_neg hsame] at h
        rw [assign, if_neg hsame, holding?, if_neg hsame, ih h]

/-- Other names hold what they held. -/
theorem holding?_assign_of_not_same (v : Cell) (h : Text.same text other = false) :
    (book.assign text v).holding? other = book.holding? other := by
  induction book with
  | nil => rfl
  | cons e book ih =>
      by_cases hsame : Text.same text e.1 = true
      · have hother : ¬ Text.same other e.1 = true := by
          intro hboth
          rw [Text.same_comm] at hboth
          rw [Text.same_trans hsame hboth] at h
          cases h
        rw [assign, if_pos hsame, holding?, holding?, if_neg hother, if_neg hother]
      · rw [assign, if_neg hsame, holding?, holding?, ih]

end Book

/-! ## Entries -/

/-- Where a variable keeps its number: behind the three cells that push this address. -/
def dataAddr (body : Addr) : Addr := body + 6

/-- The cells of a body that holds something. Compiled words can be anything. -/
def Holding.cells (body : Addr) : Holding → List Cell
  | var v => longLiteral (dataAddr body).toInt16 ++
      [Primitive.exit.token.toInt16, v, Primitive.exit.token.toInt16]
  | const v => longLiteral v ++ [Primitive.exit.token.toInt16]
  | code => []

theorem toNat_dataAddr {body : Addr} (h : body.toNat + 6 < 65536) :
    (dataAddr body).toNat = body.toNat + 6 := by
  rw [dataAddr, UInt16.toNat_add]
  exact Nat.mod_eq_of_lt h

theorem after_three (body : Addr) (u v w : Cell) : after body [u, v, w] = dataAddr body := by
  have hsix : cellSize + cellSize + cellSize = 6 := by decide
  rw [after, after, after, after, UInt16.add_assoc, UInt16.add_assoc, ← UInt16.add_assoc cellSize,
    hsix, dataAddr]

namespace Dictionary

variable {d d' : Dictionary} {fs : List Definition} {f : Definition} {book : Book} {lo top : Nat}
  {text : List UInt8} {x : Holding} {v w : Cell}

/-- The body of a variable: the address is pushed, and behind that are the number and an exit. -/
theorem cellsAt_var_iff : d.CellsAt f.body ((Holding.var v).cells f.body) ↔
    d.CellsAt f.body (longLiteral (dataAddr f.body).toInt16 ++ [Primitive.exit.token.toInt16]) ∧
      d.CellsAt (dataAddr f.body) [v, Primitive.exit.token.toInt16] := by
  have hcells : (Holding.var v).cells f.body =
      (longLiteral (dataAddr f.body).toInt16 ++ [Primitive.exit.token.toInt16]) ++
        [v, Primitive.exit.token.toInt16] := rfl
  have hthree : after f.body (longLiteral (dataAddr f.body).toInt16 ++
      [Primitive.exit.token.toInt16]) = dataAddr f.body := after_three ..
  rw [hcells, cellsAt_append, hthree]

/-- A number is stored where a variable keeps it. -/
theorem cellsAt_var_of_within (h : d.CellsAt f.body ((Holding.var v).cells f.body))
    (hd : d.Within d' (f.body.toNat + 6) (f.body.toNat + 8))
    (hw : d'.readCell (dataAddr f.body) = w) (htop : f.body.toNat + 10 < 65536) :
    d'.CellsAt f.body ((Holding.var w).cells f.body) := by
  have hnum : (dataAddr f.body).toNat = f.body.toNat + 6 := toNat_dataAddr (by omega)
  have hnext : (dataAddr f.body + cellSize).toNat = f.body.toNat + 8 := by
    rw [toNat_add_cellSize (by omega), hnum]
  obtain ⟨hfront, hback⟩ := cellsAt_var_iff.1 h
  refine cellsAt_var_iff.2 ⟨?_, hw, ?_⟩
  · exact hfront.of_agreeOn hd.below (Nat.zero_le _) (Nat.le_refl _) (by
      show f.body.toNat + 6 < 65536
      omega)
  · exact hback.2.of_agreeOn hd.above (by omega) (by
      show _ + 2 ≤ _
      omega) (by
      show _ + 2 < _
      omega)

/-- The definitions `fs` are the entries of the book. They lie one above the other from `lo` up to
`top`. -/
inductive Shelved (d : Dictionary) (lo : Nat) : List Definition → Book → Nat → Prop
  | nil {top : Nat} (le : lo ≤ top) : Shelved d lo [] [] top
  | cons {f : Definition} {x : Holding} {fs : List Definition} {book : Book} {top : Nat}
      (cellsAt : d.CellsAt f.body (x.cells f.body)) (le_body : f.addr.toNat ≤ f.body.toNat)
      (le_top : f.body.toNat + 2 * (x.cells f.body).length ≤ top)
      (older : Shelved d lo fs book f.addr.toNat) : Shelved d lo (f :: fs) ((f.name, x) :: book) top

theorem find?_same_cons (text : List UInt8) (f : Definition) (fs : List Definition) :
    ((f :: fs).find? fun g => Text.same text g.name) =
      if Text.same text f.name = true then some f else fs.find? fun g => Text.same text g.name := by
  rw [List.find?_cons]
  cases Text.same text f.name <;> rfl

namespace Shelved

theorem le_top (h : d.Shelved lo fs book top) : lo ≤ top := by
  induction h with
  | nil le => exact le
  | cons _ le_body le_top _ ih => omega

theorem mono {top' : Nat} (h : d.Shelved lo fs book top) (hle : top ≤ top') :
    d.Shelved lo fs book top' := by
  cases h with
  | nil le => exact .nil (Nat.le_trans le hle)
  | cons cellsAt le_body le_top older =>
      exact .cons cellsAt le_body (Nat.le_trans le_top hle) older

/-- The entries are kept with their bytes. -/
theorem of_agreeOn (h : d.Shelved lo fs book top) (hd : d.AgreeOn d' lo top) (htop : top < 65536) :
    d'.Shelved lo fs book top := by
  induction h with
  | nil le => exact .nil le
  | cons cellsAt le_body le_top older ih =>
      have hle := older.le_top
      refine .cons (cellsAt.of_agreeOn hd (by omega) le_top (by omega)) le_body le_top ?_
      exact ih (hd.mono (Nat.le_refl _) (by omega)) (by omega)

/-- What is held under a name is found in memory. -/
theorem exists_of_holding? (h : d.Shelved lo fs book top) (hx : book.holding? text = some x) :
    ∃ f e, (fs.find? fun f => Text.same text f.name) = some f ∧ (f, e) ∈ extents top fs ∧
      d.CellsAt f.body (x.cells f.body) ∧ f.body.toNat + 2 * (x.cells f.body).length ≤ e ∧
      e ≤ top ∧ lo ≤ f.body.toNat := by
  induction h with
  | nil le => cases hx
  | @cons f y fs book top cellsAt le_body le_top older ih =>
      rw [Book.holding?] at hx
      by_cases hsame : Text.same text f.name = true
      · rw [if_pos hsame] at hx
        cases hx
        have hle := older.le_top
        refine ⟨f, top, List.find?_cons_of_pos hsame, List.mem_cons_self, cellsAt, le_top,
          Nat.le_refl _, by omega⟩
      · rw [if_neg hsame] at hx
        obtain ⟨g, e, hfind, hmem, hcells, hend, hle, hlo⟩ := ih hx
        refine ⟨g, e, ?_, List.mem_cons_of_mem _ hmem, hcells, hend, by omega, hlo⟩
        rw [find?_same_cons, if_neg hsame]
        exact hfind

/-- Without an entry in the book there is none in memory. -/
theorem find?_eq_none (h : d.Shelved lo fs book top) (hx : book.holding? text = none) :
    (fs.find? fun f => Text.same text f.name) = none := by
  induction h with
  | nil le => rfl
  | @cons f y fs book top cellsAt le_body le_top older ih =>
      rw [Book.holding?] at hx
      by_cases hsame : Text.same text f.name = true
      · rw [if_pos hsame] at hx
        cases hx
      · rw [if_neg hsame] at hx
        rw [find?_same_cons, if_neg hsame]
        exact ih hx

/-- To write the cell of a variable is to assign the number. -/
theorem assign (h : d.Shelved lo fs book top) (hx : book.holding? text = some (.var v))
    (hfind : (fs.find? fun f => Text.same text f.name) = some f)
    (hd : d.Within d' (f.body.toNat + 6) (f.body.toNat + 8))
    (hw : d'.readCell (dataAddr f.body) = w) (htop : top < 65536) :
    d'.Shelved lo fs (book.assign text w) top := by
  induction h with
  | nil le => cases hx
  | @cons g y fs book top cellsAt le_body le_top older ih =>
      rw [Book.holding?] at hx
      rw [Book.assign]
      by_cases hsame : Text.same text g.name = true
      · rw [if_pos hsame] at hx
        rw [if_pos hsame]
        rw [find?_same_cons, if_pos hsame] at hfind
        cases hfind
        cases hx
        have hlength : f.body.toNat + 10 ≤ top := le_top
        refine .cons (cellsAt_var_of_within cellsAt hd hw (by omega)) le_body le_top ?_
        exact older.of_agreeOn (hd.below.mono (Nat.zero_le _) (by omega)) (by omega)
      · rw [if_neg hsame] at hx
        rw [if_neg hsame]
        rw [find?_same_cons, if_neg hsame] at hfind
        obtain ⟨f', e, hfind', -, -, hend, hle, -⟩ := older.exists_of_holding? hx
        rw [hfind] at hfind'
        cases hfind'
        have hlength : f.body.toNat + 10 ≤ e := hend
        refine .cons ?_ le_body le_top (ih hx hfind (by omega))
        exact cellsAt.of_agreeOn hd.above (by omega) (by omega) (by omega)

end Shelved

end Dictionary

end ThreadedForth
