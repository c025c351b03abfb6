import ThreadedForth.Prelude
import ThreadedForth.Proofs.Machine.Structured
import ThreadedForth.Proofs.Machine.Vocabulary

/-!
# Compiling structured programs

A structured program is written with the words from `if` to `repeat`. In a dictionary that has
them (`Vocabulary`), to compile what is written for a program is to lay its code in memory
(`laysCodeAt`), and so a new word ends in every way in which the program of its body does:
the main result, `execute_endsAs_of_defines`.

While a program is compiled, the dictionary does not change below the address where the program
began (`Continues`). Inside the program it does: the cells of jumps ahead are written twice. A jump
of which the target is not known is `Pending`, and `Patched` is what becomes of it.
-/

set_option autoImplicit false

namespace ThreadedForth

/-! ## The text of a program -/

namespace Statement

mutual

/-- The text of a statement. -/
def symbols : Statement → List Symbol
  | literal v => [.literal v]
  | operator op => [.operator op]
  | ifThen yes => .keyword .if_ :: symbolsOf yes ++ [.keyword .then_]
  | ifElse yes no =>
    .keyword .if_ :: symbolsOf yes ++ .keyword .else_ :: symbolsOf no ++ [.keyword .then_]
  | loopUntil body => .keyword .begin_ :: symbolsOf body ++ [.keyword .until_]
  | loopWhile test body =>
    .keyword .begin_ :: symbolsOf test ++ .keyword .while_ :: symbolsOf body ++ [.keyword .repeat_]

/-- The text of a program. -/
def symbolsOf : List Statement → List Symbol
  | [] => []
  | i :: is => symbols i ++ symbolsOf is

end

end Statement

namespace Dictionary

variable {d d' d'' d0 d1 : Dictionary} {limit : Addr} {t : Tool → Addr} {fs : List Definition}
  {p : Primitive} {a b : Addr} {vs : List Cell}

/-! ## Cells that are added, and jumps that are completed -/

theorem Added.jumpAt (h : d.Added d' [p.token.toInt16, b.toInt16 - (d.here + cellSize).toInt16]) :
    d'.JumpAt p d.here b := ⟨h.fits, h.cellsAt⟩

/-- The last thing that was added is a jump of which the target is not known yet. -/
structure Pending (d : Dictionary) (p : Primitive) (a : Addr) : Prop where
  fits : a.toNat + 4 < 65536
  here_eq : d.here = afterJump a
  cellsAt : d.CellsAt a [p.token.toInt16, 0]

/-- Since `d0` a jump was added of which the target is not known yet. -/
structure Awaits (d0 d : Dictionary) (p : Primitive) (a : Addr) : Prop where
  ready : d0.Ready
  le : d0.here.toNat ≤ a.toNat
  pending : ∃ d1, d0.Continues d1 ∧ d1.Pending p a ∧ d1.Continues d

theorem Added.awaits (h : d.Added d' [p.token.toInt16, 0]) (hd : d.Ready) :
    d.Awaits d' p d.here :=
  ⟨hd, Nat.le_refl _, d', h.continues, ⟨h.fits, h.here_eq, h.cellsAt⟩,
    .refl (h.continues.ext.ready hd)⟩

theorem Awaits.continues (h : d0.Awaits d p a) : d0.Continues d := by
  obtain ⟨d1, h0, -, h1⟩ := h.pending
  exact h0.trans h1

theorem Awaits.of_continues (h : d0.Awaits d p a) (hd : d.Continues d') : d0.Awaits d' p a := by
  obtain ⟨d1, h0, hpending, h1⟩ := h.pending
  exact ⟨h.ready, h.le, d1, h0, hpending, h1.trans hd⟩

/-- The jump, with its operand, lies below `here`. -/
theorem Awaits.add_four_le (h : d0.Awaits d p a) : a.toNat + 4 ≤ d.here.toNat := by
  obtain ⟨d1, -, hpending, h1⟩ := h.pending
  have hfits := hpending.fits
  have hle := h1.ext.here_le
  have h2 : (a + cellSize).toNat = a.toNat + 2 := toNat_add_cellSize (by omega)
  rw [hpending.here_eq, afterJump, toNat_add_cellSize (by omega), h2] at hle
  exact hle

/-- A jump was made to lead to `here`. Below `d0.here` nothing changed since `d0`. -/
structure Patched (d0 d d' : Dictionary) (p : Primitive) (a : Addr) : Prop where
  continues : d0.Continues d'
  here_eq : d'.here = d.here
  jumpAt : d'.JumpAt p a d.here
  agreeOn_below : d.AgreeOn d' 96 (a.toNat + 2)
  agreeOn_above : d.AgreeOn d' (a.toNat + 4) 65536

theorem Awaits.patched (h : d0.Awaits d p a) :
    d0.Patched d (d.writeCell (a + cellSize) (d.here.toInt16 - (a + cellSize).toInt16)) p a := by
  obtain ⟨d1, h0, hpending, h1⟩ := h.pending
  have hfits := hpending.fits
  have hfirst := h.ready.le_here
  have hle := h.le
  have hle' := h.add_four_le
  have hle1 := h1.ext.here_le
  have h2 : (a + cellSize).toNat = a.toNat + 2 := toNat_add_cellSize (by omega)
  have h4 : (afterJump a).toNat = a.toNat + 4 := by
    unfold afterJump
    rw [toNat_add_cellSize (by omega), h2]
  rw [toNat_firstEntry] at hfirst
  have hlt := h.continues.ext.here_lt
  have htop := d.here.toNat_lt
  generalize hv : d.here.toInt16 - (a + cellSize).toInt16 = v
  have hbelow : d.AgreeOn (d.writeCell (a + cellSize) v) 0 (a.toNat + 2) :=
    d.agreeOn_writeCell v (by omega) (Or.inr (by omega))
  have habove : d.AgreeOn (d.writeCell (a + cellSize) v) (a.toNat + 4) 65536 :=
    d.agreeOn_writeCell v (by omega) (Or.inl (by omega))
  have hsame : (d.writeCell (a + cellSize) v).here = d.here :=
    hbelow.reservedAddr (c := .here) (Nat.zero_le _) (by show 4 ≤ _; omega)
  have hlatest : (d.writeCell (a + cellSize) v).latest = d.latest :=
    hbelow.reservedAddr (c := .latest) (Nat.zero_le _) (by show 6 ≤ _; omega)
  have hall := h.continues
  refine ⟨⟨⟨?_, ?_, ?_, ?_, ?_⟩, ?_⟩, hsame, ⟨hfits, ?_, ?_, trivial⟩,
    hbelow.mono (Nat.zero_le _) (Nat.le_refl _), habove⟩
  · rw [capacity_writeCell, hall.ext.capacity_eq]
  · rw [hsame]
    exact hall.ext.here_le
  · rw [hsame, capacity_writeCell]
    exact hlt
  · exact hall.ext.agreeOn.trans (hbelow.mono (Nat.zero_le _) (by omega))
  · exact hlatest.trans hall.ext.latest_eq
  · exact hall.agreeOn.trans (hbelow.mono (Nat.zero_le _) (by omega))
  · rw [hbelow.readCell (Nat.zero_le _) (Nat.le_refl _) (by omega),
      h1.ext.agreeOn.readCell (by omega) (by rw [hpending.here_eq]; omega) (by omega)]
    exact hpending.cellsAt.1
  · rw [d.readCell_writeCell v (by omega), hv]

theorem Patched.of_inputOnly (h : d0.Patched d1 d' p a) (hd : d.InputOnly d1)
    (ha : 96 ≤ a.toNat) : d0.Patched d d' p a := by
  have hjump := h.jumpAt
  rw [hd.here_eq] at hjump
  have hbound := h.jumpAt.1
  exact ⟨h.continues, h.here_eq.trans hd.here_eq, hjump,
    (hd.agreeOn_above.mono (Nat.le_refl _) (by omega)).trans h.agreeOn_below,
    (hd.agreeOn_above.mono (by omega) (Nat.le_refl _)).trans h.agreeOn_above⟩

theorem Awaits.le_add_cellSize (h : d0.Awaits d p a) (hlimit : limit.toNat ≤ d0.here.toNat) :
    limit.toNat ≤ (a + cellSize).toNat ∧ (a + cellSize).toNat + 1 < 65536 := by
  have hle := h.le
  have hend := h.add_four_le
  have htop := d.here.toNat_lt
  have h2 : (a + cellSize).toNat = a.toNat + 2 := toNat_add_cellSize (by omega)
  exact ⟨by omega, by omega⟩

theorem Awaits.first_le (h : d0.Awaits d p a) : 96 ≤ a.toNat :=
  Nat.le_trans h.ready.le_here h.le

end Dictionary

namespace Machine

open Dictionary

variable {H : Type} {hooks : Hooks H} {call : Interpreter H} {n : Nat} {m m' : Machine H}
  {limit : Addr} {t : Tool → Addr} {fs : List Definition} {is : List Symbol}

/-! ## Steps -/

/-- The data stack has the cells `vs`, and the rest of the machine apart from the dictionary and
the host is as it was. -/
structure Leaves (m m' : Machine H) (vs : List Cell) : Prop where
  capacity_eq : m'.data.capacity = m.data.capacity
  cells_eq : m'.data.cells = vs
  returns_eq : m'.returns = m.returns
  ip_eq : m'.ip = m.ip

theorem Leaves.trans {m1 m2 : Machine H} {vs ws : List Cell} (h : m.Leaves m1 vs)
    (h' : m1.Leaves m2 ws) : m.Leaves m2 ws :=
  ⟨h'.capacity_eq.trans h.capacity_eq, h'.cells_eq, h'.returns_eq.trans h.returns_eq,
    h'.ip_eq.trans h.ip_eq⟩

/-- To execute a word whose code comes back is to do what that code does. -/
theorem of_execute_eq_ok {body : Addr} {Q : Dictionary → List Cell → Prop} (hip : m.ip = 0)
    (hbody : Layout.firstEntry ≤ body)
    (hreturns : Returns hooks call m.dictionary m.data.cells body Q)
    (h : execute hooks call n body m = .ok () m') :
    Q m'.dictionary m'.data.cells ∧ m.Leaves m' m'.data.cells := by
  rcases m with ⟨d, s, returns, ip, host⟩
  obtain rfl : ip = 0 := hip
  cases hpush : returns.push? (0 : Addr).toInt16 with
  | none =>
      have htoken : runToken hooks call n body ⟨d, s, returns, 0, host⟩ =
          .error (.error .returnStackOverflow) ⟨d, s, returns, 0, host⟩ := by
        rw [runToken_call _ _ _ _ _ _ hbody, hpush]
      simp only [execute, runFrom, bind_eq_of_error htoken] at h
      cases h
  | some returns' =>
      simp only [execute, runFrom_of_push? n d s host hbody hpush] at h
      cases hrun : runCode hooks call n ⟨d, s, returns', body, host⟩ with
      | ok u m1 => exact absurd hrun (runCode_ne_ok n _ m1)
      | error stop m1 =>
          rw [hrun] at h
          cases stop with
          | error e => cases h
          | outOfFuel => cases h
          | exit =>
              cases h
              obtain ⟨n', d', s', a, hcap, hQ, hexit, hrest⟩ :=
                hreturns n s returns' host m' rfl hrun
              -- the exit goes back to address zero
              cases n' with
              | zero => cases hrest
              | succ n' =>
                  have hlast : runToken hooks call n' Primitive.exit.token
                      ⟨d', s', returns', a, host⟩ = .error .exit ⟨d', s', returns, 0, host⟩ := by
                    rw [runToken_exit _ _ _ _ _ _ (Stack.pop?_of_push? hpush),
                      UInt16.toUInt16_toInt16, if_pos rfl]
                  rw [runCode_succ, nextToken_eq _ _ _ hexit, bind_eq_of_error hlast] at hrest
                  cases hrest
                  exact ⟨hQ, hcap, rfl, rfl, rfl⟩

/-- A number or an operator adds its cells. -/
theorem exists_of_compiles_cells {i : Symbol} {cells : List Cell}
    (h : Compiles hooks call (Spells fs) (i :: is) m m') (hready : m.dictionary.Ready)
    (hcells : ∀ n w m1, m.InputOnly m1 → Spells fs m1.dictionary w i →
      interpretWritten hooks call n w m1 = onDictionary (cells.forM append) m1) :
    ∃ m1, m.Leaves m1 m.data.cells ∧ m.dictionary.Added m1.dictionary cells ∧
      Compiles hooks call (Spells fs) is m1 m' := by
  cases h with
  | @cons n w _ _ _ m1 m2 _ reads written interprets rest =>
      rw [hcells n w m1 reads written] at interprets
      obtain ⟨d, happend, rfl⟩ := exists_of_onDictionary_eq_ok interprets
      have hadded := added_of_forM_append (reads.dictionary.ready hready) happend
      refine ⟨{ m1 with dictionary := d }, ⟨?_, ?_, reads.returns_eq, reads.ip_eq⟩,
        hadded.of_inputOnly hready reads.dictionary, rest⟩
      · exact congrArg Stack.capacity reads.data_eq
      · exact congrArg Stack.cells reads.data_eq

/-- A control word does what its code does to the dictionary that was read from. -/
theorem exists_of_compiles_keyword {k : Keyword} {Q : Dictionary → Dictionary → List Cell → Prop}
    (h : Compiles hooks call (Spells fs) (.keyword k :: is) m m')
    (hw : m.dictionary.Writing limit t fs) (hip : m.ip = 0)
    (hreturns : ∀ d body, d.Equipped limit t → d.here = m.dictionary.here →
      d.HasCode limit body (k.code t) → Returns hooks call d m.data.cells body (Q d)) :
    ∃ d m1, m.dictionary.InputOnly d ∧ Q d m1.dictionary m1.data.cells ∧
      m.Leaves m1 m1.data.cells ∧ Compiles hooks call (Spells fs) is m1 m' := by
  cases h with
  | @cons n w _ _ _ m1 m2 _ reads written interprets rest =>
      have hw1 := hw.of_continues (reads.dictionary.continues hw.ready)
      obtain ⟨body, hcode, hexecute⟩ := exists_interpretWritten_of_keyword hw1 written
      rw [hexecute] at interprets
      have hrun := hreturns m1.dictionary body hw1.vocabulary.equipped reads.dictionary.here_eq hcode
      rw [← reads.data_eq] at hrun
      obtain ⟨hQ, hleaves⟩ := of_execute_eq_ok (reads.ip_eq.trans hip)
        (UInt16.le_iff_toNat_le.2 hcode.le) hrun interprets
      refine ⟨m1.dictionary, m2, reads.dictionary, hQ, ⟨?_, rfl, ?_, ?_⟩, rest⟩
      · exact hleaves.capacity_eq.trans (congrArg Stack.capacity reads.data_eq)
      · exact hleaves.returns_eq.trans reads.returns_eq
      · exact hleaves.ip_eq.trans reads.ip_eq

/-! ## Control words -/

variable {d0 : Dictionary} {p : Primitive} {a b : Addr} {v : Cell} {vs : List Cell}

theorem exists_of_compiles_if (h : Compiles hooks call (Spells fs) (.keyword .if_ :: is) m m')
    (hw : m.dictionary.Writing limit t fs) (hip : m.ip = 0) :
    ∃ m1, m.Leaves m1 ((m.dictionary.here + cellSize).toInt16 :: m.data.cells) ∧
      m.dictionary.Awaits m1.dictionary .branchIfZero m.dictionary.here ∧
      m1.dictionary.here = afterJump m.dictionary.here ∧
      Compiles hooks call (Spells fs) is m1 m' := by
  obtain ⟨d, m1, hreads, ⟨happend, hcells⟩, hleaves, hrest⟩ :=
    exists_of_compiles_keyword h hw hip fun d body he _ hcode => returns_if he hcode
  have hadded :=
    (added_of_forM_append (hreads.ready hw.ready) happend).of_inputOnly hw.ready hreads
  rw [hreads.here_eq] at hcells
  rw [hcells] at hleaves
  exact ⟨m1, hleaves, hadded.awaits hw.ready, hadded.here_eq, hrest⟩

theorem exists_of_compiles_while (h : Compiles hooks call (Spells fs) (.keyword .while_ :: is) m m')
    (hw : m.dictionary.Writing limit t fs) (hip : m.ip = 0) (hdata : m.data.cells = v :: vs) :
    ∃ m1, m.Leaves m1 (v :: (m.dictionary.here + cellSize).toInt16 :: vs) ∧
      m.dictionary.Awaits m1.dictionary .branchIfZero m.dictionary.here ∧
      m1.dictionary.here = afterJump m.dictionary.here ∧
      Compiles hooks call (Spells fs) is m1 m' := by
  obtain ⟨d, m1, hreads, ⟨happend, hcells⟩, hleaves, hrest⟩ :=
    exists_of_compiles_keyword h hw hip fun d body he _ hcode => by
      rw [hdata]
      exact returns_while he hcode
  have hadded :=
    (added_of_forM_append (hreads.ready hw.ready) happend).of_inputOnly hw.ready hreads
  rw [hreads.here_eq] at hcells
  rw [hcells] at hleaves
  exact ⟨m1, hleaves, hadded.awaits hw.ready, hadded.here_eq, hrest⟩

theorem exists_of_compiles_begin (h : Compiles hooks call (Spells fs) (.keyword .begin_ :: is) m m')
    (hw : m.dictionary.Writing limit t fs) (hip : m.ip = 0) :
    ∃ m1, m.Leaves m1 (m.dictionary.here.toInt16 :: m.data.cells) ∧
      m.dictionary.Continues m1.dictionary ∧ m1.dictionary.here = m.dictionary.here ∧
      Compiles hooks call (Spells fs) is m1 m' := by
  obtain ⟨d, m1, hreads, ⟨hd, hcells⟩, hleaves, hrest⟩ :=
    exists_of_compiles_keyword h hw hip fun d body he _ hcode => returns_begin he hcode
  rw [hreads.here_eq] at hcells
  rw [hcells] at hleaves
  rw [← hd] at hreads
  exact ⟨m1, hleaves, hreads.continues hw.ready, hreads.here_eq, hrest⟩

theorem exists_of_compiles_until (h : Compiles hooks call (Spells fs) (.keyword .until_ :: is) m m')
    (hw : m.dictionary.Writing limit t fs) (hip : m.ip = 0)
    (hdata : m.data.cells = b.toInt16 :: vs) :
    ∃ m1, m.Leaves m1 vs ∧ m.dictionary.Continues m1.dictionary ∧
      m1.dictionary.JumpAt .branchIfZero m.dictionary.here b ∧
      m1.dictionary.here = afterJump m.dictionary.here ∧
      Compiles hooks call (Spells fs) is m1 m' := by
  obtain ⟨d, m1, hreads, ⟨happend, hcells⟩, hleaves, hrest⟩ :=
    exists_of_compiles_keyword h hw hip fun d body he _ hcode => by
      rw [hdata]
      exact returns_until he hcode
  rw [hreads.here_eq] at happend
  have hadded :=
    (added_of_forM_append (hreads.ready hw.ready) happend).of_inputOnly hw.ready hreads
  rw [hcells] at hleaves
  exact ⟨m1, hleaves, hadded.continues, hadded.jumpAt, hadded.here_eq, hrest⟩

theorem exists_of_compiles_then (h : Compiles hooks call (Spells fs) (.keyword .then_ :: is) m m')
    (hw : m.dictionary.Writing limit t fs) (hip : m.ip = 0) (hlimit : limit.toNat ≤ d0.here.toNat)
    (hawaits : d0.Awaits m.dictionary p a) (hdata : m.data.cells = (a + cellSize).toInt16 :: vs) :
    ∃ m1, m.Leaves m1 vs ∧ d0.Patched m.dictionary m1.dictionary p a ∧
      Compiles hooks call (Spells fs) is m1 m' := by
  obtain ⟨hle, htop⟩ := hawaits.le_add_cellSize hlimit
  obtain ⟨d, m1, hreads, ⟨hd, hcells⟩, hleaves, hrest⟩ :=
    exists_of_compiles_keyword h hw hip fun d body he _ hcode => by
      rw [hdata]
      exact returns_then he hcode hle htop
  have hpatched := (hawaits.of_continues (hreads.continues hw.ready)).patched
  rw [← hd] at hpatched
  rw [hcells] at hleaves
  exact ⟨m1, hleaves, hpatched.of_inputOnly hreads hawaits.first_le, hrest⟩

theorem exists_of_compiles_else (h : Compiles hooks call (Spells fs) (.keyword .else_ :: is) m m')
    (hw : m.dictionary.Writing limit t fs) (hip : m.ip = 0) (hlimit : limit.toNat ≤ d0.here.toNat)
    (hawaits : d0.Awaits m.dictionary p a) (hdata : m.data.cells = (a + cellSize).toInt16 :: vs) :
    ∃ d m1, m.Leaves m1 ((m.dictionary.here + cellSize).toInt16 :: vs) ∧
      m.dictionary.Continues d ∧ d.here = afterJump m.dictionary.here ∧
      d0.Patched d m1.dictionary p a ∧ d0.Awaits m1.dictionary .branch m.dictionary.here ∧
      Compiles hooks call (Spells fs) is m1 m' := by
  obtain ⟨hle, htop⟩ := hawaits.le_add_cellSize hlimit
  obtain ⟨d, m1, hreads, ⟨⟨d1, happend, hd1⟩, hcells⟩, hleaves, hrest⟩ :=
    exists_of_compiles_keyword h hw hip fun d body he _ hcode => by
      rw [hdata]
      exact returns_else he hcode hle htop
  have hadded :=
    (added_of_forM_append (hreads.ready hw.ready) happend).of_inputOnly hw.ready hreads
  have hpatched := (hawaits.of_continues hadded.continues).patched
  rw [← hd1] at hpatched
  rw [hreads.here_eq] at hcells
  rw [hcells] at hleaves
  have hend := hawaits.add_four_le
  have hfits := hadded.fits
  refine ⟨d1, m1, hleaves, hadded.continues, hadded.here_eq, hpatched,
    ⟨hawaits.ready, hawaits.continues.ext.here_le, m1.dictionary, hpatched.continues,
      ⟨hfits, hpatched.here_eq.trans hadded.here_eq, ?_⟩,
      .refl (hpatched.continues.ext.ready hawaits.ready)⟩, hrest⟩
  exact hadded.cellsAt.of_agreeOn hpatched.agreeOn_above hend (Nat.le_of_lt hfits) hfits

theorem exists_of_compiles_repeat
    (h : Compiles hooks call (Spells fs) (.keyword .repeat_ :: is) m m')
    (hw : m.dictionary.Writing limit t fs) (hip : m.ip = 0) (hlimit : limit.toNat ≤ d0.here.toNat)
    (hawaits : d0.Awaits m.dictionary p a)
    (hdata : m.data.cells = b.toInt16 :: (a + cellSize).toInt16 :: vs) :
    ∃ d m1, m.Leaves m1 vs ∧ m.dictionary.Continues d ∧ d.JumpAt .branch m.dictionary.here b ∧
      d.here = afterJump m.dictionary.here ∧ d0.Patched d m1.dictionary p a ∧
      Compiles hooks call (Spells fs) is m1 m' := by
  obtain ⟨hle, htop⟩ := hawaits.le_add_cellSize hlimit
  obtain ⟨d, m1, hreads, ⟨⟨d1, happend, hd1⟩, hcells⟩, hleaves, hrest⟩ :=
    exists_of_compiles_keyword h hw hip fun d body he _ hcode => by
      rw [hdata]
      exact returns_repeat he hcode hle htop
  rw [hreads.here_eq] at happend
  have hadded :=
    (added_of_forM_append (hreads.ready hw.ready) happend).of_inputOnly hw.ready hreads
  have hpatched := (hawaits.of_continues hadded.continues).patched
  rw [← hd1] at hpatched
  rw [hcells] at hleaves
  exact ⟨d1, m1, hleaves, hadded.continues, hadded.jumpAt, hadded.here_eq, hpatched, hrest⟩

/-! ## Programs

To compile what is written for a program is to lay its code in memory. The way to compile a choice
or a loop goes through its parts, so what is known of the parts is assumed for it. -/

section Programs

variable (hooks call limit t fs)

/-- What is compiled for symbols is code from where `here` was up to where it is then, and the data
stack is as it was. -/
def Lays (symbols : List Symbol) (code : Dictionary → Addr → Addr → Prop) : Prop :=
  ∀ {is : List Symbol} {m m' : Machine H},
    Compiles hooks call (Spells fs) (symbols ++ is) m m' → m.dictionary.Writing limit t fs →
      m.ip = 0 → ∃ m1, m.Leaves m1 m.data.cells ∧ m.dictionary.Continues m1.dictionary ∧
        code m1.dictionary m.dictionary.here m1.dictionary.here ∧
        Compiles hooks call (Spells fs) is m1 m'

/-- What is compiled for a statement is its code. -/
abbrev LaysCodeOf (i : Statement) : Prop := Lays hooks call limit t fs i.symbols (·.CodeOf i)

/-- What is compiled for a program is its code. -/
abbrev LaysCodeAt (P : List Statement) : Prop :=
  Lays hooks call limit t fs (Statement.symbolsOf P) (·.CodeAt P)

variable {hooks call limit t fs} {yes no test body : List Statement}

theorem lays_literal (v : Cell) : LaysCodeOf hooks call limit t fs (.literal v) := by
  intro is m m' h hw hip
  unfold Statement.symbols at h
  obtain ⟨m1, hleaves, hadded, hrest⟩ := exists_of_compiles_cells h hw.ready
    fun n w m1 hreads hspells => interpretWritten_of_literal
      (hw.of_continues (hreads.dictionary.continues hw.ready)) hspells
  refine ⟨m1, hleaves, hadded.continues, ?_, hrest⟩
  show m1.dictionary.CodeOf (.literal v) _ _
  unfold CodeOf
  exact ⟨hadded.cellsAt, hadded.fits, hadded.here_eq⟩

theorem lays_operator (op : Operator) : LaysCodeOf hooks call limit t fs (.operator op) := by
  intro is m m' h hw hip
  unfold Statement.symbols at h
  obtain ⟨m1, hleaves, hadded, hrest⟩ := exists_of_compiles_cells h hw.ready
    fun n w m1 hreads hspells => interpretWritten_of_operator
      (hw.of_continues (hreads.dictionary.continues hw.ready)) hspells
  refine ⟨m1, hleaves, hadded.continues, ?_, hrest⟩
  show m1.dictionary.CodeOf (.operator op) _ _
  unfold CodeOf
  exact ⟨hadded.fits, hadded.cellsAt.1, hadded.here_eq⟩

theorem lays_ifThen (hyes : LaysCodeAt hooks call limit t fs yes) :
    LaysCodeOf hooks call limit t fs (.ifThen yes) := by
  intro is m m' h hw hip
  simp only [Statement.symbols, List.cons_append, List.append_assoc, List.nil_append] at h
  obtain ⟨m1, hleaves1, hawaits, hhere1, h1⟩ := exists_of_compiles_if h hw hip
  obtain ⟨m2, hleaves2, hcont2, hcode, h2⟩ := hyes h1 (hw.of_continues hawaits.continues)
    (hleaves1.ip_eq.trans hip)
  rw [hleaves1.cells_eq] at hleaves2
  have hleaves := hleaves1.trans hleaves2
  have hawaits2 := hawaits.of_continues hcont2
  obtain ⟨m3, hleaves3, hpatched, h3⟩ := exists_of_compiles_then h2
    (hw.of_continues hawaits2.continues) (hleaves.ip_eq.trans hip)
    hw.vocabulary.equipped.limit_le hawaits2 hleaves.cells_eq
  refine ⟨m3, hleaves.trans hleaves3, hpatched.continues, ?_, h3⟩
  have hafter := hpatched.jumpAt.toNat_afterJump
  rw [hhere1] at hcode
  show m3.dictionary.CodeOf (.ifThen yes) _ _
  unfold CodeOf
  rw [hpatched.here_eq]
  constructor
  · exact hpatched.jumpAt
  · exact hcode.of_agreeOn hpatched.agreeOn_above (Nat.le_of_eq hafter.symm)
      (Nat.le_of_lt (UInt16.toNat_lt _))

theorem lays_ifElse (hyes : LaysCodeAt hooks call limit t fs yes)
    (hno : LaysCodeAt hooks call limit t fs no) :
    LaysCodeOf hooks call limit t fs (.ifElse yes no) := by
  intro is m m' h hw hip
  simp only [Statement.symbols, List.cons_append, List.append_assoc, List.nil_append] at h
  obtain ⟨m1, hleaves1, hawaits, hhere1, h1⟩ := exists_of_compiles_if h hw hip
  obtain ⟨m2, hleaves2, hcont2, hcode, h2⟩ := hyes h1 (hw.of_continues hawaits.continues)
    (hleaves1.ip_eq.trans hip)
  rw [hleaves1.cells_eq] at hleaves2
  have hleaves := hleaves1.trans hleaves2
  have hawaits2 := hawaits.of_continues hcont2
  obtain ⟨d, m3, hleaves3, hcontd, hhered, hpatched, hawaits3, h3⟩ := exists_of_compiles_else h2
    (hw.of_continues hawaits2.continues) (hleaves.ip_eq.trans hip)
    hw.vocabulary.equipped.limit_le hawaits2 hleaves.cells_eq
  have hleaves' := hleaves.trans hleaves3
  obtain ⟨m4, hleaves4, hcont4, hcode', h4⟩ := hno h3 (hw.of_continues hawaits3.continues)
    (hleaves'.ip_eq.trans hip)
  rw [hleaves'.cells_eq] at hleaves4
  have hleaves'' := hleaves'.trans hleaves4
  have hawaits4 := hawaits3.of_continues hcont4
  obtain ⟨m5, hleaves5, hpatched', h5⟩ := exists_of_compiles_then h4
    (hw.of_continues hawaits4.continues) (hleaves''.ip_eq.trans hip)
    hw.vocabulary.equipped.limit_le hawaits4 hleaves''.cells_eq
  refine ⟨m5, hleaves''.trans hleaves5, hpatched'.continues, ?_, h5⟩
  have hfirst := hw.ready.le_here
  have hend := hawaits2.add_four_le
  have hend' := hawaits3.add_four_le
  have hafter := hpatched.jumpAt.toNat_afterJump
  have hafter' := hpatched'.jumpAt.toNat_afterJump
  have htop := m4.dictionary.here.toNat_lt
  have htop2 := m2.dictionary.here.toNat_lt
  have hjump := hpatched.jumpAt
  rw [toNat_firstEntry] at hfirst
  rw [hhered] at hjump
  rw [hhere1] at hcode
  rw [hpatched.here_eq, hhered] at hcode'
  -- what lies below the second jump is not changed once the first one is completed
  have hkept : m3.dictionary.AgreeOn m5.dictionary 96 m2.dictionary.here.toNat :=
    (hcont4.ext.agreeOn.mono (Nat.le_refl _) (by omega)).trans
      (hpatched'.agreeOn_below.mono (Nat.le_refl _) (by omega))
  -- and the part that the first jump leads over is not changed when it is completed
  have hkept2 : m2.dictionary.AgreeOn m5.dictionary (m.dictionary.here.toNat + 4)
      m2.dictionary.here.toNat :=
    ((hcontd.ext.agreeOn.mono (by omega) (Nat.le_refl _)).trans
      (hpatched.agreeOn_above.mono (Nat.le_refl _) (by omega))).trans
      (hkept.mono (by omega) (Nat.le_refl _))
  show m5.dictionary.CodeOf (.ifElse yes no) _ _
  unfold CodeOf
  rw [hpatched'.here_eq]
  refine ⟨m2.dictionary.here, ?_, ?_, hpatched'.jumpAt, ?_⟩
  · exact hjump.of_agreeOn hkept hfirst hend
  · exact hcode.of_agreeOn hkept2 (Nat.le_of_eq hafter.symm) (Nat.le_refl _)
  · exact hcode'.of_agreeOn hpatched'.agreeOn_above (Nat.le_of_eq hafter'.symm)
      (Nat.le_of_lt htop)

theorem lays_loopUntil (hbody : LaysCodeAt hooks call limit t fs body) :
    LaysCodeOf hooks call limit t fs (.loopUntil body) := by
  intro is m m' h hw hip
  simp only [Statement.symbols, List.cons_append, List.append_assoc, List.nil_append] at h
  obtain ⟨m1, hleaves1, hcont1, hhere1, h1⟩ := exists_of_compiles_begin h hw hip
  obtain ⟨m2, hleaves2, hcont2, hcode, h2⟩ := hbody h1 (hw.of_continues hcont1)
    (hleaves1.ip_eq.trans hip)
  rw [hleaves1.cells_eq] at hleaves2
  have hleaves := hleaves1.trans hleaves2
  have hcont := hcont1.trans hcont2
  obtain ⟨m3, hleaves3, hcont3, hjump, hhere3, h3⟩ := exists_of_compiles_until h2
    (hw.of_continues hcont) (hleaves.ip_eq.trans hip) hleaves.cells_eq
  refine ⟨m3, hleaves.trans hleaves3, hcont.trans hcont3, ?_, h3⟩
  rw [hhere1] at hcode
  show m3.dictionary.CodeOf (.loopUntil body) _ _
  unfold CodeOf
  refine ⟨m2.dictionary.here, ?_, hjump, hhere3⟩
  exact hcode.of_agreeOn hcont3.ext.agreeOn hw.ready.le_here (Nat.le_refl _)

theorem lays_loopWhile (htest : LaysCodeAt hooks call limit t fs test)
    (hbody : LaysCodeAt hooks call limit t fs body) :
    LaysCodeOf hooks call limit t fs (.loopWhile test body) := by
  intro is m m' h hw hip
  simp only [Statement.symbols, List.cons_append, List.append_assoc, List.nil_append] at h
  obtain ⟨m1, hleaves1, hcont1, hhere1, h1⟩ := exists_of_compiles_begin h hw hip
  obtain ⟨m2, hleaves2, hcont2, hcode, h2⟩ := htest h1 (hw.of_continues hcont1)
    (hleaves1.ip_eq.trans hip)
  rw [hleaves1.cells_eq] at hleaves2
  have hleaves := hleaves1.trans hleaves2
  have hcont := hcont1.trans hcont2
  have hw2 := hw.of_continues hcont
  obtain ⟨m3, hleaves3, hawaits, hhere3, h3⟩ := exists_of_compiles_while h2 hw2
    (hleaves.ip_eq.trans hip) hleaves.cells_eq
  have hleaves' := hleaves.trans hleaves3
  obtain ⟨m4, hleaves4, hcont4, hcode', h4⟩ := hbody h3 (hw2.of_continues hawaits.continues)
    (hleaves'.ip_eq.trans hip)
  rw [hleaves'.cells_eq] at hleaves4
  have hleaves'' := hleaves'.trans hleaves4
  have hawaits4 := hawaits.of_continues hcont4
  obtain ⟨d, m5, hleaves5, hcontd, hback, hhered, hpatched, h5⟩ := exists_of_compiles_repeat h4
    (hw2.of_continues hawaits4.continues) (hleaves''.ip_eq.trans hip)
    hw2.vocabulary.equipped.limit_le hawaits4 hleaves''.cells_eq
  refine ⟨m5, hleaves''.trans hleaves5, hcont.trans hpatched.continues, ?_, h5⟩
  have hfirst := hw.ready.le_here
  have hle := hcont.ext.here_le
  have hend := hawaits4.add_four_le
  have hafter := hpatched.jumpAt.toNat_afterJump
  have htop := m4.dictionary.here.toNat_lt
  have hfits := hback.1
  rw [toNat_firstEntry] at hfirst
  rw [hhere1] at hcode
  rw [hhere3] at hcode'
  -- the body lies between the jump that is completed and the jump back
  have hkept : m4.dictionary.AgreeOn m5.dictionary (m2.dictionary.here.toNat + 4)
      m4.dictionary.here.toNat :=
    (hcontd.ext.agreeOn.mono (by omega) (Nat.le_refl _)).trans
      (hpatched.agreeOn_above.mono (Nat.le_refl _) (Nat.le_of_lt htop))
  show m5.dictionary.CodeOf (.loopWhile test body) _ _
  unfold CodeOf
  rw [hpatched.here_eq]
  refine ⟨m2.dictionary.here, m4.dictionary.here, ?_, hpatched.jumpAt, ?_, ?_, hhered⟩
  · exact hcode.of_agreeOn hpatched.continues.ext.agreeOn hfirst (Nat.le_refl _)
  · exact hcode'.of_agreeOn hkept (Nat.le_of_eq hafter.symm) (Nat.le_refl _)
  · exact hback.of_agreeOn hpatched.agreeOn_above hend (Nat.le_of_lt hfits)

theorem lays_nil : LaysCodeAt hooks call limit t fs [] := by
  intro is m m' h hw hip
  refine ⟨m, ⟨rfl, rfl, rfl, rfl⟩, .refl hw.ready, ?_, h⟩
  show m.dictionary.CodeAt [] _ _
  unfold CodeAt
  rfl

theorem lays_cons {i : Statement} {P : List Statement}
    (hstatement : LaysCodeOf hooks call limit t fs i)
    (hprogram : LaysCodeAt hooks call limit t fs P) : LaysCodeAt hooks call limit t fs (i :: P) := by
  intro is m m' h hw hip
  unfold Statement.symbolsOf at h
  rw [List.append_assoc] at h
  obtain ⟨m1, hleaves1, hcont1, hfirst, h1⟩ := hstatement h hw hip
  obtain ⟨m2, hleaves2, hcont2, hlast, h2⟩ := hprogram h1 (hw.of_continues hcont1)
    (hleaves1.ip_eq.trans hip)
  rw [hleaves1.cells_eq] at hleaves2
  refine ⟨m2, hleaves1.trans hleaves2, hcont1.trans hcont2, ?_, h2⟩
  show m2.dictionary.CodeAt (i :: P) _ _
  unfold CodeAt
  exact ⟨m1.dictionary.here, hfirst.of_agreeOn hcont2.ext.agreeOn hw.ready.le_here
    (Nat.le_refl _), hlast⟩

variable (hooks call limit t fs)

mutual

/-- To compile what is written for a statement is to lay its code in memory. -/
theorem laysCodeOf : ∀ i : Statement, LaysCodeOf hooks call limit t fs i
  | .literal v => lays_literal v
  | .operator op => lays_operator op
  | .ifThen yes => lays_ifThen (laysCodeAt yes)
  | .ifElse yes no => lays_ifElse (laysCodeAt yes) (laysCodeAt no)
  | .loopUntil body => lays_loopUntil (laysCodeAt body)
  | .loopWhile test body => lays_loopWhile (laysCodeAt test) (laysCodeAt body)

/-- To compile what is written for a program is to lay its code in memory. -/
theorem laysCodeAt : ∀ P : List Statement, LaysCodeAt hooks call limit t fs P
  | [] => lays_nil
  | i :: P => lays_cons (laysCodeOf i) (laysCodeAt P)

end

end Programs

/-! ## The main result -/

/-- A new word has the code of the program that was written for its body. -/
theorem codeAt_of_defines (hrefill : QuietRefill hooks call) {P : List Statement} (hip : m.ip = 0)
    (hv : m.dictionary.Vocabulary m.dictionary.here t fs)
    (h : Defines hooks call (Spells fs) (Statement.symbolsOf P) m m') :
    ∃ stop, Layout.firstEntry ≤ m'.dictionary.entryBody m'.dictionary.latest ∧
      m'.dictionary.CodeAt P (m'.dictionary.entryBody m'.dictionary.latest) stop ∧
      m'.dictionary.readCell stop = Primitive.exit.token.toInt16 ∧
      stop.toNat + 2 ≤ m'.dictionary.here.toNat := by
  rcases h with ⟨n, n', m1, m3, hcolon, hcompiles, hsemicolon⟩
  obtain ⟨entry, hopens⟩ := opens_of_execute_eq_ok hrefill hip hcolon
  have hw : m1.dictionary.Writing m.dictionary.here t fs := by
    have hentry := hopens.toNat_entry
    refine ⟨hv.of_extends hopens.dict_extends, hopens.compiling_eq, ?_⟩
    unfold openEntry
    rw [hopens.openEntry_eq]
    omega
  rw [← List.append_nil (Statement.symbolsOf P)] at hcompiles
  obtain ⟨m2, hleaves, hcontinues, hcode, hrest⟩ :=
    laysCodeAt hooks call m.dictionary.here t fs P hcompiles hw (hopens.ip_eq.trans hip)
  cases hrest with
  | nil reads =>
      have hreads := reads.dictionary.extends (hcontinues.ext.ready hw.ready)
      have hdone := completes_of_execute_eq_ok hip hopens (hcontinues.ext.trans hreads)
        (reads.data_eq.trans (Stack.ext hleaves.capacity_eq hleaves.cells_eq))
        (reads.returns_eq.trans hleaves.returns_eq) (reads.ip_eq.trans hleaves.ip_eq) hsemicolon
      have hfirst := hw.ready.le_here
      have hcode' := hcode.of_agreeOn hreads.agreeOn hfirst (Nat.le_refl _)
      rw [← reads.dictionary.here_eq] at hcode'
      rw [hdone.body_eq]
      exact ⟨m3.dictionary.here, UInt16.le_iff_toNat_le.2 hfirst,
        hcode'.of_agreeOn hdone.agreeOn_body (Nat.le_refl _) (Nat.le_refl _), hdone.exit_eq,
        Nat.le_of_eq hdone.toNat_here.symm⟩

/-- A new word ends in every way in which the program that was written for its body does, begun
with any data stack, if there is room for its own call on the return stack. -/
theorem execute_endsAs_of_defines (hrefill : QuietRefill hooks call) {P : List Statement}
    (hip : m.ip = 0) (hv : m.dictionary.Vocabulary m.dictionary.here t fs)
    (h : Defines hooks call (Spells fs) (Statement.symbolsOf P) m m') {d : Dictionary}
    (hd : m'.dictionary.InputOnly d) {s : Stack} {o : Outcome} (hends : Statement.EndsAll P s o)
    (returns : Stack) (host : H) (hroom : returns.depth + 1 ≤ returns.capacity) :
    ∃ k, ∀ n, EndsAs ⟨d, s, returns, 0, host⟩ o
      (execute hooks call (n + k) (m'.dictionary.entryBody m'.dictionary.latest)
        ⟨d, s, returns, 0, host⟩) := by
  obtain ⟨stop, hbody, hcode, hexit, hstop⟩ := codeAt_of_defines hrefill hip hv h
  have hle := hcode.le
  have htop := m'.dictionary.here.toNat_lt
  have hfirst : 96 ≤ (m'.dictionary.entryBody m'.dictionary.latest).toNat :=
    UInt16.le_iff_toNat_le.1 hbody
  have hcode' := hcode.of_agreeOn hd.agreeOn_above hfirst (by omega)
  have hexit' : d.readCell stop = Primitive.exit.token.toInt16 := by
    calc d.readCell stop
        = m'.dictionary.readCell stop :=
          hd.agreeOn_above.readCell (by omega) (by omega) (by omega)
      _ = Primitive.exit.token.toInt16 := hexit
  exact execute_of_does hbody (does_of_endsAll hends hcode') hexit' returns host hroom

/-- The lines of the standard vocabulary in which the control words are defined, and the words
that they need. -/
def controlLines : List String :=
  [2, 7, 8, 15, 16, 18, 19, 21, 27, 28, 29, 30, 31, 33, 34].filterMap (Prelude.lines[·]?)

/-- A machine that knows the control words, and a line with the name of a new word and its body. -/
def controlMachine : Machine Unit := lastState <|
  (do
    Prelude.interpretLines {} 100 controlLines
    onDictionary (loadInput (Text.encode "w if begin dup while 1 - repeat else 7 then")) :
      MachineM Unit Unit)
  (ofDictionary (.setUp ⟨.sparse (.zeros 1024)⟩) () {})

/-- The definitions of that machine. -/
def controlWords : List Definition :=
  (controlMachine.dictionary.entries?.getD []).map fun e =>
    ⟨e.addr, controlMachine.dictionary.text e.name, e.immediate, e.body⟩

/-- Where the other words are that the control words need. -/
def controlTools : Tool → Addr
  | .fetch => 112
  | .store => 122
  | .here => 134
  | .allot => 162
  | .comma => 178
  | .over_ => 102

/-- Counts down to zero, if a flag says so. -/
def countdown : Statement :=
  .ifElse [.loopWhile [.operator .dup] [.literal 1, .operator .sub]] [.literal 7]

/-- The text of the new word, as it is written in the line. -/
def countdownText : List (Written × Symbol) :=
  [(.name (.ofLength 18 2), .keyword .if_), (.name (.ofLength 21 5), .keyword .begin_),
    (.name (.ofLength 27 3), .operator .dup), (.name (.ofLength 31 5), .keyword .while_),
    (.name (.ofLength 37 1), .literal 1), (.name (.ofLength 39 1), .operator .sub),
    (.name (.ofLength 41 6), .keyword .repeat_), (.name (.ofLength 48 4), .keyword .else_),
    (.name (.ofLength 53 1), .literal 7), (.name (.ofLength 55 4), .keyword .then_)]

/-- The machine after `;`. -/
def countdownMachine : Machine Unit :=
  afterDefinition {} (interpreter {} 100) 100 countdownText controlMachine

/-- The machine knows its control words, and nothing fails. -/
theorem controlMachine_countdownMachine_eq :
    controlMachine.ip = 0 ∧
      controlMachine.dictionary.Vocabulary controlMachine.dictionary.here controlTools
        controlWords ∧
      Finishes {} (interpreter {} 100) (Spells controlWords) 100 countdownText controlMachine ∧
      countdownMachine.returns.depth + 1 ≤ countdownMachine.returns.capacity := by
  decide +kernel

/-- A word that counts down from two to zero, if a flag says so. -/
theorem execute_endsAs_countdown :
    Defines {} (interpreter {} 100) (Spells controlWords) (Statement.symbolsOf [countdown])
        controlMachine countdownMachine ∧
      ∃ k, ∀ n, execute {} (interpreter {} 100) (n + k)
          (countdownMachine.dictionary.entryBody countdownMachine.dictionary.latest)
          ⟨countdownMachine.dictionary, ⟨64, [1, 2], 2, rfl, by decide⟩, countdownMachine.returns,
            0, ()⟩ =
        .ok () ⟨countdownMachine.dictionary, ⟨64, [0], 1, rfl, by decide⟩,
          countdownMachine.returns, 0, ()⟩ := by
  obtain ⟨hip, hvocabulary, hfinishes, hroom⟩ := controlMachine_countdownMachine_eq
  have hdefines : Defines {} (interpreter {} 100) (Spells controlWords)
      (Statement.symbolsOf [countdown]) controlMachine countdownMachine :=
    defines_of_finishes _ _ _ hfinishes
  have hrefill : QuietRefill ({} : Hooks Unit) (interpreter {} 100) :=
    ⟨fun m => .refl m, fun m m' h => by cases h⟩
  have htest : ∀ (v : Cell), Statement.EndsAll [.operator .dup] ⟨64, [v], 1, rfl, by decide⟩
      (.ok () ⟨64, [v, v], 2, rfl, by decide⟩) := fun v => .cons (.operator .dup _) (.nil _)
  have hbody : ∀ (v : Cell), Statement.EndsAll [.literal 1, .operator .sub]
      ⟨64, [v], 1, rfl, by decide⟩ (.ok () ⟨64, [v - 1], 1, rfl, by decide⟩) := fun v =>
    .cons (.literal 1 _) (.cons (.operator .sub _) (.nil _))
  have hloop : Statement.Ends (.loopWhile [.operator .dup] [.literal 1, .operator .sub])
      ⟨64, [2], 1, rfl, by decide⟩ (.ok () ⟨64, [0], 1, rfl, by decide⟩) :=
    .whileAgain (htest 2) rfl (by decide) (hbody 2)
      (.whileAgain (htest 1) rfl (by decide) (hbody 1) (.whileDone (htest 0) rfl))
  have hends : Statement.EndsAll [countdown] ⟨64, [1, 2], 2, rfl, by decide⟩
      (.ok () ⟨64, [0], 1, rfl, by decide⟩) :=
    .cons (.ifElse rfl (.cons hloop (.nil _))) (.nil _)
  obtain ⟨k, hk⟩ := execute_endsAs_of_defines hrefill hip hvocabulary hdefines (.refl _) hends
    countdownMachine.returns () hroom
  exact ⟨hdefines, k, fun n => endsAs_ok.1 (hk n)⟩

end Machine

end ThreadedForth
