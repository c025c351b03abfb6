import ThreadedForth.Proofs.Machine.Returns
import ThreadedForth.Proofs.Machine.Structured
import ThreadedForth.Proofs.Operator

/-!
# Straight code

What code without jumps does, where it is known to have room. `Stands` says all about a machine that
runs code: the dictionary, the cells on both stacks and the address. `Reaches` says that from there
the code comes to a machine of which something holds. Facts about a stretch of code are put together
from its last token backwards, as in `Returns`; here the rooms on the stacks are hypotheses, and that
the code comes to its end is a conclusion.
-/

set_option autoImplicit false

namespace ThreadedForth

namespace Machine

variable {H : Type}

/-- The machine runs at an address, with so many places on its stacks and these cells on them. -/
structure Stands (dataCells returnCells : Nat) (host : H) (d : Dictionary) (vs rs : List Cell)
    (a : Addr) (m : Machine H) : Prop where
  dictionary_eq : m.dictionary = d
  data_cells : m.data.cells = vs
  data_capacity : m.data.capacity = dataCells
  returns_cells : m.returns.cells = rs
  returns_capacity : m.returns.capacity = returnCells
  ip_eq : m.ip = a
  host_eq : m.host = host

variable (hooks : Hooks H) (call : Interpreter H) (C R : Nat) (host : H)

/-- Code that runs so comes to run in a machine of which `T` holds. -/
def Reaches (d : Dictionary) (vs rs : List Cell) (a : Addr) (T : Machine H → Prop) : Prop :=
  ∀ m, Stands C R host d vs rs a m → ∃ m', Goes hooks call m m' ∧ T m'

variable {hooks call C R host} {d d' : Dictionary} {vs vs' rs rs' : List Cell}
  {a b body addr : Addr} {v : Cell} {T : Machine H → Prop}

/-- The code has come to where it stands. -/
theorem reaches_of_stands (h : ∀ m, Stands C R host d vs rs a m → T m) :
    Reaches hooks call C R host d vs rs a T :=
  fun m hm => ⟨m, .refl m, h m hm⟩

/-- A token runs, and the code goes on after it. -/
theorem reaches_of_runToken
    (h : ∀ s returns : Stack, s.cells = vs → s.capacity = C → returns.cells = rs →
      returns.capacity = R → ∃ s' returns', (∀ n, runToken hooks call n (d.readCell a).toUInt16
          ⟨d, s, returns, a, host⟩ = .ok () ⟨d', s', returns', b, host⟩) ∧
        s'.cells = vs' ∧ s'.capacity = C ∧ returns'.cells = rs' ∧ returns'.capacity = R)
    (hrest : Reaches hooks call C R host d' vs' rs' b T) :
    Reaches hooks call C R host d vs rs a T := by
  rintro ⟨d1, s, returns, ip, host1⟩ ⟨rfl, hs, hC, hr, hR, rfl, rfl⟩
  obtain ⟨s', returns', hrun, hs', hC', hr', hR'⟩ := h s returns hs hC hr hR
  obtain ⟨m', hgoes, hT⟩ := hrest ⟨d', s', returns', b, host1⟩ ⟨rfl, hs', hC', hr', hR', rfl, rfl⟩
  exact ⟨m', (goes_of_runToken hrun).trans hgoes, hT⟩

/-! ## Tokens -/

theorem reaches_literal (hv : Token.ofLiteral? v = some (.literal v))
    (h : d.readCell a = shortLiteral v) (hroom : vs.length < C)
    (hrest : Reaches hooks call C R host d (v :: vs) rs (a + cellSize) T) :
    Reaches hooks call C R host d vs rs a T := by
  refine reaches_of_runToken (fun s returns hs hC hr hR => ?_) hrest
  obtain ⟨s', hpush, hcells, hcap⟩ := s.exists_push?_of_length_lt (v := v) (by rw [hs, hC]; exact hroom)
  refine ⟨s', returns, fun n => ?_, hcells.trans (by rw [hs]), hcap.trans hC, hr, hR⟩
  rw [h, shortLiteral, UInt16.toUInt16_toInt16, runToken_of_ofLiteral? _ _ _ _ _ _ hv, hpush]

theorem reaches_toReturn (h : d.readCell a = Primitive.toReturn.token.toInt16)
    (hroom : rs.length < R) (hrest : Reaches hooks call C R host d vs (v :: rs) (a + cellSize) T) :
    Reaches hooks call C R host d (v :: vs) rs a T := by
  refine reaches_of_runToken (fun s returns hs hC hr hR => ?_) hrest
  obtain ⟨s', hpop, hcells, hcap⟩ := Stack.exists_pop? hs
  obtain ⟨returns', hpush, hcells', hcap'⟩ :=
    returns.exists_push?_of_length_lt (v := v) (by rw [hr, hR]; exact hroom)
  refine ⟨s', returns', fun n => ?_, hcells, hcap.trans hC, hcells'.trans (by rw [hr]),
    hcap'.trans hR⟩
  rw [h, UInt16.toUInt16_toInt16, runToken_toReturn, hpop]
  dsimp only
  rw [hpush]

theorem reaches_fromReturn (h : d.readCell a = Primitive.fromReturn.token.toInt16)
    (hroom : vs.length < C) (hrest : Reaches hooks call C R host d (v :: vs) rs (a + cellSize) T) :
    Reaches hooks call C R host d vs (v :: rs) a T := by
  refine reaches_of_runToken (fun s returns hs hC hr hR => ?_) hrest
  obtain ⟨returns', hpop, hcells', hcap'⟩ := Stack.exists_pop? hr
  obtain ⟨s', hpush, hcells, hcap⟩ :=
    s.exists_push?_of_length_lt (v := v) (by rw [hs, hC]; exact hroom)
  refine ⟨s', returns', fun n => ?_, hcells.trans (by rw [hs]), hcap.trans hC, hcells',
    hcap'.trans hR⟩
  rw [h, UInt16.toUInt16_toInt16, runToken_fromReturn, hpop]
  dsimp only
  rw [hpush]

/-- What is read depends on the width: a cell, or a byte as a small number. -/
theorem reaches_fetch_width {width x : Cell} (h : d.readCell a = Primitive.fetch.token.toInt16)
    (hroom : vs.length < C) (hx : (if width ≠ 0 then d.readCell v.toUInt16
      else (d.readByte v.toUInt16).toUInt16.toInt16) = x)
    (hrest : Reaches hooks call C R host d (x :: vs) rs (a + cellSize) T) :
    Reaches hooks call C R host d (width :: v :: vs) rs a T := by
  refine reaches_of_runToken (fun s returns hs hC hr hR => ?_) hrest
  have hdrop : (s.drop 2).cells = vs := by
    rw [Stack.cells_drop, hs]
    rfl
  obtain ⟨s', hpush, hcells, hcap⟩ := (s.drop 2).exists_push?_of_length_lt (v := x)
    (by rw [hdrop, s.capacity_drop, hC]; exact hroom)
  refine ⟨s', returns, fun n => ?_, hcells.trans (by rw [hdrop]),
    hcap.trans ((s.capacity_drop 2).trans hC), hr, hR⟩
  rw [h, UInt16.toUInt16_toInt16, runToken_fetch _ _ _ _ _ _ hs, hx, hpush]

theorem reaches_fetch (h : d.readCell a = Primitive.fetch.token.toInt16) (hroom : vs.length < C)
    (hrest : Reaches hooks call C R host d (d.readCell v.toUInt16 :: vs) rs (a + cellSize) T) :
    Reaches hooks call C R host d (1 :: v :: vs) rs a T :=
  reaches_fetch_width h hroom (if_pos (by decide)) hrest

theorem reaches_fetchByte (h : d.readCell a = Primitive.fetch.token.toInt16) (hroom : vs.length < C)
    (hrest : Reaches hooks call C R host d ((d.readByte v.toUInt16).toUInt16.toInt16 :: vs) rs
      (a + cellSize) T) :
    Reaches hooks call C R host d (0 :: v :: vs) rs a T :=
  reaches_fetch_width h hroom (if_neg fun hne => hne rfl) hrest

theorem reaches_store {w : Cell} (h : d.readCell a = Primitive.store.token.toInt16)
    (haddr : v.toUInt16 ≠ SystemCell.here.addr)
    (hrest : Reaches hooks call C R host (d.writeCell v.toUInt16 w) vs rs (a + cellSize) T) :
    Reaches hooks call C R host d (1 :: v :: w :: vs) rs a T := by
  refine reaches_of_runToken (fun s returns hs hC hr hR => ?_) hrest
  refine ⟨s.drop 3, returns, fun n => ?_, ?_, (s.capacity_drop 3).trans hC, hr, hR⟩
  · rw [h, UInt16.toUInt16_toInt16, runToken_store _ _ _ _ _ _ hs (by decide) haddr]
  · rw [Stack.cells_drop, hs]
    rfl

theorem reaches_call (h : d.readCell a = body.toInt16) (hbody : Layout.firstEntry ≤ body)
    (hroom : rs.length < R)
    (hrest : Reaches hooks call C R host d vs (a.toInt16 :: rs) body T) :
    Reaches hooks call C R host d vs rs a T := by
  refine reaches_of_runToken (fun s returns hs hC hr hR => ?_) hrest
  obtain ⟨returns', hpush, hcells, hcap⟩ :=
    returns.exists_push?_of_length_lt (v := a.toInt16) (by rw [hr, hR]; exact hroom)
  refine ⟨s, returns', fun n => ?_, hs, hC, hcells.trans (by rw [hr]), hcap.trans hR⟩
  rw [h, UInt16.toUInt16_toInt16, runToken_call _ _ _ _ _ _ hbody, hpush]

/-- An exit leads to the cell after the call. -/
theorem reaches_exit (h : d.readCell b = Primitive.exit.token.toInt16) (ha : a ≠ 0)
    (hrest : Reaches hooks call C R host d vs rs (a + cellSize) T) :
    Reaches hooks call C R host d vs (a.toInt16 :: rs) b T := by
  refine reaches_of_runToken (fun s returns hs hC hr hR => ?_) hrest
  obtain ⟨returns', hpop, hcells, hcap⟩ := Stack.exists_pop? hr
  refine ⟨s, returns', fun n => ?_, hs, hC, hcells, hcap.trans hR⟩
  rw [h, UInt16.toUInt16_toInt16, runToken_exit _ _ _ _ _ _ hpop, UInt16.toUInt16_toInt16, if_neg ha]

/-! ## Programs of the data stack -/

/-- Code that does what a program of the data stack does, and this succeeds. -/
theorem reaches_of_does {x : StackM Unit} (hdoes : ∀ s, Does hooks call d 0 a b s (x s))
    (hleaves : ∀ s : Stack, s.cells = vs → s.capacity = C → StackM.Leaves x s vs')
    (hrest : Reaches hooks call C R host d vs' rs b T) :
    Reaches hooks call C R host d vs rs a T := by
  rintro ⟨d, s, returns, ip, host⟩ ⟨rfl, hs, hC, hr, hR, rfl, rfl⟩
  obtain ⟨s', hrun, hcells, hcap⟩ := hleaves s hs hC
  have hgoes := hdoes s
  rw [hrun] at hgoes
  obtain ⟨m', hgoes', hT⟩ :=
    hrest ⟨d, s', returns, b, host⟩ ⟨rfl, hcells, hcap.trans hC, hr, hR, rfl, rfl⟩
  exact ⟨m', (hgoes returns host returns.depth_le).trans hgoes', hT⟩

theorem reaches_operator {op : Operator} (h : d.readCell a = (Primitive.operator op).token.toInt16)
    (heffect : op.effect? vs = some vs') (hroom : vs'.length ≤ C)
    (hrest : Reaches hooks call C R host d vs' rs (a + cellSize) T) :
    Reaches hooks call C R host d vs rs a T := by
  refine reaches_of_does (fun s => does_operator s h) (fun s hs hC => ?_) hrest
  exact Operator.leaves_apply (by rw [hs]; exact heffect) (by rw [hC]; exact hroom)

theorem reaches_number (h : d.CellsAt a (literalCells v)) (hroom : vs.length < C)
    (hrest : Reaches hooks call C R host d (v :: vs) rs (after a (literalCells v)) T) :
    Reaches hooks call C R host d vs rs a T := by
  refine reaches_of_does (fun s => does_literal s h) (fun s hs hC => ?_) hrest
  rw [← hs]
  exact StackM.leaves_push (by rw [hs, hC]; exact hroom)

theorem reaches_branchIfZero (h : d.JumpAt .branchIfZero a b)
    (hrest : Reaches hooks call C R host d vs rs (if v = 0 then b else Dictionary.afterJump a) T) :
    Reaches hooks call C R host d (v :: vs) rs a T := by
  rintro ⟨d, s, returns, ip, host⟩ ⟨rfl, hs, hC, hr, hR, rfl, rfl⟩
  obtain ⟨s', hpop, hcells, hcap⟩ := Stack.exists_pop? hs
  have hflag : StackM.pop s = .ok v s' := by
    unfold StackM.pop
    rw [hpop]
  obtain ⟨m', hgoes, hT⟩ := hrest ⟨d, s', returns, _, host⟩
    ⟨rfl, hcells, hcap.trans hC, hr, hR, rfl, rfl⟩
  have hjump := does_branchIfZero hooks call h hflag
  exact ⟨m', (hjump returns host returns.depth_le).trans hgoes, hT⟩

/-! ## Execution -/

/-- To execute code is to run it above a zero on the return stack. -/
theorem exists_of_reaches {s returns : Stack} (hbody : Layout.firstEntry ≤ body)
    (hroom : returns.cells.length < returns.capacity)
    (h : Reaches hooks call s.capacity returns.capacity host d s.cells (0 :: returns.cells) body T) :
    ∃ m, T m ∧ ∀ stop m', Halts hooks call m (.error stop m') →
      ∃ k, ∀ n, execute hooks call (n + k) body ⟨d, s, returns, 0, host⟩ =
        if stop = .exit then .ok () m' else .error stop { m' with ip := 0 } := by
  obtain ⟨returns', hpush, hcells, hcap⟩ :=
    returns.exists_push?_of_length_lt (v := (0 : Addr).toInt16) hroom
  obtain ⟨m, hgoes, hT⟩ := h ⟨d, s, returns', body, host⟩ ⟨rfl, rfl, rfl, hcells, hcap, rfl, rfl⟩
  refine ⟨m, hT, fun stop m' hhalts => ?_⟩
  obtain ⟨k, hk⟩ := hgoes.halts hhalts
  refine ⟨k, fun n => ?_⟩
  rw [execute, runFrom_of_push? _ _ _ _ hbody hpush, hk]
  by_cases hstop : stop = .exit
  · rw [if_pos hstop, hstop]
  · rw [if_neg hstop]
    cases stop with
    | exit => exact absurd rfl hstop
    | _ => rfl

/-- There is one machine that stands so. -/
theorem Stands.eq {s returns : Stack} {m : Machine H}
    (hm : Stands s.capacity returns.capacity host d s.cells returns.cells a m) :
    m = ⟨d, s, returns, a, host⟩ := by
  rcases m with ⟨d, data, rs, ip, host⟩
  obtain ⟨rfl, hdata, hdataCap, hrs, hrsCap, rfl, rfl⟩ := hm
  obtain rfl : data = s := Stack.ext hdataCap hdata
  obtain rfl : rs = returns := Stack.ext hrsCap hrs
  rfl

/-- The exit that ends an execution. -/
theorem halts_of_stands {s returns : Stack} {m : Machine H}
    (hm : Stands s.capacity returns.capacity host d s.cells (0 :: returns.cells) a m)
    (h : d.readCell a = Primitive.exit.token.toInt16) :
    Halts hooks call m (.error .exit ⟨d, s, returns, 0, host⟩) := by
  obtain ⟨rest, hpop, hrest, hrestCap⟩ := Stack.exists_pop? hm.returns_cells
  obtain rfl : rest = returns := Stack.ext (hrestCap.trans hm.returns_capacity) hrest
  rcases m with ⟨d, data, rs, ip, host⟩
  obtain ⟨rfl, hdata, hdataCap, -, -, rfl, rfl⟩ := hm
  obtain rfl : data = s := Stack.ext hdataCap hdata
  refine halts_of_runToken fun n => ?_
  rw [nextToken_eq _ _ _ h, runToken_exit _ _ _ _ _ _ hpop]
  exact if_pos rfl

end Machine

end ThreadedForth
