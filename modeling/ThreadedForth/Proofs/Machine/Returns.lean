import ThreadedForth.Proofs.Machine.Compile

/-!
# Code that is known to come back

While a word is compiled, other words run, and they change the dictionary as well as the data
stack. That they succeed is known then, and what they did is sought. `Returns d vs a Q` says so
of the code at the address `a`: a run from there that comes to a good end has come to an exit
first, with a dictionary and with cells on the data stack of which `Q` holds. Such facts are put
together from the last token of a word backwards (`returns_literal`, `returns_operator`,
`returns_call`), and nothing has to be said about room on the stacks.

`HasCode` says where the code is. It lies below a limit, and a word that writes above the limit
does not change it.
-/

set_option autoImplicit false

namespace ThreadedForth

/-- The token of a number that has one. -/
def shortLiteral (v : Cell) : Cell := (Token.literal v).encode.toInt16

/-! ## Code below a limit -/

namespace Dictionary

variable {d d' : Dictionary} {limit a : Addr} {v : Cell} {vs ws : List Cell}

/-- Cells of code lie from an address on, and end below a limit. -/
structure HasCode (d : Dictionary) (limit : Addr) (a : Addr) (vs : List Cell) : Prop where
  le : Layout.firstEntry.toNat ≤ a.toNat
  le_limit : a.toNat + 2 * vs.length ≤ limit.toNat
  cellsAt : d.CellsAt a vs

instance (d : Dictionary) (limit a : Addr) (vs : List Cell) : Decidable (d.HasCode limit a vs) :=
  decidable_of_iff (_ ∧ _ ∧ _) ⟨fun ⟨h, h', h''⟩ => ⟨h, h', h''⟩, fun ⟨h, h', h''⟩ => ⟨h, h', h''⟩⟩

namespace HasCode

theorem readCell_eq (h : d.HasCode limit a (v :: vs)) : d.readCell a = v := h.cellsAt.1

theorem ne_zero (h : d.HasCode limit a vs) : a ≠ 0 := by
  rintro rfl
  exact absurd h.le (by decide)

theorem append_right (h : d.HasCode limit a (vs ++ ws)) : d.HasCode limit (after a vs) ws := by
  have hle := h.le
  have hlimit := h.le_limit
  have htop := limit.toNat_lt
  rw [List.length_append] at hlimit
  have hafter : (after a vs).toNat = a.toNat + 2 * vs.length := toNat_after (by omega)
  exact ⟨by omega, by omega, (cellsAt_append.1 h.cellsAt).2⟩

theorem tail (h : d.HasCode limit a (v :: vs)) : d.HasCode limit (a + cellSize) vs :=
  append_right (show d.HasCode limit a ([v] ++ vs) from h)

/-- Code is kept with the bytes below the limit. -/
theorem of_agreeOn (h : d.HasCode limit a vs) (hd : d.AgreeOn d' 96 limit.toNat) :
    d'.HasCode limit a vs := by
  have hlimit := h.le_limit
  have htop := limit.toNat_lt
  exact ⟨h.le, hlimit, h.cellsAt.of_agreeOn hd h.le hlimit (by omega)⟩

end HasCode

end Dictionary

namespace Machine

variable {H : Type} (hooks : Hooks H) (call : Interpreter H)

/-- Code that comes to a good end has come to an exit first, with a dictionary and cells on the
data stack of which `Q` holds, and with the same return stack. -/
def Returns (d : Dictionary) (vs : List Cell) (a : Addr) (Q : Dictionary → List Cell → Prop) :
    Prop :=
  ∀ (n : Nat) (s returns : Stack) (host : H) (m : Machine H), s.cells = vs →
    runCode hooks call n ⟨d, s, returns, a, host⟩ = .error .exit m →
      ∃ n' d' s' stop, s'.capacity = s.capacity ∧ Q d' s'.cells ∧
        d'.readCell stop = Primitive.exit.token.toInt16 ∧
        runCode hooks call n' ⟨d', s', returns, stop, host⟩ = .error .exit m

variable {hooks call} {d d' : Dictionary} {vs vs' : List Cell} {a body : Addr} {v w : Cell}
  {Q R : Dictionary → List Cell → Prop}

/-! ## Tokens -/

theorem returns_exit (h : d.readCell a = Primitive.exit.token.toInt16) (hQ : Q d vs) :
    Returns hooks call d vs a Q := by
  rintro n s returns host m rfl hrun
  exact ⟨n, d, s, a, rfl, hQ, h, hrun⟩

/-- Code that comes to an exit has succeeded with its first token, if that is no exit itself. -/
theorem exists_of_runCode_eq_exit {n : Nat} {m m' : Machine H}
    (h : runCode hooks call n m = .error .exit m')
    (hexit : ∀ k m1, runToken hooks call k m.nextToken m ≠ .error .exit m1) :
    ∃ k m1, runToken hooks call k m.nextToken m = .ok () m1 ∧
      runCode hooks call k m1 = .error .exit m' := by
  cases n with
  | zero => cases h
  | succ k =>
      rw [runCode_succ] at h
      cases htoken : runToken hooks call k m.nextToken m with
      | ok u m1 =>
          rw [bind_eq_of_ok htoken] at h
          exact ⟨k, m1, htoken, h⟩
      | error stop m1 =>
          rw [bind_eq_of_error htoken] at h
          cases h
          exact absurd htoken (hexit k m')

/-- Code that comes to an exit goes on after its first token, of which all is known that happens. -/
theorem exists_of_runCode_of_known {P : Machine H → Prop} {n : Nat} {m m' : Machine H}
    (hrun : runCode hooks call n m = .error .exit m')
    (h : (∃ m1, P m1 ∧ ∀ k, runToken hooks call k m.nextToken m = .ok () m1) ∨
      ∃ e m1, ∀ k, runToken hooks call k m.nextToken m = .error (.error e) m1) :
    ∃ k m1, P m1 ∧ runCode hooks call k m1 = .error .exit m' := by
  rcases h with ⟨m1, hP, htoken⟩ | ⟨e, m1, htoken⟩
  · obtain ⟨k, m2, hok, hrest⟩ := exists_of_runCode_eq_exit hrun fun k m2 hk => by
      rw [htoken] at hk
      cases hk
    rw [htoken] at hok
    cases hok
    exact ⟨k, m1, hP, hrest⟩
  · obtain ⟨k, m2, hok, -⟩ := exists_of_runCode_eq_exit hrun fun k m2 hk => by
      rw [htoken] at hk
      cases hk
    rw [htoken] at hok
    cases hok

/-- A token of which it is known what it does if it succeeds, and that it is no exit. -/
theorem returns_of_runToken_eq_ok
    (h : ∀ (n : Nat) (s returns : Stack) (host : H) (m : Machine H), s.cells = vs →
      runToken hooks call n (d.readCell a).toUInt16 ⟨d, s, returns, a, host⟩ = .ok () m →
      ∃ d' s', m = ⟨d', s', returns, a + cellSize, host⟩ ∧ s'.capacity = s.capacity ∧
        Returns hooks call d' s'.cells (a + cellSize) Q)
    (hexit : ∀ (n : Nat) (s returns : Stack) (host : H) (m : Machine H), s.cells = vs →
      runToken hooks call n (d.readCell a).toUInt16 ⟨d, s, returns, a, host⟩ ≠ .error .exit m) :
    Returns hooks call d vs a Q := by
  intro n s returns host m hs hrun
  obtain ⟨k, m1, htoken, hrest⟩ :=
    exists_of_runCode_eq_exit hrun fun k m1 => hexit k s returns host m1 hs
  obtain ⟨d1, s1, rfl, hcap, hreturns⟩ := h k s returns host m1 hs htoken
  obtain ⟨n', d', s', stop, hcap', hQ, hstop, hrun'⟩ := hreturns k s1 returns host m rfl hrest
  exact ⟨n', d', s', stop, hcap'.trans hcap, hQ, hstop, hrun'⟩

/-- A token of which all is known that happens. -/
theorem returns_of_runToken
    (h : ∀ (n : Nat) (s returns : Stack) (host : H), s.cells = vs →
      (∃ d' s', runToken hooks call n (d.readCell a).toUInt16 ⟨d, s, returns, a, host⟩ =
          .ok () ⟨d', s', returns, a + cellSize, host⟩ ∧ s'.capacity = s.capacity ∧
          Returns hooks call d' s'.cells (a + cellSize) Q) ∨
        ∃ e m, runToken hooks call n (d.readCell a).toUInt16 ⟨d, s, returns, a, host⟩ =
          .error (.error e) m) : Returns hooks call d vs a Q := by
  refine returns_of_runToken_eq_ok (fun n s returns host m hs hrun => ?_)
    fun n s returns host m hs hrun => ?_
  · rcases h n s returns host hs with ⟨d', s', htoken, hcap, hrest⟩ | ⟨e, m1, htoken⟩
    · rw [htoken] at hrun
      cases hrun
      exact ⟨d', s', rfl, hcap, hrest⟩
    · rw [htoken] at hrun
      cases hrun
  · rcases h n s returns host hs with ⟨d', s', htoken, -⟩ | ⟨e, m1, htoken⟩
    · rw [htoken] at hrun
      cases hrun
    · rw [htoken] at hrun
      cases hrun

/-- A primitive that moves on, and never exits. -/
theorem returns_of_perform {p : Primitive} {x : Nat → MachineM H Unit}
    (h : d.readCell a = p.token.toInt16)
    (hperform : ∀ n, perform hooks call n p = (do x n; return .advance))
    (hx : ∀ (n : Nat) (s returns : Stack) (host : H) (m : Machine H), s.cells = vs →
      x n ⟨d, s, returns, a, host⟩ = .ok () m →
      ∃ d' s', m = ⟨d', s', returns, a, host⟩ ∧ s'.capacity = s.capacity ∧
        Returns hooks call d' s'.cells (a + cellSize) Q)
    (hexit : ∀ (n : Nat) (s returns : Stack) (host : H) (m : Machine H), s.cells = vs →
      x n ⟨d, s, returns, a, host⟩ ≠ .error .exit m) : Returns hooks call d vs a Q := by
  refine returns_of_runToken_eq_ok (fun n s returns host m hs hrun => ?_)
    fun n s returns host m hs hrun => ?_
  · rw [h, UInt16.toUInt16_toInt16, runToken_token (hperform n)] at hrun
    obtain ⟨_, m1, hm1, hm⟩ := exists_of_bind_eq_ok hrun
    obtain ⟨d', s', rfl, hcap, hrest⟩ := hx n s returns host m1 hs hm1
    cases hm
    exact ⟨d', s', rfl, hcap, hrest⟩
  · rw [h, UInt16.toUInt16_toInt16, runToken_token (hperform n)] at hrun
    rcases of_bind_eq_error hrun with hx1 | ⟨u, m1, -, hadvance⟩
    · exact hexit n s returns host m hs hx1
    · cases hadvance

theorem returns_literal (hv : Token.ofLiteral? v = some (.literal v))
    (h : d.readCell a = shortLiteral v) (hrest : Returns hooks call d (v :: vs) (a + cellSize) Q) :
    Returns hooks call d vs a Q := by
  refine returns_of_runToken fun n s returns host hs => ?_
  rw [h, shortLiteral, UInt16.toUInt16_toInt16, runToken_of_ofLiteral? _ _ _ _ _ _ hv]
  cases hpush : s.push? v with
  | some s' =>
      refine Or.inl ⟨d, s', rfl, Stack.capacity_of_push? hpush, ?_⟩
      rw [Stack.cells_of_push? hpush, hs]
      exact hrest
  | none => exact Or.inr ⟨_, _, rfl⟩

/-- A number in a cell of its own. -/
theorem returns_longLiteral (h : d.CellsAt a (longLiteral v))
    (hrest : Returns hooks call d (v :: vs) (a + cellSize + cellSize) Q) :
    Returns hooks call d vs a Q := by
  intro n s returns host m hs hrun
  obtain ⟨k, m1, ⟨s1, hpush, rfl⟩, hrun1⟩ := exists_of_runCode_of_known hrun
    (P := fun m1 => ∃ s1, s.push? v = some s1 ∧ m1 = ⟨d, s1, returns, a + cellSize + cellSize, host⟩)
    (by
      cases hpush : s.push? v with
      | some s1 =>
          refine .inl ⟨_, ⟨s1, rfl, rfl⟩, fun k => ?_⟩
          rw [nextToken_eq _ _ _ h.1, runToken_literal, h.2.1, hpush]
      | none =>
          refine .inr ⟨.stackOverflow, ⟨d, s, returns, a + cellSize, host⟩, fun k => ?_⟩
          rw [nextToken_eq _ _ _ h.1, runToken_literal, h.2.1, hpush])
  have hcells : s1.cells = v :: vs := by rw [Stack.cells_of_push? hpush, hs]
  obtain ⟨n', d', s', stop, hcap, hQ, hexit, hrun'⟩ := hrest k s1 returns host m hcells hrun1
  exact ⟨n', d', s', stop, hcap.trans (Stack.capacity_of_push? hpush), hQ, hexit, hrun'⟩

theorem returns_operator {op : Operator}
    (h : d.readCell a = (Primitive.operator op).token.toInt16)
    (hop : ∀ s s', s.cells = vs → op.apply s = .ok () s' →
      s'.capacity = s.capacity ∧ s'.cells = vs')
    (hrest : Returns hooks call d vs' (a + cellSize) Q) : Returns hooks call d vs a Q := by
  refine returns_of_runToken fun n s returns host hs => ?_
  rw [h, UInt16.toUInt16_toInt16, runToken_operator]
  cases happly : op.apply s with
  | ok u s' =>
      obtain ⟨hcap, hcells⟩ := hop s s' hs happly
      refine Or.inl ⟨d, s', rfl, hcap, ?_⟩
      rw [hcells]
      exact hrest
  | error e s' => exact Or.inr ⟨_, _, rfl⟩

theorem returns_binary {op : Operator} {f : Cell → Cell → Cell} (hf : op.apply = StackM.binary f)
    (h : d.readCell a = (Primitive.operator op).token.toInt16)
    (hrest : Returns hooks call d (f v w :: vs) (a + cellSize) Q) :
    Returns hooks call d (w :: v :: vs) a Q := by
  refine returns_operator h (fun s s' hs happly => ?_) hrest
  rw [hf, StackM.binary] at happly
  obtain ⟨p, s1, hpop, hpush⟩ := exists_of_bind_eq_ok happly
  simp only [StackM.pop2, hs] at hpop
  cases hpop
  have ht := StackM.push?_of_push_eq_ok hpush
  constructor
  · exact (Stack.capacity_of_push? ht).trans (s.capacity_drop 2)
  · rw [Stack.cells_of_push? ht, Stack.cells_drop, hs]
    rfl

/-- What `swap` does to the cells. -/
theorem of_apply_swap_eq_ok {s s' : Stack} (hs : s.cells = w :: v :: vs)
    (h : Operator.swap.apply s = .ok () s') : s'.capacity = s.capacity ∧ s'.cells = v :: w :: vs := by
  obtain ⟨p, s1, hpop, hpush⟩ := exists_of_bind_eq_ok h
  simp only [StackM.pop2, hs] at hpop
  cases hpop
  obtain ⟨u, s2, hfirst, hlast⟩ := exists_of_bind_eq_ok hpush
  have ht := StackM.push?_of_push_eq_ok hfirst
  have ht' := StackM.push?_of_push_eq_ok hlast
  constructor
  · rw [Stack.capacity_of_push? ht', Stack.capacity_of_push? ht, s.capacity_drop]
  · rw [Stack.cells_of_push? ht', Stack.cells_of_push? ht, Stack.cells_drop, hs]
    rfl

theorem returns_swap (h : d.readCell a = (Primitive.operator .swap).token.toInt16)
    (hrest : Returns hooks call d (v :: w :: vs) (a + cellSize) Q) :
    Returns hooks call d (w :: v :: vs) a Q :=
  returns_operator h (fun _ _ => of_apply_swap_eq_ok) hrest

theorem returns_dup (h : d.readCell a = (Primitive.operator .dup).token.toInt16)
    (hrest : Returns hooks call d (v :: v :: vs) (a + cellSize) Q) :
    Returns hooks call d (v :: vs) a Q := by
  refine returns_operator h (fun s s' hs happly => ?_) hrest
  obtain ⟨u, s1, htop, hpush⟩ := exists_of_bind_eq_ok happly
  simp only [StackM.top, StackM.pick, Stack.pick?, hs, List.getElem?_cons_zero] at htop
  cases htop
  have ht := StackM.push?_of_push_eq_ok hpush
  constructor
  · exact Stack.capacity_of_push? ht
  · rw [Stack.cells_of_push? ht, hs]

/-- While an operator works, the top cell is kept on the return stack. -/
theorem returns_under {op : Operator}
    (h : d.CellsAt a [Primitive.toReturn.token.toInt16, (Primitive.operator op).token.toInt16,
      Primitive.fromReturn.token.toInt16])
    (hop : ∀ s s', s.cells = vs → op.apply s = .ok () s' →
      s'.capacity = s.capacity ∧ s'.cells = vs')
    (hrest : Returns hooks call d (v :: vs') (a + cellSize + cellSize + cellSize) Q) :
    Returns hooks call d (v :: vs) a Q := by
  intro n s returns host m hs hrun
  obtain ⟨s1, hpop, hcells1, hcap1⟩ : ∃ s1, s.pop? = some (v, s1) ∧ s1.cells = vs ∧
      s1.capacity = s.capacity := by
    rcases s with ⟨capacity, cells, depth, hdepth, hle⟩
    obtain rfl : cells = v :: vs := hs
    exact ⟨_, rfl, rfl, rfl⟩
  obtain ⟨k1, m1, ⟨returns1, hpush, rfl⟩, hrun1⟩ := exists_of_runCode_of_known hrun
    (P := fun m1 => ∃ r, returns.push? v = some r ∧ m1 = ⟨d, s1, r, a + cellSize, host⟩)
    (by
      cases hpush : returns.push? v with
      | some r =>
          refine .inl ⟨_, ⟨r, rfl, rfl⟩, fun k => ?_⟩
          rw [nextToken_eq _ _ _ h.1, runToken_toReturn, hpop]
          simp only [hpush]
      | none =>
          refine .inr ⟨.returnStackOverflow, ⟨d, s, returns, a, host⟩, fun k => ?_⟩
          rw [nextToken_eq _ _ _ h.1, runToken_toReturn, hpop]
          simp only [hpush])
  obtain ⟨k2, m2, ⟨s2, happly, rfl⟩, hrun2⟩ := exists_of_runCode_of_known hrun1
    (P := fun m2 => ∃ t, op.apply s1 = .ok () t ∧
      m2 = ⟨d, t, returns1, a + cellSize + cellSize, host⟩)
    (by
      cases happly : op.apply s1 with
      | ok u t =>
          refine .inl ⟨_, ⟨t, rfl, rfl⟩, fun k => ?_⟩
          rw [nextToken_eq _ _ _ h.2.1, runToken_operator, happly]
      | error e t =>
          refine .inr ⟨e, ⟨d, t, returns1, a + cellSize, host⟩, fun k => ?_⟩
          rw [nextToken_eq _ _ _ h.2.1, runToken_operator, happly])
  obtain ⟨hcap2, hcells2⟩ := hop s1 s2 hcells1 happly
  -- the cell is taken back
  have hback := Stack.pop?_of_push? hpush
  obtain ⟨k3, m3, ⟨s3, hpush3, rfl⟩, hrun3⟩ := exists_of_runCode_of_known hrun2
    (P := fun m3 => ∃ t, s2.push? v = some t ∧
      m3 = ⟨d, t, returns, a + cellSize + cellSize + cellSize, host⟩)
    (by
      cases hpush3 : s2.push? v with
      | some t =>
          refine .inl ⟨_, ⟨t, rfl, rfl⟩, fun k => ?_⟩
          rw [nextToken_eq _ _ _ h.2.2.1, runToken_fromReturn, hback]
          simp only [hpush3]
      | none =>
          refine .inr ⟨.stackOverflow, ⟨d, s2, returns, a + cellSize + cellSize, host⟩, fun k => ?_⟩
          rw [nextToken_eq _ _ _ h.2.2.1, runToken_fromReturn, hback]
          simp only [hpush3])
  have hcells3 : s3.cells = v :: vs' := by rw [Stack.cells_of_push? hpush3, hcells2]
  have hcap3 := (Stack.capacity_of_push? hpush3).trans (hcap2.trans hcap1)
  obtain ⟨n', d', s', stop, hcap, hQ, hexit, hrun'⟩ := hrest k3 s3 returns host m hcells3 hrun3
  exact ⟨n', d', s', stop, hcap.trans hcap3, hQ, hexit, hrun'⟩

/-- The second cell is copied to the top. -/
theorem returns_pick_one (h : d.readCell a = (Primitive.operator .pick).token.toInt16)
    (hrest : Returns hooks call d (v :: w :: v :: vs) (a + cellSize) Q) :
    Returns hooks call d (1 :: w :: v :: vs) a Q := by
  refine returns_operator h (fun s s' hs happly => ?_) hrest
  rcases s with ⟨capacity, cells, depth, hdepth, hle⟩
  obtain rfl : cells = 1 :: w :: v :: vs := hs
  cases happly
  exact ⟨rfl, rfl⟩

/-- A cell is read. -/
theorem returns_fetch {addr : Cell} (h : d.readCell a = Primitive.fetch.token.toInt16)
    (hrest : Returns hooks call d (d.readCell addr.toUInt16 :: vs) (a + cellSize) Q) :
    Returns hooks call d (1 :: addr :: vs) a Q := by
  refine returns_of_runToken fun n s returns host hs => ?_
  rw [h, UInt16.toUInt16_toInt16, runToken_fetch _ _ _ _ _ _ hs, if_pos (by decide)]
  cases hpush : (s.drop 2).push? (d.readCell addr.toUInt16) with
  | some s' =>
      refine Or.inl ⟨d, s', rfl, (Stack.capacity_of_push? hpush).trans (s.capacity_drop 2), ?_⟩
      rw [Stack.cells_of_push? hpush, Stack.cells_drop, hs]
      exact hrest
  | none => exact Or.inr ⟨_, _, rfl⟩

/-- A cell is written, elsewhere than to `here`. -/
theorem returns_store {addr : Cell} (h : d.readCell a = Primitive.store.token.toInt16)
    (haddr : addr.toUInt16 ≠ SystemCell.here.addr)
    (hrest : Returns hooks call (d.writeCell addr.toUInt16 v) vs (a + cellSize) Q) :
    Returns hooks call d (1 :: addr :: v :: vs) a Q := by
  refine returns_of_runToken fun n s returns host hs => ?_
  rw [h, UInt16.toUInt16_toInt16, runToken_store _ _ _ _ _ _ hs (by decide) haddr]
  refine Or.inl ⟨d.writeCell addr.toUInt16 v, s.drop 3, rfl, rfl, ?_⟩
  rw [Stack.cells_drop, hs]
  exact hrest

/-- To write to `here` is to take the room up to there. -/
theorem returns_store_here (h : d.readCell a = Primitive.store.token.toInt16)
    (hrest : ∀ x d', Dictionary.allot (v - d.reserved .here) d = .ok x d' →
      Returns hooks call d' vs (a + cellSize) Q) :
    Returns hooks call d (1 :: SystemCell.here.addr.toInt16 :: v :: vs) a Q := by
  refine returns_of_runToken fun n s returns host hs => ?_
  rw [h, UInt16.toUInt16_toInt16, runToken_store_here _ _ _ _ _ _ hs (by decide)]
  cases hallot : Dictionary.allot (v - d.reserved .here) d with
  | ok x d' =>
      refine Or.inl ⟨d', s.drop 3, rfl, rfl, ?_⟩
      rw [Stack.cells_drop, hs]
      exact hrest x d' hallot
  | error e d' => exact Or.inr ⟨e, _, rfl⟩

/-- A call comes back with what the called code leaves. -/
theorem returns_call (h : d.readCell a = body.toInt16) (ha : a ≠ 0)
    (hbody : Layout.firstEntry ≤ body) (hcallee : Returns hooks call d vs body R)
    (hrest : ∀ d' vs', R d' vs' → Returns hooks call d' vs' (a + cellSize) Q) :
    Returns hooks call d vs a Q := by
  intro n s returns host m hs hrun
  cases n with
  | zero => cases hrun
  | succ n =>
      rw [runCode_succ, nextToken_eq _ _ _ h] at hrun
      cases hpush : returns.push? a.toInt16 with
      | none =>
          rw [bind_eq_of_error (by rw [runToken_call _ _ _ _ _ _ hbody, hpush])] at hrun
          cases hrun
      | some returns' =>
          rw [bind_eq_of_ok (by rw [runToken_call _ _ _ _ _ _ hbody, hpush])] at hrun
          obtain ⟨n1, d1, s1, stop, hcap, hR, hexit, hrun1⟩ := hcallee n s returns' host m hs hrun
          -- the exit of the called code goes back to the cell after the call
          cases n1 with
          | zero => cases hrun1
          | succ n1 =>
              rw [runCode_succ, nextToken_eq _ _ _ hexit,
                bind_eq_of_ok (by rw [runToken_exit _ _ _ _ _ _ (Stack.pop?_of_push? hpush),
                  UInt16.toUInt16_toInt16, if_neg ha])] at hrun1
              obtain ⟨n', d', s', stop', hcap', hQ, hexit', hrun'⟩ :=
                hrest d1 s1.cells hR n1 s1 returns host m rfl hrun1
              exact ⟨n', d', s', stop', hcap'.trans hcap, hQ, hexit', hrun'⟩

end Machine

end ThreadedForth
