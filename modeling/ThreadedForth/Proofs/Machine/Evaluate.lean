import ThreadedForth.Prelude
import ThreadedForth.Proofs.Machine.Compile
import ThreadedForth.Proofs.Machine.Reaches

/-!
# Interpreting a text in memory

`evaluate` is a word of the language: it keeps the three cells about the source on the return stack,
makes a text the source, asks for its interpretation and puts the cells back. What is interpreted
runs inside the word and can do anything. `evaluate_transparent` says what its caller relies on: a
text that succeeds, leaves the return stack as it found it, keeps the code of the word and leaves
room for three cells on the data stack is followed by the caller's next token, or by the next word
of the line, with the source as it was.

The room is needed, since the word puts the cells back by way of the data stack:
`evaluate_crowdedMachine` is a text that succeeds and after which `evaluate` fails.
-/

set_option autoImplicit false

namespace ThreadedForth

/-! ## The code of `evaluate` -/

/-- The code of the word that reads a cell. -/
def fetchCells : List Cell :=
  [shortLiteral 1, Primitive.fetch.token.toInt16, Primitive.exit.token.toInt16]

/-- The code of the word that writes a cell. -/
def storeCells : List Cell :=
  [shortLiteral 1, Primitive.store.token.toInt16, Primitive.exit.token.toInt16]

/-- Code that keeps a reserved cell on the return stack. -/
def keepCells (fetch : Addr) (c : SystemCell) : List Cell :=
  [shortLiteral c.addr.toInt16, fetch.toInt16, Primitive.toReturn.token.toInt16]

/-- Code that puts the top cell into a reserved cell. -/
def putCells (store : Addr) (c : SystemCell) : List Cell :=
  [shortLiteral c.addr.toInt16, store.toInt16]

/-- Code that puts a cell that was kept back into its place. -/
def restoreCells (store : Addr) (c : SystemCell) : List Cell :=
  Primitive.fromReturn.token.toInt16 :: putCells store c

/-- The code of `evaluate` up to where the text is interpreted. -/
def enterCells (fetch store : Addr) : List Cell :=
  keepCells fetch .source ++ (keepCells fetch .sourceLength ++ (keepCells fetch .cursor ++
    (putCells store .sourceLength ++ (putCells store .source ++
      (shortLiteral 0 :: putCells store .cursor)))))

/-- The code of `evaluate` after the text was interpreted. -/
def leaveCells (store : Addr) : List Cell :=
  restoreCells store .cursor ++ (restoreCells store .sourceLength ++
    (restoreCells store .source ++ [Primitive.exit.token.toInt16]))

namespace Dictionary

variable {d d' : Dictionary} {limit ev fetch store a : Addr} {v : Cell} {vs : List Cell}

/-- `evaluate` and the two words that it calls have their code in memory. -/
structure HasEvaluate (d : Dictionary) (limit ev fetch store : Addr) : Prop where
  evaluate : d.HasCode limit ev
    (enterCells fetch store ++ (Primitive.evaluate.token.toInt16 :: leaveCells store))
  fetch : d.HasCode limit fetch fetchCells
  store : d.HasCode limit store storeCells

instance (d : Dictionary) (limit ev fetch store : Addr) :
    Decidable (d.HasEvaluate limit ev fetch store) :=
  decidable_of_iff (_ ∧ _ ∧ _) ⟨fun ⟨h, h', h''⟩ => ⟨h, h', h''⟩, fun ⟨h, h', h''⟩ => ⟨h, h', h''⟩⟩

theorem HasEvaluate.of_agreeOn (h : d.HasEvaluate limit ev fetch store)
    (hd : d.AgreeOn d' 96 limit.toNat) : d'.HasEvaluate limit ev fetch store :=
  ⟨h.evaluate.of_agreeOn hd, h.fetch.of_agreeOn hd, h.store.of_agreeOn hd⟩

/-- Reserved cells lie below all code. -/
theorem agreeOn_code_setReserved (d : Dictionary) (limit : Addr) (c : SystemCell) (v : Cell) :
    d.AgreeOn (d.setReserved c v) 96 limit.toNat :=
  d.agreeOn_setReserved c v (Or.inl (by have := c.toNat_addr_add_two_le; omega))

theorem HasCode.firstEntry_le (h : d.HasCode limit a vs) : Layout.firstEntry ≤ a :=
  UInt16.le_iff_toNat_le.2 h.le

/-- Where there is code, there is memory. -/
theorem HasCode.lt_capacity (h : d.HasCode limit a (v :: vs)) (hv : v ≠ 0) : 96 < d.capacity := by
  have hle := h.le
  have hend := h.le_limit
  have htop := limit.toNat_lt
  rw [toNat_firstEntry] at hle
  rw [List.length_cons] at hend
  refine Nat.lt_of_not_le fun hcap => hv ?_
  have h1 : (a + 1).toNat = a.toNat + 1 := toNat_add_one (by omega)
  have hlow : d.memory.readByte a = 0 := Memory.readByte_of_capacity_le (Nat.le_trans hcap hle)
  have hhigh : d.memory.readByte (a + 1) = 0 :=
    Memory.readByte_of_capacity_le (Nat.le_trans hcap (by omega))
  rw [← h.readCell_eq, readCell, Memory.readCell_eq, hlow, hhigh]
  rfl

/-- The dictionary with a text as the source. -/
def withText (d : Dictionary) (addr length : Cell) : Dictionary :=
  ((d.setReserved .sourceLength length).setReserved .source addr).setReserved .cursor 0

/-- The dictionary with the source of another one. -/
def withSourceOf (d d₀ : Dictionary) : Dictionary :=
  ((d.setReserved .cursor (d₀.reserved .cursor)).setReserved .sourceLength
    (d₀.reserved .sourceLength)).setReserved .source (d₀.reserved .source)

variable {d₀ : Dictionary} {c : SystemCell}

theorem reserved_withSourceOf (hcap : 16 ≤ d.capacity)
    (hc : c ∈ [SystemCell.source, .sourceLength, .cursor]) :
    (d.withSourceOf d₀).reserved c = d₀.reserved c := by
  unfold withSourceOf
  rcases List.mem_cons.1 hc with rfl | hc
  · exact reserved_setReserved _ _ _ (by simpa using hcap)
  rw [reserved_setReserved_of_ne _ _ (by rintro rfl; exact absurd hc (by decide))]
  rcases List.mem_cons.1 hc with rfl | hc
  · exact reserved_setReserved _ _ _ (by simpa using hcap)
  obtain rfl := List.mem_singleton.1 hc
  rw [reserved_setReserved_of_ne _ _ (by decide)]
  exact reserved_setReserved _ _ _ hcap

/-- Nothing but the three cells changes with the source. -/
theorem readByte_withSourceOf (d d₀ : Dictionary) (ha : a.toNat < 10 ∨ 16 ≤ a.toNat) :
    (d.withSourceOf d₀).readByte a = d.readByte a := by
  have hkeep : ∀ (d : Dictionary) (c : SystemCell) (v : Cell), 10 ≤ c.addr.toNat →
      (d.setReserved c v).readByte a = d.readByte a := by
    intro d c v hc
    have htop := c.toNat_addr_add_two_le
    refine d.agreeOn_setReserved c v ?_ a (Nat.le_refl _) (Nat.lt_succ_self _)
    omega
  unfold withSourceOf
  rw [hkeep _ _ _ (by decide), hkeep _ _ _ (by decide), hkeep _ _ _ (by decide)]

/-- A byte that is the same in both dictionaries is so with the source of either. -/
theorem readByte_withSourceOf_eq (hcap : 16 ≤ d.capacity) (h : d.readByte a = d₀.readByte a) :
    (d.withSourceOf d₀).readByte a = d₀.readByte a := by
  by_cases ha : a.toNat < 10 ∨ 16 ≤ a.toNat
  · rw [readByte_withSourceOf d d₀ ha, h]
  have hcell : ∀ c ∈ [SystemCell.source, .sourceLength, .cursor],
      a = c.addr ∨ a = c.addr + 1 → (d.withSourceOf d₀).readByte a = d₀.readByte a := by
    intro c hc hac
    have hcells : (d.withSourceOf d₀).reserved c = d₀.reserved c := reserved_withSourceOf hcap hc
    obtain ⟨hlow, hhigh⟩ := readByte_eq_of_readCell_eq hcells
    rcases hac with hac | hac
    · rw [hac]
      exact hlow
    · rw [hac]
      exact hhigh
  have hvalue : ∀ b : Addr, a.toNat = b.toNat → a = b := fun b => UInt16.toNat_inj.1
  by_cases h12 : a.toNat < 12
  · refine hcell .source (by decide) ?_
    rcases (by omega : a.toNat = 10 ∨ a.toNat = 11) with h | h
    · exact Or.inl (hvalue 10 h)
    · exact Or.inr (hvalue 11 h)
  by_cases h14 : a.toNat < 14
  · refine hcell .sourceLength (by decide) ?_
    rcases (by omega : a.toNat = 12 ∨ a.toNat = 13) with h | h
    · exact Or.inl (hvalue 12 h)
    · exact Or.inr (hvalue 13 h)
  · refine hcell .cursor (by decide) ?_
    rcases (by omega : a.toNat = 14 ∨ a.toNat = 15) with h | h
    · exact Or.inl (hvalue 14 h)
    · exact Or.inr (hvalue 15 h)

/-- The bytes of the source. -/
def sourceText (d : Dictionary) : Span :=
  .ofLength (d.reservedAddr .source) (d.reservedAddr .sourceLength)

/-- What is unread is the same if the cells about the source and its bytes are. -/
theorem unread_eq_of_sourceText
    (hcells : ∀ c ∈ [SystemCell.source, .sourceLength, .cursor], d'.reserved c = d.reserved c)
    (hbytes : ∀ a ∈ d.sourceText.addrs, d'.readByte a = d.readByte a) : d'.unread = d.unread := by
  have hsource : d'.reservedAddr .source = d.reservedAddr .source :=
    congrArg Int16.toUInt16 (hcells .source (by decide))
  have hlength : d'.reservedAddr .sourceLength = d.reservedAddr .sourceLength :=
    congrArg Int16.toUInt16 (hcells .sourceLength (by decide))
  have hcursor : d'.reservedAddr .cursor = d.reservedAddr .cursor :=
    congrArg Int16.toUInt16 (hcells .cursor (by decide))
  unfold unread unreadStart unreadLength
  rw [hsource, hlength, hcursor]
  apply List.map_congr_left
  intro i hi
  have hi : i < (d.reservedAddr .sourceLength).toNat - (d.reservedAddr .cursor).toNat :=
    List.mem_range.1 hi
  -- the byte is the one so many places behind the cursor
  have hplace : d.reservedAddr .source + d.reservedAddr .cursor + UInt16.ofNat i =
      d.reservedAddr .source + UInt16.ofNat ((d.reservedAddr .cursor).toNat + i) := by
    rw [UInt16.ofNat_add, UInt16.ofNat_toNat, UInt16.add_assoc]
  rw [hplace]
  refine hbytes _ (List.mem_map.2 ⟨_, List.mem_range.2 ?_, rfl⟩)
  rw [sourceText, Span.length_ofLength]
  omega

end Dictionary

namespace Machine

open Dictionary

variable {H : Type} {hooks : Hooks H} {call : Interpreter H} {C R : Nat} {host : H}
  {d : Dictionary} {limit ev fetch store a addr' : Addr} {c : SystemCell} {v addr length : Cell}
  {vs rs cs : List Cell} {T : Machine H → Prop} {m m₁ m₂ : Machine H}

/-! ## Parts of the code -/

theorem ofLiteral?_addr (c : SystemCell) :
    Token.ofLiteral? c.addr.toInt16 = some (.literal c.addr.toInt16) := by
  cases c <;> rfl

/-- A reserved cell is kept. -/
theorem reaches_keep (hcode : d.HasCode limit a (keepCells fetch c ++ cs))
    (hfetch : d.HasCode limit fetch fetchCells) (hC : vs.length + 2 ≤ C) (hR : rs.length < R)
    (hrest : Reaches hooks call C R host d vs (d.reserved c :: rs)
      (after a (keepCells fetch c)) T) : Reaches hooks call C R host d vs rs a T := by
  refine reaches_literal (ofLiteral?_addr c) hcode.readCell_eq (by omega) ?_
  refine reaches_call hcode.tail.readCell_eq hfetch.firstEntry_le hR ?_
  refine reaches_literal rfl hfetch.readCell_eq (by rw [List.length_cons]; omega) ?_
  refine reaches_fetch hfetch.tail.readCell_eq (by omega) ?_
  rw [UInt16.toUInt16_toInt16]
  refine reaches_exit hfetch.tail.tail.readCell_eq hcode.tail.ne_zero ?_
  exact reaches_toReturn hcode.tail.tail.readCell_eq hR hrest

/-- A reserved cell other than `here` is written. -/
theorem reaches_put (hcode : d.HasCode limit a (putCells store c ++ cs))
    (hstore : d.HasCode limit store storeCells) (hc : c ≠ .here) (hC : vs.length + 3 ≤ C)
    (hR : rs.length < R)
    (hrest : Reaches hooks call C R host (d.setReserved c v) vs rs
      (after a (putCells store c)) T) : Reaches hooks call C R host d (v :: vs) rs a T := by
  have haddr : c.addr.toInt16.toUInt16 ≠ SystemCell.here.addr := by
    rw [UInt16.toUInt16_toInt16]
    cases c <;> first | exact absurd rfl hc | decide
  have hstore' := hstore.of_agreeOn (d.agreeOn_code_setReserved limit c v)
  refine reaches_literal (ofLiteral?_addr c) hcode.readCell_eq (by rw [List.length_cons]; omega) ?_
  refine reaches_call hcode.tail.readCell_eq hstore.firstEntry_le hR ?_
  refine reaches_literal rfl hstore.readCell_eq
    (by rw [List.length_cons, List.length_cons]; omega) ?_
  refine reaches_store hstore.tail.readCell_eq haddr ?_
  rw [UInt16.toUInt16_toInt16]
  exact reaches_exit hstore'.tail.tail.readCell_eq hcode.tail.ne_zero hrest

/-- A cell that was kept is put back. -/
theorem reaches_restore (hcode : d.HasCode limit a (restoreCells store c ++ cs))
    (hstore : d.HasCode limit store storeCells) (hc : c ≠ .here) (hC : vs.length + 3 ≤ C)
    (hR : rs.length < R)
    (hrest : Reaches hooks call C R host (d.setReserved c v) vs rs
      (after a (restoreCells store c)) T) : Reaches hooks call C R host d vs (v :: rs) a T := by
  refine reaches_fromReturn hcode.readCell_eq (by omega) ?_
  exact reaches_put hcode.tail hstore hc hC hR hrest

/-- `evaluate` comes to where the text is interpreted. -/
theorem reaches_enter (h : d.HasEvaluate limit ev fetch store) (hC : vs.length + 4 ≤ C)
    (hR : rs.length + 4 ≤ R)
    (hrest : Reaches hooks call C R host (d.withText addr length) vs
      (d.reserved .cursor :: d.reserved .sourceLength :: d.reserved .source :: rs)
      (after ev (enterCells fetch store)) T) :
    Reaches hooks call C R host d (length :: addr :: vs) rs ev T := by
  simp only [enterCells, after_append, after_cons] at hrest
  have hcode := h.evaluate
  rw [enterCells, List.append_assoc] at hcode
  refine reaches_keep hcode h.fetch (by simp only [List.length_cons]; omega) (by omega) ?_
  have hcode := hcode.append_right
  rw [List.append_assoc] at hcode
  refine reaches_keep hcode h.fetch (by simp only [List.length_cons]; omega)
    (by simp only [List.length_cons]; omega) ?_
  have hcode := hcode.append_right
  rw [List.append_assoc] at hcode
  refine reaches_keep hcode h.fetch (by simp only [List.length_cons]; omega)
    (by simp only [List.length_cons]; omega) ?_
  have hcode := hcode.append_right
  rw [List.append_assoc] at hcode
  refine reaches_put hcode h.store (by decide) (by rw [List.length_cons]; omega)
    (by simp only [List.length_cons]; omega) ?_
  -- the writes to reserved cells leave the code as it is
  have hagree := d.agreeOn_code_setReserved limit .sourceLength length
  have hcode := (hcode.append_right).of_agreeOn hagree
  have h := h.of_agreeOn hagree
  rw [List.append_assoc] at hcode
  refine reaches_put hcode h.store (by decide) (by omega) (by simp only [List.length_cons]; omega) ?_
  have hagree := (d.setReserved .sourceLength length).agreeOn_code_setReserved limit .source addr
  have hcode := (hcode.append_right).of_agreeOn hagree
  have h := h.of_agreeOn hagree
  refine reaches_literal rfl hcode.readCell_eq (by omega) ?_
  exact reaches_put hcode.tail h.store (by decide) (by omega)
    (by simp only [List.length_cons]; omega) hrest

/-- After the text, `evaluate` puts the source back and comes to its exit. -/
theorem reaches_leave (h : d.HasCode limit a (leaveCells store))
    (hstore : d.HasCode limit store storeCells) (d₀ : Dictionary) (hC : vs.length + 3 ≤ C)
    (hR : rs.length + 3 ≤ R)
    (hrest : (d.withSourceOf d₀).HasCode limit (after a (restoreCells store .cursor ++
        (restoreCells store .sourceLength ++ restoreCells store .source)))
        [Primitive.exit.token.toInt16] →
      Reaches hooks call C R host (d.withSourceOf d₀) vs rs (after a (restoreCells store .cursor ++
        (restoreCells store .sourceLength ++ restoreCells store .source))) T) :
    Reaches hooks call C R host d vs
      (d₀.reserved .cursor :: d₀.reserved .sourceLength :: d₀.reserved .source :: rs) a T := by
  simp only [after_append] at hrest
  refine reaches_restore h hstore (by decide) hC (by simp only [List.length_cons]; omega) ?_
  have hagree := d.agreeOn_code_setReserved limit .cursor (d₀.reserved .cursor)
  have h := h.append_right.of_agreeOn hagree
  have hstore := hstore.of_agreeOn hagree
  refine reaches_restore h hstore (by decide) hC (by simp only [List.length_cons]; omega) ?_
  have hagree := agreeOn_code_setReserved (d.setReserved .cursor (d₀.reserved .cursor)) limit
    .sourceLength (d₀.reserved .sourceLength)
  have h := h.append_right.of_agreeOn hagree
  have hstore := hstore.of_agreeOn hagree
  refine reaches_restore h hstore (by decide) hC (by omega) (hrest ?_)
  exact h.append_right.of_agreeOn (agreeOn_code_setReserved _ limit .source (d₀.reserved .source))

/-! ## The whole word -/

/-- To interpret the source runs outside of any code, and the code goes on after it. -/
theorem runToken_evaluate {m' : Machine H} (n : Nat)
    (h : call .interpretSource { m with ip := 0 } = .ok () m') :
    runToken hooks call n Primitive.evaluate.token m =
      .ok () { m' with ip := m.ip + cellSize } := by
  unfold runToken
  rw [decode_token]
  simp only [perform, withIp, h, bind, EStateM.bind, pure, EStateM.pure, advance]

theorem HasEvaluate.withText (h : d.HasEvaluate limit ev fetch store) (addr length : Cell) :
    (d.withText addr length).HasEvaluate limit ev fetch store :=
  ((h.of_agreeOn (agreeOn_code_setReserved _ limit .sourceLength length)).of_agreeOn
    (agreeOn_code_setReserved _ limit .source addr)).of_agreeOn
      (agreeOn_code_setReserved _ limit .cursor 0)

/-- How `evaluate` begins the interpretation of a text: nothing of it is read, and on the return stack
are the cells about the source, and below them the way back. -/
structure Enters (m : Machine H) (addr length : Cell) (m₁ : Machine H) : Prop where
  dictionary_eq : m₁.dictionary = m.dictionary.withText addr length
  data_cells : m.data.cells = length :: addr :: m₁.data.cells
  data_capacity : m₁.data.capacity = m.data.capacity
  returns_cells : m₁.returns.cells = m.dictionary.reserved .cursor ::
    m.dictionary.reserved .sourceLength :: m.dictionary.reserved .source :: m.ip.toInt16 ::
      m.returns.cells
  returns_capacity : m₁.returns.capacity = m.returns.capacity
  ip_eq : m₁.ip = 0
  host_eq : m₁.host = m.host

/-- There is one machine in which the interpretation of the text begins. -/
theorem Enters.eq (h : m.Enters addr length m₁) (h' : m.Enters addr length m₂) : m₁ = m₂ := by
  rcases m₁ with ⟨d₁, data₁, returns₁, ip₁, host₁⟩
  rcases m₂ with ⟨d₂, data₂, returns₂, ip₂, host₂⟩
  obtain rfl : d₁ = d₂ := h.dictionary_eq.trans h'.dictionary_eq.symm
  obtain rfl : host₁ = host₂ := h.host_eq.trans h'.host_eq.symm
  obtain rfl : ip₁ = ip₂ := h.ip_eq.trans h'.ip_eq.symm
  have hcells := h.data_cells.symm.trans h'.data_cells
  obtain rfl : data₁ = data₂ := Stack.ext (h.data_capacity.trans h'.data_capacity.symm)
    (List.cons.inj (List.cons.inj hcells).2).2
  obtain rfl : returns₁ = returns₂ := Stack.ext (h.returns_capacity.trans h'.returns_capacity.symm)
    (h.returns_cells.trans h'.returns_cells.symm)
  rfl

/-- The text did not harm its caller: it gave back what it took of the return stack, kept the code
of `evaluate`, and left room for three cells on the data stack. -/
structure Behaves (limit ev fetch store : Addr) (m₁ m₂ : Machine H) : Prop where
  returns_eq : m₂.returns = m₁.returns
  hasEvaluate : m₂.dictionary.HasEvaluate limit ev fetch store
  room : m₂.data.depth + 3 ≤ m₂.data.capacity

variable (hooks call) in
/-- Code of `evaluate` that runs up to its exit if the text behaves. -/
theorem exists_goes_evaluate {returns' : Stack} (hcode : m.dictionary.HasEvaluate limit ev fetch store)
    (hdata : m.data.cells = length :: addr :: vs) (hC : m.data.depth + 2 ≤ m.data.capacity)
    (hR : m.returns.depth + 5 ≤ m.returns.capacity)
    (hpush : m.returns.push? m.ip.toInt16 = some returns') :
    ∃ m₁, m.Enters addr length m₁ ∧ ∀ m₂, call .interpretSource m₁ = .ok () m₂ →
      Behaves limit ev fetch store m₁ m₂ → ∃ stop returns'',
        (m₂.dictionary.withSourceOf m.dictionary).readCell stop =
            Primitive.exit.token.toInt16 ∧
        returns''.pop? = some (m.ip.toInt16, m.returns) ∧
        Goes hooks call ⟨m.dictionary, m.data, returns', ev, m.host⟩
          ⟨m₂.dictionary.withSourceOf m.dictionary, m₂.data, returns'', stop, m₂.host⟩ := by
  have hreturns' : returns'.cells = m.ip.toInt16 :: m.returns.cells := Stack.cells_of_push? hpush
  have hcap' : returns'.capacity = m.returns.capacity := Stack.capacity_of_push? hpush
  rw [m.data.depth_eq, hdata, List.length_cons, List.length_cons] at hC
  rw [m.returns.depth_eq] at hR
  -- up to the text
  have henter : Reaches hooks call m.data.capacity m.returns.capacity m.host m.dictionary
      (length :: addr :: vs) (m.ip.toInt16 :: m.returns.cells) ev _ :=
    reaches_enter hcode (by omega) (by rw [List.length_cons]; omega)
      (reaches_of_stands fun m hm => hm)
  obtain ⟨m₁, hgoes₁, hm₁⟩ := henter ⟨m.dictionary, m.data, returns', ev, m.host⟩
    ⟨rfl, hdata, rfl, hreturns', hcap', rfl, rfl⟩
  refine ⟨{ m₁ with ip := 0 }, ⟨hm₁.dictionary_eq, ?_, hm₁.data_capacity, hm₁.returns_cells,
    hm₁.returns_capacity, rfl, hm₁.host_eq⟩, fun m₂ htext hbehaves => ?_⟩
  · rw [hdata, hm₁.data_cells]
  -- the text itself
  have htoken : m₁.nextToken = Primitive.evaluate.token := by
    have hcell := (HasEvaluate.withText hcode addr length).evaluate.append_right.readCell_eq
    rw [nextToken, hm₁.dictionary_eq, hm₁.ip_eq, hcell, UInt16.toUInt16_toInt16]
  have hgoes₂ : Goes hooks call m₁ { m₂ with ip := m₁.ip + cellSize } := by
    refine goes_of_runToken fun n => ?_
    rw [htoken]
    exact runToken_evaluate n htext
  -- back to the exit
  have hroom := hbehaves.room
  rw [m₂.data.depth_eq] at hroom
  have hleave : Reaches hooks call m₂.data.capacity m.returns.capacity m₂.host m₂.dictionary
      m₂.data.cells (m.dictionary.reserved .cursor :: m.dictionary.reserved .sourceLength ::
        m.dictionary.reserved .source :: m.ip.toInt16 :: m.returns.cells) _ _ :=
    reaches_leave (hbehaves.hasEvaluate.evaluate.append_right.tail) hbehaves.hasEvaluate.store
      m.dictionary hroom (by rw [List.length_cons]; omega)
      fun hexit => reaches_of_stands fun m' hm' => And.intro hm' hexit.readCell_eq
  obtain ⟨m₃, hgoes₃, hm₃, hexit⟩ := hleave { m₂ with ip := m₁.ip + cellSize }
    ⟨rfl, rfl, rfl, by rw [hbehaves.returns_eq]; exact hm₁.returns_cells,
      by rw [hbehaves.returns_eq]; exact hm₁.returns_capacity, by rw [hm₁.ip_eq], rfl⟩
  obtain ⟨rest, hpop, hrest, hrestCap⟩ := Stack.exists_pop? hm₃.returns_cells
  have hrest' : rest = m.returns := Stack.ext (hrestCap.trans hm₃.returns_capacity) hrest
  have hdata' : m₃.data = m₂.data := Stack.ext hm₃.data_capacity hm₃.data_cells
  rcases m₃ with ⟨d₃, data₃, returns₃, ip₃, host₃⟩
  obtain rfl : d₃ = m₂.dictionary.withSourceOf m.dictionary := hm₃.dictionary_eq
  obtain rfl : data₃ = m₂.data := hdata'
  obtain rfl : host₃ = m₂.host := hm₃.host_eq
  obtain rfl := hm₃.ip_eq
  exact ⟨_, returns₃, hexit, by rw [hpop, hrest'], (hgoes₁.trans hgoes₂).trans hgoes₃⟩

/-- What the caller finds after a text that was begun in `m` and came to `m₂`: the source, the
return stack and the instruction pointer as they were, and all else as the text left it. -/
structure Resumes (m m₂ m₃ : Machine H) : Prop where
  source_eq : ∀ c ∈ [SystemCell.source, .sourceLength, .cursor],
    m₃.dictionary.reserved c = m.dictionary.reserved c
  returns_eq : m₃.returns = m.returns
  ip_eq : m₃.ip = m.ip
  readByte_eq : ∀ a : Addr, a.toNat < 10 ∨ 16 ≤ a.toNat →
    m₃.dictionary.readByte a = m₂.dictionary.readByte a
  data_eq : m₃.data = m₂.data
  host_eq : m₃.host = m₂.host
  /-- What the text left as it was is so afterwards, wherever it lies. -/
  readCell_eq : ∀ a, (∀ b ∈ [a, a + 1], m₂.dictionary.readByte b = m.dictionary.readByte b) →
    m₃.dictionary.readCell a = m.dictionary.readCell a
  /-- So if the text left the source as it was, its next word is the same. -/
  unread_eq : (∀ a ∈ m.dictionary.sourceText.addrs,
    m₂.dictionary.readByte a = m.dictionary.readByte a) → m₃.dictionary.unread = m.dictionary.unread

theorem resumes_withSourceOf (hcap : 16 ≤ m₂.dictionary.capacity) :
    m.Resumes m₂ ⟨m₂.dictionary.withSourceOf m.dictionary, m₂.data, m.returns, m.ip, m₂.host⟩ where
  source_eq _ hc := reserved_withSourceOf hcap hc
  returns_eq := rfl
  ip_eq := rfl
  readByte_eq _ ha := readByte_withSourceOf _ _ ha
  data_eq := rfl
  host_eq := rfl
  readCell_eq a ha := by
    have hlow := readByte_withSourceOf_eq hcap (ha a (by simp))
    have hhigh := readByte_withSourceOf_eq hcap (ha (a + 1) (by simp))
    simp only [readByte] at hlow hhigh
    simp only [readCell, Memory.readCell_eq, hlow, hhigh]
  unread_eq h := unread_eq_of_sourceText (fun _ hc => reserved_withSourceOf hcap hc)
    fun a ha => readByte_withSourceOf_eq hcap (h a ha)

/-! ## The main result -/

variable (hooks call) in
/-- If there is room to come to the text, and the text succeeds and behaves, then code that called
`evaluate` goes on with its next token, and a line in which it stands goes on with its next word,
with the source, the return stack and the instruction pointer as they were. -/
theorem evaluate_transparent (hcode : m.dictionary.HasEvaluate limit ev fetch store)
    (hdata : m.data.cells = length :: addr :: vs) (hC : m.data.depth + 2 ≤ m.data.capacity)
    (hR : m.returns.depth + 5 ≤ m.returns.capacity) :
    ∃ m₁, m.Enters addr length m₁ ∧ ∀ m₂, call .interpretSource m₁ = .ok () m₂ →
      Behaves limit ev fetch store m₁ m₂ → ∃ m₃, m.Resumes m₂ m₃ ∧
        (m.ip ≠ 0 → m.nextToken = ev →
          Goes hooks call m { m₃ with ip := m.ip + cellSize }) ∧
        (m.ip = 0 → ∃ k, ∀ n, execute hooks call (n + k) ev m = .ok () m₃ ∧
          ∀ m₀, m₀.dictionary.hasInput = true →
            m = { m₀ with dictionary := m₀.dictionary.nextWord.2 } →
            (∃ immediate, m.dictionary.meaning m₀.dictionary.nextWord.1 = .known ev immediate) →
            m.dictionary.compiling = false →
            interpretSource hooks call (n + k + 1) m₀ = interpretSource hooks call (n + k) m₃) := by
  obtain ⟨returns', hpush, -, -⟩ := m.returns.exists_push? m.ip.toInt16 (by omega)
  obtain ⟨m₁, henters, htext⟩ :=
    exists_goes_evaluate hooks call hcode hdata hC hR hpush
  refine ⟨m₁, henters, fun m₂ hm₂ hbehaves => ?_⟩
  obtain ⟨stop, returns'', hexit, hpop, hgoes⟩ := htext m₂ hm₂ hbehaves
  have hcap : 16 ≤ m₂.dictionary.capacity :=
    Nat.le_of_lt (Nat.lt_trans (by decide) (hbehaves.hasEvaluate.fetch.lt_capacity (by decide)))
  refine ⟨_, resumes_withSourceOf hcap, fun hip htoken => ?_, fun hip => ?_⟩
  · -- compiled code: a call in front, and an exit that finds the way back
    have hcall : Goes hooks call m ⟨m.dictionary, m.data, returns', ev, m.host⟩ := by
      refine goes_of_runToken fun n => ?_
      rw [htoken]
      rcases m with ⟨d, s, returns, ip, host⟩
      rw [runToken_call _ _ _ _ _ _ hcode.evaluate.firstEntry_le, hpush]
    refine (hcall.trans hgoes).trans (goes_of_runToken fun n => ?_)
    rw [nextToken_eq _ _ _ hexit, runToken_exit _ _ _ _ _ _ hpop, UInt16.toUInt16_toInt16,
      if_neg hip]
  · -- a line: the exit ends the run
    have hhalts : Halts hooks call ⟨m₂.dictionary.withSourceOf m.dictionary, m₂.data, returns'', stop,
        m₂.host⟩ (.error .exit ⟨m₂.dictionary.withSourceOf m.dictionary, m₂.data, m.returns, 0,
          m₂.host⟩) := by
      refine halts_of_runToken fun n => ?_
      rw [nextToken_eq _ _ _ hexit, runToken_exit _ _ _ _ _ _ hpop, UInt16.toUInt16_toInt16, hip,
        if_pos rfl]
    obtain ⟨k, hk⟩ := hgoes.halts hhalts
    have hexecute : ∀ n, execute hooks call (n + k) ev m = .ok ()
        ⟨m₂.dictionary.withSourceOf m.dictionary, m₂.data, m.returns, m.ip, m₂.host⟩ := by
      intro n
      rcases m with ⟨d, s, returns, ip, host⟩
      obtain rfl : ip = 0 := hip
      simp only [execute, runFrom_of_push? _ _ _ _ hcode.evaluate.firstEntry_le hpush, hk]
    refine ⟨k, fun n => ⟨hexecute n, fun m₀ hinput hm hknown hcompiling => ?_⟩⟩
    obtain ⟨immediate, hknown⟩ := hknown
    have hword : interpretWord hooks call (n + k) m₀.dictionary.nextWord.1 m = .ok () _ :=
      (interpretWord_eq_execute hknown (Or.inl hcompiling)).trans (hexecute n)
    rw [interpretSource, bind_eq_of_ok (getDictionary_apply _ m₀), if_pos hinput]
    have hread : onDictionary (fun d => .ok d.nextWord.1 d.nextWord.2) m₀ =
        .ok m₀.dictionary.nextWord.1 m := by
      rw [hm]
      rfl
    rw [bind_eq_of_ok hread, bind_eq_of_ok hword]

/-- A machine that has read the word `evaluate` of a line. The address and the length of a text are
on its data stack, and behind that text another one lies in memory. -/
def readyMachine (dataCells : Nat) (text : String) : Machine Unit := lastState <|
  (do
    Prelude.interpretLines {} 100 ([7, 8, 56, 57].filterMap (Prelude.lines[·]?))
    modifyDictionary (·.writeBytes 512 (Text.encode text))
    modifyDictionary (·.writeBytes 600 (Text.encode "7 8"))
    push 512
    push (Int16.ofNat (Text.encode text).length)
    onDictionary (loadInput (Text.encode "evaluate 9"))
    discard <| onDictionary fun d => .ok d.nextWord.1 d.nextWord.2 : MachineM Unit Unit)
  (ofDictionary (.setUp ⟨.sparse (.zeros 1024)⟩) () ⟨dataCells, 64, 0⟩)

/-- The machine in which the text at 512 is interpreted for the line. -/
def textMachine (m : Machine Unit) (length : Cell) : Machine Unit :=
  ⟨m.dictionary.withText 512 length, m.data.drop 2, lastState ((do
    StackM.push 0
    StackM.push (m.dictionary.reserved .source)
    StackM.push (m.dictionary.reserved .sourceLength)
    StackM.push (m.dictionary.reserved .cursor) : StackM Unit) (.empty 64)), 0, ()⟩

/-- The machine after the text. -/
def textEnd (m : Machine Unit) (length : Cell) : Machine Unit :=
  lastState (interpreter {} 100 .interpretSource (textMachine m length))

/-- The line has come to the word, and the text succeeds, gives back what it takes of the return stack
and keeps the code. -/
def Succeeds (m : Machine Unit) (length : Cell) : Prop :=
  (m.dictionary.HasEvaluate 512 126 100 110 ∧ m.data.cells = [length, 512] ∧
    m.returns.cells = [] ∧ m.returns.capacity = 64 ∧ m.ip = 0) ∧
  value? (interpreter {} 100 .interpretSource (textMachine m length)) = some () ∧
  (textEnd m length).returns.cells = (textMachine m length).returns.cells ∧
  (textEnd m length).returns.capacity = 64 ∧
  (textEnd m length).dictionary.HasEvaluate 512 126 100 110

instance (m : Machine Unit) (length : Cell) : Decidable (Succeeds m length) :=
  inferInstanceAs (Decidable (_ ∧ _))

theorem Succeeds.enters {m : Machine Unit} (h : Succeeds m length) :
    m.Enters 512 length (textMachine m length) := by
  obtain ⟨⟨-, hdata, hreturns, hcap, hip⟩, -⟩ := h
  refine ⟨rfl, ?_, rfl, ?_, hcap.symm, rfl, rfl⟩
  · rw [hdata, textMachine, Stack.cells_drop, hdata]
    rfl
  · rw [hip, hreturns]
    rfl

theorem Succeeds.interprets {m : Machine Unit} (h : Succeeds m length) :
    interpreter {} 100 .interpretSource (textMachine m length) = .ok () (textEnd m length) ∧
      (textEnd m length).returns = (textMachine m length).returns := by
  obtain ⟨-, hvalue, hcells, hcap, -⟩ := h
  exact ⟨eq_ok_lastState hvalue, Stack.ext hcap hcells⟩

/-- A text that evaluates another one and then says that its length is zero. -/
def nestedMachine : Machine Unit := readyMachine 64 "600 3 evaluate 0 12 !"

theorem nestedMachine_eq :
    Succeeds nestedMachine 21 ∧ nestedMachine.data.depth + 2 ≤ nestedMachine.data.capacity ∧
      nestedMachine.returns.depth + 5 ≤ nestedMachine.returns.capacity ∧
      (textEnd nestedMachine 21).data.cells = [8, 7] ∧
      (textEnd nestedMachine 21).data.depth + 3 ≤ (textEnd nestedMachine 21).data.capacity ∧
      (textEnd nestedMachine 21).dictionary.reserved .sourceLength = 0 ∧
      nestedMachine.dictionary.reserved .sourceLength = 10 ∧
      nestedMachine.dictionary.unread = Text.encode "9" ∧
      (nestedMachine.dictionary.sourceText.addrs.all fun a =>
        (textEnd nestedMachine 21).dictionary.readByte a ==
          nestedMachine.dictionary.readByte a) = true := by
  decide +kernel

/-- After both texts, the line goes on with its last word. -/
theorem evaluate_transparent_nestedMachine :
    (textEnd nestedMachine 21).dictionary.reserved .sourceLength = 0 ∧ ∃ m₃ : Machine Unit,
      (∃ k, ∀ n, execute {} (interpreter {} 100) (n + k) 126 nestedMachine = .ok () m₃) ∧
      m₃.data.cells = [8, 7] ∧ m₃.dictionary.reserved .sourceLength = 10 ∧
      m₃.returns = nestedMachine.returns ∧ m₃.dictionary.unread = Text.encode "9" := by
  obtain ⟨hsucceeds, hC, hR, hcells, hroom, hzero, hlength, hunread, hbytes⟩ := nestedMachine_eq
  obtain ⟨hcode, hdata, -, -, hip⟩ := hsucceeds.1
  obtain ⟨m₁, henters, hafter⟩ := evaluate_transparent {} (interpreter {} 100) hcode hdata hC hR
  obtain rfl : m₁ = textMachine nestedMachine 21 := henters.eq hsucceeds.enters
  obtain ⟨hinterprets, hreturns⟩ := hsucceeds.interprets
  obtain ⟨m₃, hresumes, -, hline⟩ :=
    hafter _ hinterprets ⟨hreturns, hsucceeds.2.2.2.2, hroom⟩
  obtain ⟨k, hk⟩ := hline hip
  refine ⟨hzero, m₃, ⟨k, fun n => (hk n).1⟩, ?_, ?_, hresumes.returns_eq, ?_⟩
  · rw [hresumes.data_eq, hcells]
  · rw [hresumes.source_eq .sourceLength (by decide), hlength]
  · rw [hresumes.unread_eq fun a ha => eq_of_beq (List.all_eq_true.1 hbytes a ha), hunread]

/-- A machine with room for four cells, and a text that leaves two. -/
def crowdedMachine : Machine Unit := readyMachine 4 "1 1"

theorem crowdedMachine_eq :
    Succeeds crowdedMachine 3 ∧ (textEnd crowdedMachine 3).data.cells = [1, 1] ∧
      crowdedMachine.dictionary.reserved .sourceLength = 10 ∧
      (crowdedMachine.dictionary.sourceText.addrs.all fun a =>
        (textEnd crowdedMachine 3).dictionary.readByte a ==
          crowdedMachine.dictionary.readByte a) = true ∧
      error? (execute {} (interpreter {} 100) 100 126 crowdedMachine) =
        some (.error .stackOverflow) ∧
      (lastState (execute {} (interpreter {} 100) 100 126
        crowdedMachine)).dictionary.reserved .sourceLength = 3 := by
  decide +kernel

/-- The text succeeds, gives back what it takes of the return stack and changes neither the source nor
the code. But there is no room to put the source back: `evaluate` fails, and the line is not the
source afterwards. -/
theorem evaluate_crowdedMachine :
    crowdedMachine.dictionary.HasEvaluate 512 126 100 110 ∧
      (∃ m₁ m₂ : Machine Unit, crowdedMachine.Enters 512 3 m₁ ∧
        interpreter {} 100 .interpretSource m₁ = .ok () m₂ ∧ m₂.returns = m₁.returns ∧
        m₂.dictionary.HasEvaluate 512 126 100 110 ∧
        ∀ a ∈ crowdedMachine.dictionary.sourceText.addrs,
          m₂.dictionary.readByte a = crowdedMachine.dictionary.readByte a) ∧
      error? (execute {} (interpreter {} 100) 100 126 crowdedMachine) =
        some (.error .stackOverflow) ∧
      (lastState (execute {} (interpreter {} 100) 100 126
        crowdedMachine)).dictionary.reserved .sourceLength ≠
          crowdedMachine.dictionary.reserved .sourceLength := by
  obtain ⟨hsucceeds, -, hlength, hbytes, herror, hlast⟩ := crowdedMachine_eq
  obtain ⟨hinterprets, hreturns⟩ := hsucceeds.interprets
  refine ⟨hsucceeds.1.1, ⟨_, _, hsucceeds.enters, hinterprets, hreturns, hsucceeds.2.2.2.2,
    fun a ha => eq_of_beq (List.all_eq_true.1 hbytes a ha)⟩, herror, ?_⟩
  rw [hlast, hlength]
  decide

end Machine

end ThreadedForth
