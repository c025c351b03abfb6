import ThreadedForth.Proofs.Dictionary.Extends
import ThreadedForth.Proofs.Machine.Run

/-!
# Compiling a definition

What `:` leaves behind (`Opens`), what the words and numbers after it add to the dictionary, and
what `;` leaves behind (`Closes`). The host may be asked for lines while `:` waits for the name;
it is taken to change nothing but the source text and its own state (`QuietRefill`).
-/

set_option autoImplicit false

namespace ThreadedForth.Machine

variable {H : Type} {hooks : Hooks H} {call : Interpreter H} {n : Nat} {m m' m'' : Machine H}

/-! ## Reading source text -/

/-- Nothing changed but the source text and the state of the host. -/
structure InputOnly (m m' : Machine H) : Prop where
  dictionary : m.dictionary.InputOnly m'.dictionary
  data_eq : m'.data = m.data
  returns_eq : m'.returns = m.returns
  ip_eq : m'.ip = m.ip

theorem InputOnly.refl (m : Machine H) : m.InputOnly m := ⟨.refl _, rfl, rfl, rfl⟩

theorem InputOnly.trans (h : m.InputOnly m') (h' : m'.InputOnly m'') : m.InputOnly m'' :=
  ⟨h.dictionary.trans h'.dictionary, h'.data_eq.trans h.data_eq, h'.returns_eq.trans h.returns_eq,
    h'.ip_eq.trans h.ip_eq⟩

/-- The program does not stop as if a definition returned. -/
def NeverExits {α : Type} (x : MachineM H α) : Prop := ∀ m m', x m ≠ .error .exit m'

namespace NeverExits

variable {α β : Type}

theorem onData (x : StackM α) : NeverExits (Machine.onData x : MachineM H α) := by
  intro m m' h
  simp only [Machine.onData] at h
  split at h <;> cases h

theorem onDictionary (x : DictionaryM α) :
    NeverExits (Machine.onDictionary x : MachineM H α) := by
  intro m m' h
  simp only [Machine.onDictionary] at h
  split at h <;> cases h

theorem bind {x : MachineM H α} {f : α → MachineM H β} (hx : NeverExits x)
    (hf : ∀ a, NeverExits (f a)) : NeverExits (x >>= f) := by
  intro m m' h
  cases hm : x m with
  | ok a m1 =>
      rw [bind_eq_of_ok hm] at h
      exact hf a m1 m' h
  | error stop m1 =>
      rw [bind_eq_of_error hm] at h
      exact hx m m1 (hm.trans (by cases h; rfl))

end NeverExits

/-- To bring the next line changes nothing but the source text and the state of the host. -/
structure QuietRefill (hooks : Hooks H) (call : Interpreter H) : Prop where
  inputOnly : Relates InputOnly (hooks.refill call)
  neverExits : NeverExits (hooks.refill call)

theorem quietRefill_default (call : Interpreter H) : QuietRefill ({} : Hooks H) call :=
  ⟨fun m => .refl m, fun m m' h => by cases h⟩

theorem inputOnly_nextWord (m : Machine H) :
    m.InputOnly { m with dictionary := m.dictionary.nextWord.2 } :=
  ⟨m.dictionary.inputOnly_nextWord, rfl, rfl, rfl⟩

theorem relates_awaitWord (hrefill : QuietRefill hooks call) (n : Nat) :
    Relates InputOnly (awaitWord hooks call n) := by
  induction n with
  | zero => exact fun m => .refl m
  | succ n ih =>
      rw [awaitWord]
      refine .bind .trans (fun m => .refl m) fun hasInput => ?_
      cases hasInput with
      | true => exact fun m => m.inputOnly_nextWord
      | false => exact .bind .trans hrefill.inputOnly fun _ => ih

theorem neverExits_awaitWord (hrefill : QuietRefill hooks call) (n : Nat) :
    NeverExits (awaitWord hooks call n) := by
  induction n with
  | zero =>
      intro m m' h
      cases h
  | succ n ih =>
      rw [awaitWord]
      refine .bind (fun m m' h => by cases h) fun hasInput => ?_
      cases hasInput with
      | true => exact NeverExits.onDictionary fun d => .ok d.nextWord.1 d.nextWord.2
      | false => exact .bind hrefill.neverExits fun _ => ih

/-- A word that was awaited is not empty. -/
theorem length_pos_of_awaitWord_eq_ok {name : Span} (h : awaitWord hooks call n m = .ok name m') :
    0 < name.length.toNat := by
  induction n generalizing m with
  | zero => cases h
  | succ n ih =>
      rw [awaitWord] at h
      obtain ⟨hasInput, m1, hget, h1⟩ := exists_of_bind_eq_ok h
      cases hget
      split at h1
      · rename_i hinput
        cases h1
        exact Dictionary.length_nextWord_pos hinput
      · obtain ⟨_, m2, -, h2⟩ := exists_of_bind_eq_ok h1
        exact ih h2

/-! ## Beginning a definition -/

/-- What `:` leaves behind: the header and the name of an entry that is not linked yet, and its
address on the stack. -/
structure Opens (m m' : Machine H) (entry : Addr) : Prop where
  toNat_entry : entry.toNat = m.dictionary.here.toNat + m.dictionary.here.toNat % 2
  push_eq : m.data.push? entry.toInt16 = some m'.data
  returns_eq : m'.returns = m.returns
  ip_eq : m'.ip = m.ip
  dict_extends : m.dictionary.Extends m'.dictionary
  ready : m'.dictionary.Ready
  compiling_eq : m'.dictionary.compiling = true
  openEntry_eq : m'.dictionary.reservedAddr .openEntry = entry
  hasHeader : m'.dictionary.HasHeader entry
  entryBody_eq : m'.dictionary.entryBody entry = m'.dictionary.here
  /-- The name is not empty, and the header is made for the distance to the latest entry. -/
  header_eq : ∃ length : UInt16, 0 < length.toNat ∧ length.toNat < 32 ∧
    m'.dictionary.readCell entry = m.dictionary.newHeader entry length

theorem Opens.nameLength_pos {entry : Addr} (h : m.Opens m' entry) :
    0 < (Header.nameLength (m'.dictionary.readCell entry)).toNat := by
  rcases h.header_eq with ⟨length, hpos, hlt, hinfo⟩
  have hlong : (if Header.longDistance ≤ entry - m.dictionary.latest then Header.longDistance
      else 0).toNat < 1024 := by
    split <;> decide
  rw [hinfo, Dictionary.newHeader, Header.nameLength_make hlt hlong]
  exact hpos

theorem exists_of_onDictionary_eq_ok {α : Type} {x : DictionaryM α} {a : α}
    (h : onDictionary x m = .ok a m') :
    ∃ d, x m.dictionary = .ok a d ∧ m' = { m with dictionary := d } := by
  simp only [onDictionary] at h
  split at h
  · rename_i b d hx
    cases h
    exact ⟨d, hx, rfl⟩
  · cases h

theorem relates_onDictionary {α : Type} {R : Dictionary → Dictionary → Prop} {x : DictionaryM α}
    (hx : Relates R x) :
    Relates (fun m m' => R m.dictionary m'.dictionary) (onDictionary x : MachineM H α) := by
  intro m
  have hd := hx m.dictionary
  simp only [onDictionary]
  cases h : x m.dictionary <;> rw [h] at hd <;> exact hd

theorem exists_of_onData_eq_ok {α : Type} {x : StackM α} {a : α} (h : onData x m = .ok a m') :
    ∃ data, x m.data = .ok a data ∧ m' = { m with data } := by
  simp only [onData] at h
  split at h
  · rename_i b data hx
    cases h
    exact ⟨data, hx, rfl⟩
  · cases h

theorem of_push_eq_ok {v : Cell} (h : push v m = .ok () m') :
    ∃ data, m.data.push? v = some data ∧ m' = { m with data } := by
  obtain ⟨data, hpush, hm⟩ := exists_of_onData_eq_ok h
  exact ⟨data, StackM.push?_of_push_eq_ok hpush, hm⟩

/-- What `:` does after it has read the name. -/
def beginWord (name : Span) : MachineM H Unit := do
  onDictionary (Dictionary.define name)
  setCompiling true

theorem opens_of_colon_eq_ok (hrefill : QuietRefill hooks call)
    (h : colon hooks call n m = .ok () m') : ∃ entry, m.Opens m' entry := by
  obtain ⟨entry, m1, hm1, h1⟩ := exists_of_bind_eq_ok h
  obtain ⟨d1, halign, rfl⟩ := exists_of_onDictionary_eq_ok hm1
  obtain ⟨_, m2, hm2, h2⟩ := exists_of_bind_eq_ok h1
  obtain ⟨data, hpush, rfl⟩ := of_push_eq_ok hm2
  obtain ⟨_, m3, hm3, h3⟩ := exists_of_bind_eq_ok h2
  cases hm3
  obtain ⟨name, m4, hawait, h4⟩ := exists_of_bind_eq_ok h3
  obtain ⟨_, m5, hm5, hm6⟩ := exists_of_bind_eq_ok h4
  obtain ⟨d5, hdefine, rfl⟩ := exists_of_onDictionary_eq_ok hm5
  cases hm6
  -- the entry is kept in its cell before the name is read, and the name is read before the header
  -- is written
  have hinput : InputOnly ⟨d1.setReservedAddr .openEntry entry, data, m.returns, m.ip, m.host⟩ m4 :=
    (relates_awaitWord hrefill n).of_eq_ok hawait
  obtain ⟨hext1, hready1, hentry, hnum⟩ := Dictionary.extends_of_alignHere halign
  have hext2 := Dictionary.extends_setReserved hready1 .openEntry entry.toInt16 (by decide)
  have hready2 := hext2.ready hready1
  have hext4 := hinput.dictionary.extends hready2
  have hready4 := hext4.ready hready2
  obtain ⟨entry', hbegins⟩ := Dictionary.exists_begins_of_define_eq_ok hdefine
  have hext5 := hbegins.grows.extends hready4
  have hext6 := Dictionary.extends_setReserved hbegins.ready .compiling 1 (by decide)
  have hhere4 : m4.dictionary.here = entry := by
    rw [hinput.dictionary.here_eq, hentry]
    exact d1.here_setReserved _ _ (by decide)
  obtain rfl : entry' = entry := by
    apply UInt16.toNat_inj.1
    rw [hbegins.toNat_entry, hhere4]
    omega
  have hlt := hready1.here_lt
  have hle := hready1.le_here
  rw [toNat_firstEntry] at hle
  have hcap5 : 16 ≤ d5.capacity := by
    rw [hext5.capacity_eq, (hext2.trans hext4).capacity_eq]
    omega
  refine ⟨entry', hnum, ?_, hinput.returns_eq, hinput.ip_eq,
    ((hext1.trans hext2).trans hext4).trans (hext5.trans hext6), hext6.ready hbegins.ready, ?_, ?_,
    hext6.hasHeader hbegins.hasHeader, ?_,
    name.length, length_pos_of_awaitWord_eq_ok hawait, Nat.lt_succ_of_le hbegins.length_le, ?_⟩
  · exact hpush.trans (congrArg some hinput.data_eq.symm)
  · exact d5.compiling_setReserved 1 hcap5
  · calc (d5.setReserved .compiling 1).openEntry
        = d5.openEntry :=
          congrArg Int16.toUInt16 (d5.reserved_setReserved_of_ne _ (by decide))
      _ = m4.dictionary.openEntry := hbegins.grows.reservedAddr hready4 (by decide)
      _ = (d1.setReservedAddr .openEntry entry').openEntry :=
          hinput.dictionary.reservedAddr (by decide)
      _ = entry' := by
          rw [Dictionary.openEntry, Dictionary.reservedAddr, Dictionary.setReservedAddr,
            Dictionary.reserved_setReserved _ _ _ (by omega), UInt16.toUInt16_toInt16]
  · calc (d5.setReserved .compiling 1).entryBody entry'
        = d5.entryBody entry' := hext6.entryBody_eq hbegins.hasHeader
      _ = d5.here := hbegins.body_eq
      _ = (d5.setReserved .compiling 1).here := (d5.here_setReserved _ _ (by decide)).symm
  · have hlatest := ((hext1.trans hext2).trans hext4).latest_eq
    have hinfo : m4.dictionary.newHeader entry' name.length =
        m.dictionary.newHeader entry' name.length := by
      rw [Dictionary.newHeader, Dictionary.newHeader, hlatest]
    exact (hext6.readCell_entry hbegins.hasHeader).trans (hbegins.readCell_entry.trans hinfo)

section Token

variable {p : Primitive} {x : MachineM H Unit} {m1 : Machine H}

theorem runToken_token (hperform : perform hooks call n p = (do x; return .advance)) :
    runToken hooks call n p.token = (do x; advance) := by
  unfold runToken
  rw [decode_token]
  dsimp only
  rw [hperform]
  exact bind_assoc ..

/-- A token that leads to no code is executed by being run. -/
theorem execute_of_runToken_eq_ok {xt : Addr} (h : runToken hooks call n xt m = .ok () m1)
    (hip : m1.ip < Layout.firstEntry) : execute hooks call n xt m = .ok () { m1 with ip := 0 } := by
  simp only [execute, runFrom]
  rw [bind_eq_of_ok h, bind_eq_of_ok (get_apply m1), if_pos hip]
  rfl

theorem execute_of_runToken_eq_error {xt : Addr} {stop : Stop}
    (h : runToken hooks call n xt m = .error stop m1) (hstop : stop ≠ .exit) :
    execute hooks call n xt m = .error stop { m1 with ip := 0 } := by
  simp only [execute, runFrom]
  rw [bind_eq_of_error h]
  cases stop with
  | exit => exact absurd rfl hstop
  | error e => rfl
  | outOfFuel => rfl

/-- A primitive that moves on is executed by being performed. Afterwards the instruction pointer is
not in a definition, so no code is run. -/
theorem execute_token_of_ok (hperform : perform hooks call n p = (do x; return .advance))
    (hx : x m = .ok () m1) (hip : m1.ip = 0) : execute hooks call n p.token m = .ok () m1 := by
  have hrun : runToken hooks call n p.token m = .ok () { m1 with ip := 2 } := by
    rw [runToken_token hperform, bind_eq_of_ok hx, advance, hip]
    rfl
  have hlow : (2 : Addr) < Layout.firstEntry := by decide
  rw [execute_of_runToken_eq_ok hrun hlow]
  rcases m1 with ⟨d, data, returns, ip, host⟩
  obtain rfl : ip = 0 := hip
  rfl

theorem execute_token_of_error {stop : Stop}
    (hperform : perform hooks call n p = (do x; return .advance)) (hx : x m = .error stop m1)
    (hstop : stop ≠ .exit) : execute hooks call n p.token m = .error stop { m1 with ip := 0 } := by
  refine execute_of_runToken_eq_error ?_ hstop
  rw [runToken_token hperform, bind_eq_of_error hx]

/-- A primitive that moves on was executed if it was performed. -/
theorem of_execute_token_eq_ok
    (hperform : perform hooks call n p = (do x; return .advance))
    (hexits : ∀ m1, x m ≠ .error .exit m1) (hip : ∀ m1, x m = .ok () m1 → m1.ip = 0)
    (h : execute hooks call n p.token m = .ok () m') : x m = .ok () m' := by
  cases hx : x m with
  | ok u m1 =>
      rw [execute_token_of_ok hperform hx (hip m1 hx)] at h
      exact h
  | error stop m1 =>
      rw [execute_token_of_error hperform hx fun hstop => hexits m1 (hstop ▸ hx)] at h
      cases h

end Token

/-! ## Ending a definition -/

/-- What `;` leaves behind: the code ends with an exit, the entry on the stack is gone from there
and linked. -/
structure Closes (m m' : Machine H) (entry : Addr) : Prop where
  pop_eq : m.data.pop? = some (entry.toInt16, m'.data)
  returns_eq : m'.returns = m.returns
  ip_eq : m'.ip = m.ip
  ends : ∃ d, m.dictionary.Extends d ∧ d.here.toNat = m.dictionary.here.toNat + 2 ∧
    d.readCell m.dictionary.here = Primitive.exit.token.toInt16 ∧ d.compiling = false ∧
    d.Ends m'.dictionary entry

theorem of_pop_eq_ok {v : Cell} (h : pop m = .ok v m') :
    ∃ data, m.data.pop? = some (v, data) ∧ m' = { m with data } := by
  obtain ⟨data, hpop, rfl⟩ := exists_of_onData_eq_ok h
  unfold StackM.pop at hpop
  split at hpop
  · rename_i w data' hsome
    cases hpop
    exact ⟨data, hsome, rfl⟩
  · cases hpop

/-- The top cell is the one that a pop takes. -/
theorem of_top_eq_ok {v : Cell} (h : onData StackM.top m = .ok v m') :
    m' = m ∧ ∃ data, m.data.pop? = some (v, data) := by
  rcases m with ⟨d, ⟨capacity, cells, depth, hdepth, hle⟩, returns, ip, host⟩
  cases cells with
  | nil => cases h
  | cons w ws =>
      cases h
      exact ⟨rfl, _, rfl⟩

theorem top_eq_of_pop? {v : Cell} {data : Stack} (h : m.data.pop? = some (v, data)) :
    onData StackM.top m = .ok v m := by
  rcases m with ⟨d, ⟨capacity, cells, depth, hdepth, hle⟩, returns, ip, host⟩
  cases cells with
  | nil => cases h
  | cons w ws =>
      cases h
      rfl

theorem pop_eq_of_pop? {v : Cell} {data : Stack} (h : m.data.pop? = some (v, data)) :
    pop m = .ok v { m with data } := by
  simp only [pop, onData, StackM.pop, h]

theorem closes_of_semicolon_eq_ok (hready : m.dictionary.Ready)
    (hheader : ∀ entry data, m.data.pop? = some (entry, data) →
      m.dictionary.HasHeader entry.toUInt16)
    (h : semicolon m = .ok () m') : ∃ entry, m.Closes m' entry := by
  obtain ⟨entry, m1, hm1, h1⟩ := exists_of_bind_eq_ok h
  obtain ⟨rfl, data, hpop⟩ := of_top_eq_ok hm1
  obtain ⟨_, m2, hm2, h2⟩ := exists_of_bind_eq_ok h1
  obtain ⟨d2, happend, rfl⟩ := exists_of_onDictionary_eq_ok hm2
  obtain ⟨_, m3, hm3, h3⟩ := exists_of_bind_eq_ok h2
  obtain ⟨top, hm3⟩ := exists_of_discard_eq_ok hm3
  obtain ⟨data', hpop', rfl⟩ := of_pop_eq_ok hm3
  obtain ⟨_, m4, hm4, hm5⟩ := exists_of_bind_eq_ok h3
  cases hm4
  obtain ⟨d5, hlink, rfl⟩ := exists_of_onDictionary_eq_ok hm5
  -- the exit is added above the header, and the cell that says that words are compiled lies below
  obtain ⟨hgrow2, hready2, hnum2, hread2⟩ := Dictionary.of_append_eq_ok happend
  have hext2 := hgrow2.extends hready
  have hext4 := Dictionary.extends_setReserved hready2 .compiling 0 (by decide)
  have hhere := hready.le_here
  have hlt2 := hready2.here_lt
  have htop2 := d2.capacity_le
  rw [toNat_firstEntry] at hhere
  have hentry := hheader entry data hpop
  have hends := Dictionary.ends_of_link_eq_ok (hext4.ready hready2)
    ((hext2.trans hext4).hasHeader hentry) hlink
  have htop : some (top, data') = some (entry, data) := hpop'.symm.trans hpop
  obtain ⟨rfl, rfl⟩ := Prod.mk.inj (Option.some.inj htop)
  refine ⟨top.toUInt16, ?_, rfl, rfl, _, hext2.trans hext4, ?_, ?_, ?_, hends⟩
  · exact hpop
  · rw [d2.here_setReserved _ _ (by decide), hnum2]
  · rw [hext4.agreeOn.readCell (by omega) (by omega) (by omega), hread2]
  · exact d2.compiling_setReserved 0 (by omega)

theorem neverExits_colon (hrefill : QuietRefill hooks call) (n : Nat) :
    NeverExits (colon hooks call n) := by
  refine .bind (.onDictionary _) fun entry => .bind (.onData _) fun _ => ?_
  refine .bind (fun m m' h => by cases h) fun _ => .bind (neverExits_awaitWord hrefill n) ?_
  exact fun name => .bind (.onDictionary _) fun _ m m' h => by cases h

theorem neverExits_semicolon : NeverExits (semicolon : MachineM H Unit) := by
  refine .bind (.onData _) fun entry => .bind (.onDictionary _) fun _ => ?_
  refine .bind (.bind (.onData _) fun _ m m' h => by cases h) fun _ => ?_
  exact .bind (fun m m' h => by cases h) fun _ => .onDictionary _

/-- To execute `:` is to begin a definition. -/
theorem opens_of_execute_eq_ok (hrefill : QuietRefill hooks call) (hip : m.ip = 0)
    (h : execute hooks call n Primitive.colon.token m = .ok () m') : ∃ entry, m.Opens m' entry := by
  refine opens_of_colon_eq_ok (n := n) hrefill
    (of_execute_token_eq_ok (p := .colon) rfl (neverExits_colon hrefill n m) (fun m1 hm1 => ?_) h)
  obtain ⟨entry, hopens⟩ := opens_of_colon_eq_ok hrefill hm1
  rw [hopens.ip_eq, hip]

/-- To execute `;` is to end the definition on the stack. -/
theorem closes_of_execute_eq_ok (hip : m.ip = 0) (hready : m.dictionary.Ready)
    (hheader : ∀ entry data, m.data.pop? = some (entry, data) →
      m.dictionary.HasHeader entry.toUInt16)
    (h : execute hooks call n Primitive.semicolon.token m = .ok () m') :
    ∃ entry, m.Closes m' entry := by
  refine closes_of_semicolon_eq_ok hready hheader
    (of_execute_token_eq_ok (p := .semicolon) rfl (neverExits_semicolon m) (fun m1 hm1 => ?_) h)
  obtain ⟨entry, hcloses⟩ := closes_of_semicolon_eq_ok hready hheader hm1
  rw [hcloses.ip_eq, hip]

/-! ## Numbers and words in a definition -/

theorem onDictionary_bind {α β : Type} (x : DictionaryM α) (f : α → DictionaryM β) :
    (onDictionary (x >>= f) : MachineM H β) = onDictionary x >>= fun a => onDictionary (f a) := by
  funext m
  cases hx : x m.dictionary with
  | ok a d =>
      have hm : onDictionary x m = .ok a { m with dictionary := d } := by
        simp only [onDictionary, hx]
      rw [bind_eq_of_ok hm, onDictionary, onDictionary, bind_eq_of_ok hx]
  | error e d =>
      have hm : onDictionary x m = .error (.error e) { m with dictionary := d } := by
        simp only [onDictionary, hx]
      rw [bind_eq_of_error hm, onDictionary, bind_eq_of_error hx]

theorem getDictionary_apply {α : Type} (f : Dictionary → α) (m : Machine H) :
    getDictionary f m = .ok (f m.dictionary) m := rfl

/-- While a definition is compiled, a number is added to it. -/
theorem interpretLiteral_of_compiling (h : m.dictionary.compiling = true) (v : Cell) :
    interpretLiteral v m = onDictionary ((literalCells v).forM Dictionary.append) m := by
  unfold interpretLiteral
  rw [bind_eq_of_ok (getDictionary_apply _ m), if_pos h, literalCells]
  cases Token.ofLiteral? v with
  | some t => rw [Dictionary.forM_append_singleton]
  | none => rw [Dictionary.forM_append_pair, onDictionary_bind]

theorem interpretLiteral_of_not_compiling (h : m.dictionary.compiling = false) (v : Cell) :
    interpretLiteral v m = push v m := by
  unfold interpretLiteral
  rw [bind_eq_of_ok (getDictionary_apply _ m), if_neg (by rw [h]; decide)]

/-- While a definition is compiled, a word that is not immediate is added to it. -/
theorem interpretWord_of_compiling {name : Span} {xt : Addr}
    (hmeaning : m.dictionary.meaning name = .known xt false)
    (h : m.dictionary.compiling = true) :
    interpretWord hooks call n name m = onDictionary ([xt.toInt16].forM Dictionary.append) m := by
  rw [Dictionary.forM_append_singleton, interpretWord, bind_eq_of_ok (getDictionary_apply _ m),
    hmeaning]
  dsimp only
  rw [bind_eq_of_ok (getDictionary_apply _ m), if_pos (by rw [h]; decide)]

/-- A word that is immediate, or any known word while nothing is compiled, is executed. -/
theorem interpretWord_eq_execute {name : Span} {xt : Addr} {immediate : Bool}
    (hmeaning : m.dictionary.meaning name = .known xt immediate)
    (h : m.dictionary.compiling = false ∨ immediate = true) :
    interpretWord hooks call n name m = execute hooks call n xt m := by
  have hrun : ¬ (m.dictionary.compiling && !immediate) = true := by
    rcases h with h | h <;> simp [h]
  unfold interpretWord
  rw [bind_eq_of_ok (getDictionary_apply _ m), hmeaning]
  dsimp only
  rw [bind_eq_of_ok (getDictionary_apply _ m), if_neg hrun]

/-- A word that is not known but a numeral is a number. -/
theorem interpretWord_eq_interpretLiteral {name : Span} {v : Cell}
    (hmeaning : m.dictionary.meaning name = .unknown)
    (hread : Numeral.read? m.dictionary.base (m.dictionary.text name) = some v) :
    interpretWord hooks call n name m = interpretLiteral v m := by
  unfold interpretWord
  rw [bind_eq_of_ok (getDictionary_apply _ m), hmeaning]
  dsimp only
  rw [bind_eq_of_ok (getDictionary_apply _ m), hread]

/-! ## Definitions in source text -/

/-- What stands in source text: a number, or a name that lies somewhere in memory. -/
inductive Written where
  | number (v : Cell)
  | name (s : Span)

/-- Interprets what is written. -/
def interpretWritten (hooks : Hooks H) (call : Interpreter H) (n : Nat) :
    Written → MachineM H Unit
  | .number v => interpretLiteral v
  | .name s => interpretWord hooks call n s

section Source

variable {α : Type} (hooks call) (denotes : Dictionary → Written → α → Prop)

/-- What is written for a list of things is interpreted one after the other. Before each of them,
and after the last one, source text is read. -/
inductive Compiles : List α → Machine H → Machine H → Prop
  | nil {m m' : Machine H} (reads : m.InputOnly m') : Compiles [] m m'
  | cons {n : Nat} {w : Written} {i : α} {is : List α} {m m1 m2 m' : Machine H}
      (reads : m.InputOnly m1) (written : denotes m1.dictionary w i)
      (interprets : interpretWritten hooks call n w m1 = .ok () m2) (rest : Compiles is m2 m') :
      Compiles (i :: is) m m'

/-- Each thing that is written stands for what it should, and can be interpreted. -/
def Accepts (n : Nat) : List (Written × α) → Machine H → Prop
  | [], _ => True
  | (w, i) :: ps, m => denotes m.dictionary w i ∧
      value? (interpretWritten hooks call n w m) = some () ∧
      Accepts n ps (lastState (interpretWritten hooks call n w m))

instance decidableAccepts [∀ d w i, Decidable (denotes d w i)] (n : Nat) :
    ∀ (ps : List (Written × α)) (m : Machine H), Decidable (Accepts hooks call denotes n ps m)
  | [], _ => isTrue trivial
  | (w, i) :: ps, m =>
    have := decidableAccepts n ps (lastState (interpretWritten hooks call n w m))
    inferInstanceAs (Decidable (denotes m.dictionary w i ∧
      value? (interpretWritten hooks call n w m) = some () ∧
      Accepts hooks call denotes n ps (lastState (interpretWritten hooks call n w m))))

/-- The machine after everything that is written was interpreted. -/
def afterWritten (n : Nat) (ps : List (Written × α)) (m : Machine H) : Machine H :=
  lastState (ps.forM (fun p => interpretWritten hooks call n p.1) m)

/-- What is accepted is compiled. -/
theorem compiles_of_accepts {n : Nat} {ps : List (Written × α)} {m : Machine H}
    (h : Accepts hooks call denotes n ps m) :
    Compiles hooks call denotes (ps.map Prod.snd) m (afterWritten hooks call n ps m) := by
  induction ps generalizing m with
  | nil => exact .nil (.refl m)
  | cons p ps ih =>
      rcases h with ⟨hdenotes, hvalue, hrest⟩
      have hfirst := eq_ok_lastState hvalue
      have hafter : afterWritten hooks call n (p :: ps) m =
          afterWritten hooks call n ps (lastState (interpretWritten hooks call n p.1 m)) :=
        congrArg lastState (bind_eq_of_ok hfirst _)
      rw [hafter]
      exact .cons (.refl m) hdenotes hfirst (ih hrest)

/-- A new word is defined: `:` with a name, its body, `;`. -/
def Defines (body : List α) (m m' : Machine H) : Prop :=
  ∃ n n' m1 m2, execute hooks call n Primitive.colon.token m = .ok () m1 ∧
    Compiles hooks call denotes body m1 m2 ∧
    execute hooks call n' Primitive.semicolon.token m2 = .ok () m'

/-- The machine after `:` and the name. -/
def afterName (n : Nat) (m : Machine H) : Machine H :=
  lastState (execute hooks call n Primitive.colon.token m)

/-- The machine after `:`, the name, everything that is written and `;`. -/
def afterDefinition (n : Nat) (ps : List (Written × α)) (m : Machine H) : Machine H :=
  lastState (execute hooks call n Primitive.semicolon.token
    (afterWritten hooks call n ps (afterName hooks call n m)))

/-- No step of a definition fails, and each thing that is written in it stands for what it should. -/
def Finishes (n : Nat) (ps : List (Written × α)) (m : Machine H) : Prop :=
  value? (execute hooks call n Primitive.colon.token m) = some () ∧
    Accepts hooks call denotes n ps (afterName hooks call n m) ∧
    value? (execute hooks call n Primitive.semicolon.token
      (afterWritten hooks call n ps (afterName hooks call n m))) = some ()

instance [∀ d w i, Decidable (denotes d w i)] (n : Nat) (ps : List (Written × α)) (m : Machine H) :
    Decidable (Finishes hooks call denotes n ps m) :=
  inferInstanceAs (Decidable (_ ∧ _ ∧ _))

theorem defines_of_finishes {n : Nat} {ps : List (Written × α)} {m : Machine H}
    (h : Finishes hooks call denotes n ps m) :
    Defines hooks call denotes (ps.map Prod.snd) m (afterDefinition hooks call n ps m) :=
  ⟨n, n, afterName hooks call n m, _, eq_ok_lastState h.1, compiles_of_accepts _ _ _ h.2.1,
    eq_ok_lastState h.2.2⟩

end Source

/-- What the definition leaves behind that was begun in `m`, was given a name up to `m1`, had its
body compiled up to `m2` and is ended in `m'`. -/
structure Completes (m m1 m2 m' : Machine H) : Prop where
  data_eq : m'.data = m.data
  returns_eq : m'.returns = m.returns
  ip_eq : m'.ip = m.ip
  compiling_eq : m'.dictionary.compiling = false
  body_eq : m'.dictionary.entryBody m'.dictionary.latest = m1.dictionary.here
  exit_eq : m'.dictionary.readCell m2.dictionary.here = Primitive.exit.token.toInt16
  toNat_here : m'.dictionary.here.toNat = m2.dictionary.here.toNat + 2
  agreeOn_below : m2.dictionary.AgreeOn m'.dictionary 96 m.dictionary.here.toNat
  agreeOn_body : m2.dictionary.AgreeOn m'.dictionary m1.dictionary.here.toNat
    m2.dictionary.here.toNat

/-- What ends the definition that was begun is `;`, if only its body was added meanwhile. -/
theorem Opens.closes_of_execute_eq_ok {m1 m2 : Machine H} {entry : Addr} (hopens : m.Opens m1 entry)
    (hip : m.ip = 0) (hext : m1.dictionary.Extends m2.dictionary) (hdata : m2.data = m1.data)
    (hip2 : m2.ip = m1.ip) (h : execute hooks call n Primitive.semicolon.token m2 = .ok () m') :
    m2.Closes m' entry ∧ m'.data = m.data := by
  have hpop : m2.data.pop? = some (entry.toInt16, m.data) := by
    rw [hdata]
    exact Stack.pop?_of_push? hopens.push_eq
  obtain ⟨entry', hcloses⟩ := Machine.closes_of_execute_eq_ok (hip2.trans (hopens.ip_eq.trans hip))
    (hext.ready hopens.ready) (fun e data he => by
      obtain ⟨rfl, -⟩ := Prod.mk.inj (Option.some.inj (hpop.symm.trans he))
      rw [UInt16.toUInt16_toInt16]
      exact hext.hasHeader hopens.hasHeader) h
  obtain ⟨hentry, hdata'⟩ := Prod.mk.inj (Option.some.inj (hpop.symm.trans hcloses.pop_eq))
  obtain rfl : entry' = entry := by
    rw [← UInt16.toUInt16_toInt16 entry', ← hentry, UInt16.toUInt16_toInt16]
  exact ⟨hcloses, hdata'.symm⟩

/-- If the body only adds to the dictionary, a new word has it as its code. -/
theorem completes_of_execute_eq_ok {m1 m2 : Machine H} {entry : Addr} (hip : m.ip = 0)
    (hopens : m.Opens m1 entry) (hext : m1.dictionary.Extends m2.dictionary)
    (hdata : m2.data = m1.data) (hreturns : m2.returns = m1.returns) (hip2 : m2.ip = m1.ip)
    (h : execute hooks call n Primitive.semicolon.token m2 = .ok () m') : Completes m m1 m2 m' := by
  obtain ⟨hcloses, hdata'⟩ := hopens.closes_of_execute_eq_ok hip hext hdata hip2 h
  have hheader := hext.hasHeader hopens.hasHeader
  obtain ⟨d, hext', hnum, hexit, hcompiling, hends⟩ := hcloses.ends
  have hheader' := hext'.hasHeader hheader
  -- the old code lies below the new header, and the new code above it
  have hle1 := hopens.dict_extends.here_le
  have hle2 := hext.here_le
  have htop := m'.dictionary.here.toNat_lt
  have hfirst := hopens.ready.le_here
  have hentryNum := hopens.toNat_entry
  have hname := hopens.hasHeader.name_le
  rw [hopens.entryBody_eq] at hname
  rw [toNat_firstEntry] at hfirst
  have hhere : m'.dictionary.here.toNat = m2.dictionary.here.toNat + 2 := by
    rw [hends.here_eq, hnum]
  have hsize : Header.size (d.readCell entry) = Header.size (m1.dictionary.readCell entry) := by
    have hle := hheader.le_entry
    have hsize := Header.size_le (m1.dictionary.readCell entry)
    rw [toNat_firstEntry] at hle
    rw [(hext.trans hext').agreeOn.readCell (by omega) (by omega) (by omega)]
  refine ⟨hdata', ?_, ?_, ?_, ?_, ?_, hhere, ?_, ?_⟩
  · rw [hcloses.returns_eq, hreturns, hopens.returns_eq]
  · rw [hcloses.ip_eq, hip2, hopens.ip_eq]
  · calc m'.dictionary.compiling
        = d.compiling := hends.compiling_eq hheader'
      _ = false := hcompiling
  · rw [hends.latest_eq, hends.entryBody_eq, hext'.entryBody_eq hheader,
      hext.entryBody_eq hopens.hasHeader, hopens.entryBody_eq]
  · rw [hends.agreeOn_above.readCell (by omega) (by omega) (by omega), hexit]
  · exact (hext'.agreeOn.mono (Nat.le_refl _) (by omega)).trans
      (hends.agreeOn_below.mono (by decide) (by omega))
  · exact (hext'.agreeOn.mono (by omega) (Nat.le_refl _)).trans
      (hends.agreeOn_above.mono (by omega) (by omega))

end ThreadedForth.Machine
