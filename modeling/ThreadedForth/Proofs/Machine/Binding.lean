import ThreadedForth.Proofs.Machine.AppendOnly
import ThreadedForth.Proofs.Machine.Sealed
import ThreadedForth.Proofs.Machine.Semicolon

/-!
# Static binding

A compiled word keeps its meaning: what it calls is written into its code as addresses, and later
definitions go above it. `Enlarges m₀ es m` is any history that adds definitions to those of `m₀`,
with whatever names and bodies, failures and resets between them; `es` are the entries begun since.
All that such a history does to the code of `m₀` is nothing (`enlarged_of_enlarges`): it writes to
reserved cells, from the old `here` on, and to the headers of its own entries. So a self-contained
word does after it what it did before (`execute_of_enlarges`).
-/

set_option autoImplicit false

namespace ThreadedForth

namespace Dictionary

variable {d₀ d d' : Dictionary} {es : List Addr} {entry : Addr}

/-- Definitions were added above those of `d₀`. The entries begun since lie in the memory above
them. -/
structure Enlarged (d₀ d : Dictionary) (es : List Addr) : Prop where
  capacity_eq : d.capacity = d₀.capacity
  here_le : d₀.here.toNat ≤ d.here.toNat
  agreeOn : d₀.AgreeOn d 96 d₀.here.toNat
  le_entry : ∀ e ∈ es, d₀.here.toNat ≤ e.toNat ∧ 96 ≤ e.toNat ∧ e.toNat + 3 < d₀.capacity

namespace Enlarged

theorem refl (d : Dictionary) : d.Enlarged d [] :=
  ⟨rfl, Nat.le_refl _, .refl _ _ _, by simp⟩

theorem of_appends (h : d₀.Enlarged d es) (hd : d.Appends d') : d₀.Enlarged d' es where
  capacity_eq := hd.capacity_eq.trans h.capacity_eq
  here_le := Nat.le_trans h.here_le hd.here_le
  agreeOn := h.agreeOn.trans (hd.agreeOn_below.mono (Nat.le_refl _) h.here_le)
  le_entry := h.le_entry

/-- To link an entry of the history changes its header and the cell `latest`. -/
theorem of_link_eq_ok (h : d₀.Enlarged d es) (hentry : entry ∈ es)
    (hlink : link entry d = .ok () d') : d₀.Enlarged d' es := by
  obtain ⟨hle, hfirst, hlt⟩ := h.le_entry entry hentry
  have hcap := d₀.capacity_le
  have h1 : (entry + 1).toNat = entry.toNat + 1 := toNat_add_one (by omega)
  have h2 : (entry + cellSize).toNat = entry.toNat + 2 := toNat_add_cellSize (by omega)
  have h3 : (entry + cellSize + 1).toNat = entry.toNat + 3 := by
    rw [toNat_add_one (by omega), h2]
  -- neither a cell of the header nor `latest` lies among the bytes that are asked for
  have hkeep : ∀ {lo hi : Nat}, hi ≤ entry.toNat → hi ≤ 4 ∨ 6 ≤ lo → d.AgreeOn d' lo hi := by
    intro lo hi hbelow haside a hlo hhi
    refine readByte_of_link_eq_ok hlink fun c hc => ?_
    have hcases : c = entry ∨ c = entry + cellSize ∨ c = SystemCell.latest.addr := by
      unfold linkCells at hc
      split at hc
      · simpa [or_assoc] using hc
      · rcases List.mem_cons.1 hc with h | h
        · exact Or.inl h
        · exact Or.inr (Or.inr (List.mem_singleton.1 h))
    rw [Ne, Ne, ← UInt16.toNat_inj, ← UInt16.toNat_inj]
    rcases hcases with rfl | rfl | rfl
    · omega
    · omega
    · change a.toNat ≠ 4 ∧ a.toNat ≠ 5
      omega
  have hlow : d.AgreeOn d' 0 4 := hkeep (by omega) (Or.inl (Nat.le_refl _))
  have hhere : d'.here = d.here :=
    hlow.reservedAddr (c := .here) (Nat.zero_le _) (Nat.le_refl _)
  refine ⟨?_, ?_, h.agreeOn.trans (hkeep hle (Or.inr (by decide))), h.le_entry⟩
  · obtain ⟨rfl, -, -⟩ := Dictionary.of_link_eq_ok hlink
    rw [capacity_setReservedAddr, capacity_writeDistance, h.capacity_eq]
  · rw [hhere]
    exact h.here_le

theorem of_writeByte (h : d₀.Enlarged d es) {a : Addr} (v : UInt8)
    (hfirst : Layout.firstEntry ≤ a) (ha : d₀.here ≤ a) : d₀.Enlarged (d.writeByte a v) es := by
  have hfirst' : 96 ≤ a.toNat := UInt16.le_iff_toNat_le.1 hfirst
  have hhere : (d.writeByte a v).here = d.here :=
    (d.agreeOn_writeByte v (Or.inr hfirst')).reservedAddr (c := .here) (Nat.zero_le _) (by decide)
  refine ⟨(capacity_writeByte ..).trans h.capacity_eq, ?_, ?_, h.le_entry⟩
  · rw [hhere]
    exact h.here_le
  · exact h.agreeOn.trans (d.agreeOn_writeByte v (Or.inr (UInt16.le_iff_toNat_le.1 ha)))

/-- `here` may go back to an entry of the history. -/
theorem of_setHere (h : d₀.Enlarged d es) (hentry : entry ∈ es) :
    d₀.Enlarged (d.setReservedAddr .here entry) es := by
  obtain ⟨hle, hfirst, hlt⟩ := h.le_entry entry hentry
  refine ⟨(capacity_setReservedAddr ..).trans h.capacity_eq, ?_, ?_, h.le_entry⟩
  · rw [d.here_setReservedAddr entry (by rw [h.capacity_eq]; omega)]
    exact hle
  · exact h.agreeOn.trans ((d.agreeOn_setHere entry).mono (by decide)
      (Nat.le_of_lt d₀.here.toNat_lt))

end Enlarged

end Dictionary

namespace Machine

open Dictionary

variable {H : Type} {hooks : Hooks H} {call : Interpreter H} {m₀ m m' : Machine H}
  {es : List Addr}

/-! ## Histories -/

variable (hooks call) in
/-- How definitions are added to those of `m₀`. Source text, stacks and the host may change in any
way between the steps. Besides what takes room, words that run meanwhile may write to memory that is
not of `m₀`, as those do that fill in jumps or mark a word as immediate. `;` ends an entry that was
begun in the history, and a reset gives up such an entry or none. -/
inductive Enlarges (m₀ : Machine H) : List Addr → Machine H → Prop
  | start : Enlarges m₀ [] m₀
  | quiet {es : List Addr} {m m' : Machine H} (h : Enlarges m₀ es m)
      (reads : m.dictionary.InputOnly m'.dictionary) : Enlarges m₀ es m'
  | take {es : List Addr} {m : Machine H} (n : Nat) (t : Taking) (h : Enlarges m₀ es m)
      (may : m.MayTake t) : Enlarges m₀ es (lastState (take hooks call n t m))
  | colon {es : List Addr} {n : Nat} {m m' : Machine H} (h : Enlarges m₀ es m)
      (begins : colon hooks call n m = .ok () m') :
      Enlarges m₀ (m'.dictionary.openEntry :: es) m'
  | write {es : List Addr} {m : Machine H} (a : Addr) (v : UInt8) (h : Enlarges m₀ es m)
      (first_le : Layout.firstEntry ≤ a) (here_le : m₀.dictionary.here ≤ a) :
      Enlarges m₀ es { m with dictionary := m.dictionary.writeByte a v }
  | setCompiling {es : List Addr} {m : Machine H} (on : Bool) (h : Enlarges m₀ es m) :
      Enlarges m₀ es (lastState (setCompiling on m))
  | semicolon {es : List Addr} {m : Machine H} (h : Enlarges m₀ es m)
      (begun : ∀ v data, m.data.pop? = some (v, data) → v.toUInt16 ∈ es) :
      Enlarges m₀ es (lastState (semicolon m))
  | reset {es : List Addr} {m : Machine H} (h : Enlarges m₀ es m)
      (begun : m.rewinds = true → m.dictionary.openEntry ∈ es) : Enlarges m₀ es m.reset

/-- A definition that is begun lies above those that were there. -/
theorem enlarged_of_opens {d₀ : Dictionary} {entry : Addr} (h : d₀.Enlarged m.dictionary es)
    (hopens : m.Opens m' entry) : d₀.Enlarged m'.dictionary (entry :: es) := by
  have hext := hopens.dict_extends
  have hle := h.here_le
  have hentry := hopens.toNat_entry
  have hheader := hopens.hasHeader
  have hfirst := hheader.le_entry
  have hname := hheader.name_le
  have hbody := hheader.body_le
  have hpos := hopens.nameLength_pos
  have hsize := Header.size_le (m'.dictionary.readCell entry)
  have hlt := hopens.ready.here_lt
  rw [toNat_firstEntry] at hfirst
  refine ⟨hext.capacity_eq.trans h.capacity_eq, Nat.le_trans hle hext.here_le,
    h.agreeOn.trans (hext.agreeOn.mono (Nat.le_refl _) hle), fun e he => ?_⟩
  rcases List.mem_cons.1 he with rfl | he
  · have hcap : m'.dictionary.capacity = d₀.capacity := hext.capacity_eq.trans h.capacity_eq
    exact ⟨by omega, hfirst, by omega⟩
  · exact h.le_entry e he

/-- `;` adds the exit and links the entry on the stack, as far as it comes. -/
theorem enlarged_semicolon {d₀ : Dictionary} (h : d₀.Enlarged m.dictionary es)
    (hbegun : ∀ v data, m.data.pop? = some (v, data) → v.toUInt16 ∈ es) :
    d₀.Enlarged (lastState (semicolon m)).dictionary es := by
  let Keeps : Machine H → Machine H → Prop := fun m m' =>
    d₀.Enlarged m.dictionary es → d₀.Enlarged m'.dictionary es
  have trans : ∀ {m m' m'' : Machine H}, Keeps m m' → Keeps m' m'' → Keeps m m'' :=
    fun h h' hm => h' (h hm)
  cases htop : onData StackM.top m with
  | error stop m1 =>
      have hfails : semicolon m = .error stop m1 := bind_eq_of_error htop _
      have hkept := (OnlyAppends.onData StackM.top).of_eq_error htop
      rw [hfails]
      exact h.of_appends hkept
  | ok v m1 =>
      obtain ⟨rfl, data, hpop⟩ := of_top_eq_ok htop
      have hentry := hbegun v data hpop
      have hrest : Relates Keeps (do
          onDictionary (Dictionary.append Primitive.exit.token.toInt16)
          discard pop
          setCompiling false
          onDictionary (Dictionary.link v.toUInt16) : MachineM H Unit) := by
        refine .bind trans (fun m hm => hm.of_appends
          (OnlyAppends.onDictionary (Dictionary.appends_append _) m)) fun _ => ?_
        refine .bind trans (fun m hm => hm.of_appends
          ((OnlyAppends.onData StackM.pop).discard m)) fun _ => ?_
        refine .bind trans (fun m hm => hm.of_appends
          (Dictionary.appends_setReserved _ .compiling _ (by decide))) fun _ m hm => ?_
        simp only [onDictionary]
        cases hlink : Dictionary.link v.toUInt16 m.dictionary with
        | ok u d => exact hm.of_link_eq_ok hentry hlink
        | error e d =>
            obtain rfl := eq_of_link_eq_error hlink
            exact hm
      have hsplit : semicolon m1 = _ := bind_eq_of_ok htop _
      rw [hsplit]
      exact hrest m1 h

/-- A reset goes back to an entry of the history, if it goes back. -/
theorem enlarged_reset {d₀ : Dictionary} (h : d₀.Enlarged m.dictionary es)
    (hbegun : m.rewinds = true → m.dictionary.openEntry ∈ es) :
    d₀.Enlarged m.reset.dictionary es := by
  rw [dictionary_reset]
  refine Enlarged.of_appends ?_ (Dictionary.appends_setReserved _ .compiling _ (by decide))
  split
  · rename_i hrewinds
    exact h.of_setHere (hbegun hrewinds)
  · exact h

/-- A history leaves all that lay below `here` as it was. -/
theorem enlarged_of_enlarges (hrefill : QuietRefill hooks call)
    (h : Enlarges hooks call m₀ es m) : m₀.dictionary.Enlarged m.dictionary es := by
  induction h with
  | start => exact .refl _
  | quiet h reads ih => exact ih.of_appends reads.appends
  | take n t h may ih => exact ih.of_appends (appends_run hrefill n may)
  | colon h begins ih =>
      obtain ⟨entry, hopens⟩ := opens_of_colon_eq_ok hrefill begins
      rw [openEntry, hopens.openEntry_eq]
      exact enlarged_of_opens ih hopens
  | write a v h first_le here_le ih => exact ih.of_writeByte v first_le here_le
  | setCompiling on h ih =>
      exact ih.of_appends (Dictionary.appends_setReserved _ .compiling _ (by decide))
  | semicolon h begun ih => exact enlarged_semicolon ih begun
  | reset h begun ih => exact enlarged_reset ih begun

/-! ## The main result -/

/-- After any history that adds definitions, a self-contained word that was there before does what
it did: from the same stacks it comes to the same stacks and the same end, or to none, in as many
steps, and it changes no memory. -/
theorem execute_of_enlarges (hrefill : QuietRefill hooks call) (h : Enlarges hooks call m₀ es m)
    {body : Addr} (hbody : m₀.dictionary.SelfContained body) (hooks' : Hooks H)
    (call' : Interpreter H) (n : Nat) (s returns : Stack) (host : H) :
    execute hooks' call' n body ⟨m.dictionary, s, returns, 0, host⟩ =
        withDictionary m.dictionary
          (execute hooks' call' n body ⟨m₀.dictionary, s, returns, 0, host⟩) ∧
      (lastState (execute hooks' call' n body
        ⟨m₀.dictionary, s, returns, 0, host⟩)).dictionary = m₀.dictionary := by
  obtain ⟨code, hat, hsealed, hbelow⟩ := hbody
  have henlarged := enlarged_of_enlarges hrefill h
  have hsame : ∀ a k, code a k → m₀.dictionary.SameAt m.dictionary a := by
    intro a k ha
    obtain ⟨hfirst, hend⟩ := hbelow a k ha
    exact .of_agreeOn henlarged.agreeOn hfirst hend (Nat.le_of_lt (UInt16.toNat_lt _))
  have hfirst := (hbelow body 0 hat).1
  exact execute_withDictionary hooks' call' hsealed hsame n s returns host
    (UInt16.le_iff_toNat_le.2 hfirst) hat

/-- The machine after `:` with a name. -/
def named (name : String) (m : Machine Unit) : Machine Unit :=
  lastState (colon {} (interpreter {} 0) 1
    (lastState (onDictionary (Dictionary.loadInput (Text.encode name)) m)))

/-- The machine with a definition of one cell. -/
def withDefinition (name : String) (v : Cell) (m : Machine Unit) : Machine Unit :=
  lastState (semicolon (lastState (take {} (interpreter {} 0) 1 (.append v) (named name m))))

/-- The code that counts the top cell down to zero: a copy of it, a jump to the end on zero, one
less, and a jump back. -/
def countdownCells : List Cell :=
  [(Primitive.operator .dup).token.toInt16, Primitive.branchIfZero.token.toInt16, 10,
    (Token.literal 1).encode.toInt16, (Primitive.operator .sub).token.toInt16,
    Primitive.branch.token.toInt16, -12]

/-- A machine with a word that counts down. -/
def downMachine : Machine Unit :=
  lastState (semicolon (lastState (onDictionary (countdownCells.forM Dictionary.append)
    (named "down" (ofConfig ⟨64, 64, 256⟩ ())))))

/-- The same with another word of that name. -/
def shadowedMachine : Machine Unit :=
  withDefinition "down" (Token.literal 7).encode.toInt16 downMachine

/-- The same with a word that has the name of an operator in the code. -/
def changedMachine : Machine Unit :=
  withDefinition "-" (Primitive.operator .add).token.toInt16 shadowedMachine

/-- The same after yet another definition was begun and given up. -/
def redefinedMachine : Machine Unit := (named "lost" changedMachine).reset

/-- The places of the code of the word that counts down, with nothing on the return stack. -/
def countdownPlaces : List (Addr × Nat) :=
  [(102, 0), (104, 0), (108, 0), (110, 0), (112, 0), (116, 0)]

theorem selfContained_downMachine : downMachine.dictionary.SelfContained 102 := by
  have hplaces : downMachine.dictionary.here = 118 ∧ ∀ p ∈ countdownPlaces,
      downMachine.dictionary.Leads (fun a k => (a, k) ∈ countdownPlaces) p.1 p.2
          (downMachine.dictionary.tokenAt p.1) ∧
        96 ≤ p.1.toNat ∧ p.1.toNat + (downMachine.dictionary.tokenAt p.1).size ≤ 118 := by
    decide +kernel
  obtain ⟨hhere, hplaces⟩ := hplaces
  refine ⟨fun a k => (a, k) ∈ countdownPlaces, by decide, fun a k ha => (hplaces _ ha).1,
    fun a k ha => ?_⟩
  rw [hhere]
  exact (hplaces _ ha).2

theorem enlarges_named {name : String} {m₀ m : Machine Unit}
    (h : Enlarges {} (interpreter {} 0) m₀ es m)
    (hcolon : value? (colon {} (interpreter {} 0) 1
      (lastState (onDictionary (Dictionary.loadInput (Text.encode name)) m))) = some ()) :
    Enlarges {} (interpreter {} 0) m₀ ((named name m).dictionary.openEntry :: es) (named name m) :=
  .colon (.quiet h (relates_onDictionary (Dictionary.relates_loadInput _) m))
    (eq_ok_lastState hcolon)

theorem enlarges_withDefinition {name : String} {v : Cell} {m₀ m : Machine Unit}
    (h : Enlarges {} (interpreter {} 0) m₀ es m)
    (hcolon : value? (colon {} (interpreter {} 0) 1
      (lastState (onDictionary (Dictionary.loadInput (Text.encode name)) m))) = some ())
    (htop : (lastState (take {} (interpreter {} 0) 1 (.append v) (named name m))).data.pop?.map
      (·.1.toUInt16) = some (named name m).dictionary.openEntry) :
    Enlarges {} (interpreter {} 0) m₀ ((named name m).dictionary.openEntry :: es)
      (withDefinition name v m) := by
  refine .semicolon (.take 1 (.append v) (enlarges_named h hcolon) trivial) fun w data hpop => ?_
  rw [hpop] at htop
  rw [← Option.some.inj htop]
  exact List.mem_cons_self

/-- A stack with a number to count down from. -/
def threeStack : Stack := lastState (StackM.push 3 (.empty 64))

/-- Every step succeeds, the entries begun are the ones that are ended, and the word that counts
down does so. -/
theorem redefinedMachine_eq :
    value? (colon {} (interpreter {} 0) 1 (lastState (onDictionary
      (Dictionary.loadInput (Text.encode "down")) downMachine))) = some () ∧
    (lastState (take {} (interpreter {} 0) 1 (.append (Token.literal 7).encode.toInt16)
      (named "down" downMachine))).data.pop?.map (·.1.toUInt16) =
        some (named "down" downMachine).dictionary.openEntry ∧
    value? (colon {} (interpreter {} 0) 1 (lastState (onDictionary
      (Dictionary.loadInput (Text.encode "-")) shadowedMachine))) = some () ∧
    (lastState (take {} (interpreter {} 0) 1 (.append (Primitive.operator .add).token.toInt16)
      (named "-" shadowedMachine))).data.pop?.map (·.1.toUInt16) =
        some (named "-" shadowedMachine).dictionary.openEntry ∧
    value? (colon {} (interpreter {} 0) 1 (lastState (onDictionary
      (Dictionary.loadInput (Text.encode "lost")) changedMachine))) = some () ∧
    redefinedMachine.dictionary.latest = 128 ∧
    redefinedMachine.dictionary.text (redefinedMachine.dictionary.entryName 118) =
      Text.encode "down" ∧
    (lastState (execute {} (interpreter {} 0) 60 102
      ⟨downMachine.dictionary, threeStack, .empty 64, 0, ()⟩)).data.cells = [0] := by
  decide +kernel

/-- After its name and an operator in it mean something else, the word does what it did. -/
theorem execute_countdown_redefinedMachine :
    redefinedMachine.dictionary.latest = 128 ∧
      redefinedMachine.dictionary.text (redefinedMachine.dictionary.entryName 118) =
        Text.encode "down" ∧
      (∀ n s, execute {} (interpreter {} 0) n 102
          ⟨redefinedMachine.dictionary, s, .empty 64, 0, ()⟩ =
        withDictionary redefinedMachine.dictionary
          (execute {} (interpreter {} 0) n 102 ⟨downMachine.dictionary, s, .empty 64, 0, ()⟩)) ∧
      (lastState (execute {} (interpreter {} 0) 60 102
        ⟨downMachine.dictionary, threeStack, .empty 64, 0, ()⟩)).data.cells = [0] := by
  have hrefill : QuietRefill ({} : Hooks Unit) (interpreter {} 0) :=
    ⟨fun m => .refl m, fun m m' h => by cases h⟩
  obtain ⟨hcolon, htop, hcolon', htop', hlost, hlatest, hname, hrun⟩ := redefinedMachine_eq
  have hshadowed : Enlarges {} (interpreter {} 0) downMachine _ shadowedMachine :=
    enlarges_withDefinition .start hcolon htop
  have hchanged : Enlarges {} (interpreter {} 0) downMachine _ changedMachine :=
    enlarges_withDefinition hshadowed hcolon' htop'
  have hredefined : Enlarges {} (interpreter {} 0) downMachine _ redefinedMachine :=
    (enlarges_named hchanged hlost).reset fun _ => List.mem_cons_self
  refine ⟨hlatest, hname, fun n s => ?_, hrun⟩
  exact (execute_of_enlarges hrefill hredefined selfContained_downMachine {} (interpreter {} 0) n s
    (.empty 64) ()).1

end Machine

end ThreadedForth
