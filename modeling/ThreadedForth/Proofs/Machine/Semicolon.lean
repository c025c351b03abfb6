import ThreadedForth.Proofs.Dictionary.InProgress
import ThreadedForth.Proofs.Machine.Visible

/-!
# What the closing word publishes

`;` adds an exit to the code and links the entry whose address is on the stack. It looks at nothing
but that address and the header there: the entry has to lie after the latest one, and not farther
from it than the header can tell (`Linkable`). So it links any such address, whether a `:` put it
there or not (`links_strayMachine`).

What can be relied on is `semicolon_publishes`. If `;` fails, the chain and its latest entry are as
they were. It succeeds if there is room for the exit and the address on the stack is linkable, and
then that is the latest entry. If the address is the one of the definition that the last `:` began,
it is linkable, and what `;` publishes is that definition, all of it below `here`.
-/

set_option autoImplicit false

namespace ThreadedForth

namespace Dictionary

variable {d d' : Dictionary} {entry : Addr} {v : Cell} {fs : List Definition}

/-! ## Adding the exit -/

/-- Adding a cell keeps the chain and its latest entry. -/
theorem chained_of_append_eq_ok (hc : d.Chained fs) (h : append v d = .ok () d') :
    d'.Chained fs ∧ d'.latest = d.latest := by
  rcases of_append_eq_ok h with ⟨hgrow, hready, hnum, -⟩
  have hle := hready.le_here
  rw [toNat_firstEntry] at hle
  constructor
  · exact hgrow.chained hc
  · exact hgrow.agreeOn.reservedAddr (by decide) (by show 6 ≤ _; omega)

/-- The newest definition is kept as it is, with its code up to `here`. -/
theorem Chained.keeps_finishedAt (h : d.Chained ((d.finishedAt entry).toDefinition :: fs))
    (hlatest : d.latest = entry) : d.Keeps (d.finishedAt entry) := by
  have hholds := h.holds_of_mem List.mem_cons_self
  constructor
  · exact ⟨_, chain?_of_chained h hlatest, addr_mem_trail h List.mem_cons_self⟩
  · exact hholds
  · simp only [finishedAt, Memory.length_bytesFrom]
  · exact Nat.le_of_eq hholds.stop_finishedAt

end Dictionary

namespace Machine

variable {H : Type} {hooks : Hooks H} {call : Interpreter H} {m m' : Machine H} {v : Cell}
  {data : Stack} {fs : List Definition}

/-! ## The steps of the closing word -/

/-- The dictionary when `;` comes to link an entry: the exit was added and nothing is compiled. -/
def closed (m : Machine H) : Dictionary :=
  (lastState (Dictionary.append Primitive.exit.token.toInt16 m.dictionary)).setReserved .compiling 0

/-- Without a cell on the stack nothing happens. -/
theorem semicolon_of_pop?_eq_none (h : m.data.pop? = none) :
    semicolon m = .error (.error .stackUnderflow) m := by
  rcases m with ⟨d, ⟨capacity, cells, depth, hdepth, hle⟩, returns, ip, host⟩
  cases cells with
  | nil => rfl
  | cons w ws => cases h

/-- Without room for the exit nothing happens either. -/
theorem semicolon_of_not_hasRoom (htop : m.data.pop? = some (v, data))
    (h : ¬ m.dictionary.HasRoom) :
    semicolon m = .error (.error (.dictionaryFull m.dictionary.here cellSize.toInt16)) m := by
  have hm : onDictionary (Dictionary.append Primitive.exit.token.toInt16) m =
      .error (.error (.dictionaryFull m.dictionary.here cellSize.toInt16)) m := by
    simp only [onDictionary, Dictionary.append_eq_of_not_hasRoom h]
  unfold semicolon
  rw [bind_eq_of_ok (top_eq_of_pop? htop)]
  exact bind_eq_of_error hm _

theorem append_exit_eq (h : m.dictionary.HasRoom) :
    Dictionary.append Primitive.exit.token.toInt16 m.dictionary =
      .ok () (lastState (Dictionary.append Primitive.exit.token.toInt16 m.dictionary)) :=
  eq_ok_lastState (Dictionary.value?_append_iff.2 h)

/-- With room for the exit, the cell is taken off the stack and linked. -/
theorem semicolon_of_hasRoom (htop : m.data.pop? = some (v, data)) (h : m.dictionary.HasRoom) :
    semicolon m =
      onDictionary (Dictionary.link v.toUInt16) { m with dictionary := m.closed, data } := by
  have happend := append_exit_eq h
  unfold semicolon closed
  generalize lastState (Dictionary.append Primitive.exit.token.toInt16 m.dictionary) = d
    at happend ⊢
  have hm : onDictionary (Dictionary.append Primitive.exit.token.toInt16) m =
      .ok () { m with dictionary := d } := by
    simp only [onDictionary, happend]
  have hpop : discard pop { m with dictionary := d } = .ok () { m with dictionary := d, data } :=
    bind_eq_of_ok (pop_eq_of_pop? (m := { m with dictionary := d }) htop) _
  rw [bind_eq_of_ok (top_eq_of_pop? htop), bind_eq_of_ok hm, bind_eq_of_ok hpop]
  rfl

/-- All that `;` can do: nothing, or close the definition and then refuse the address or link it. -/
theorem semicolon_cases (m : Machine H) :
    (∃ e, semicolon m = .error (.error e) m ∧
        ∀ v data, m.data.pop? = some (v, data) → ¬ m.dictionary.HasRoom) ∨
      (∃ v data, m.data.pop? = some (v, data) ∧ m.dictionary.HasRoom ∧
        ¬ m.closed.Linkable v.toUInt16 ∧
        semicolon m = .error (.error (.badLink v.toUInt16 m.closed.latest))
          { m with dictionary := m.closed, data }) ∨
      ∃ v data d, m.data.pop? = some (v, data) ∧ m.dictionary.HasRoom ∧
        m.closed.Linkable v.toUInt16 ∧ Dictionary.link v.toUInt16 m.closed = .ok () d ∧
        semicolon m = .ok () { m with dictionary := d, data } := by
  cases htop : m.data.pop? with
  | none => exact Or.inl ⟨_, semicolon_of_pop?_eq_none htop, fun v data h => by cases h⟩
  | some top =>
      by_cases hroom : m.dictionary.HasRoom
      · have hsemicolon := semicolon_of_hasRoom htop hroom
        by_cases hlink : m.closed.Linkable top.1.toUInt16
        · have hd := Dictionary.link_eq_of_linkable hlink
          refine Or.inr (Or.inr ⟨top.1, top.2, _, rfl, hroom, hlink, hd, ?_⟩)
          rw [hsemicolon]
          simp only [onDictionary, hd]
        · refine Or.inr (Or.inl ⟨top.1, top.2, rfl, hroom, hlink, ?_⟩)
          rw [hsemicolon]
          simp only [onDictionary, Dictionary.link_eq_of_not_linkable hlink]
      · exact Or.inl ⟨_, semicolon_of_not_hasRoom htop hroom, fun _ _ _ => hroom⟩

/-- Up to the link, the chain and its latest entry are as they were. -/
theorem closed_chained (hc : m.dictionary.Chained fs) (hroom : m.dictionary.HasRoom) :
    m.closed.Chained fs ∧ m.closed.latest = m.dictionary.latest ∧ m.closed.Ready := by
  have happend := append_exit_eq hroom
  have hready := (Dictionary.of_append_eq_ok happend).2.1
  have hset := Dictionary.extends_setReserved hready .compiling 0 (by decide)
  rcases Dictionary.chained_of_append_eq_ok hc happend with ⟨hchained, hlatest⟩
  exact ⟨hset.chained hchained, hset.latest_eq.trans hlatest, hset.ready hready⟩

/-- If `here` was where definitions go, what lies below it is as it was up to the link. -/
theorem extends_closed (hready : m.dictionary.Ready) (hroom : m.dictionary.HasRoom) :
    m.dictionary.Extends m.closed := by
  have happend := append_exit_eq hroom
  have hgrow := (Dictionary.of_append_eq_ok happend).1.extends hready
  exact hgrow.trans (Dictionary.extends_setReserved (hgrow.ready hready) .compiling 0 (by decide))

/-- A failed `;` keeps the chain and its latest entry. -/
theorem chained_of_semicolon_eq_error {stop : Stop} (hc : m.dictionary.Chained fs)
    (h : semicolon m = .error stop m') :
    m'.dictionary.Chained fs ∧ m'.dictionary.latest = m.dictionary.latest := by
  rcases semicolon_cases m with ⟨e, hfails, -⟩ | ⟨v, data, -, hroom, -, hfails⟩ |
    ⟨v, data, d, -, -, -, -, hok⟩
  · rw [hfails] at h
    cases h
    exact ⟨hc, rfl⟩
  · rw [hfails] at h
    cases h
    rcases closed_chained hc hroom with ⟨hchained, hlatest, -⟩
    exact ⟨hchained, hlatest⟩
  · rw [hok] at h
    cases h

/-- When `;` succeeds. -/
theorem value?_semicolon_iff (htop : m.data.pop? = some (v, data)) :
    value? (semicolon m) = some () ↔ m.dictionary.HasRoom ∧ m.closed.Linkable v.toUInt16 := by
  rcases semicolon_cases m with ⟨e, hfails, hroom⟩ | ⟨w, rest, hpop, -, hlink, hfails⟩ |
    ⟨w, rest, d, hpop, hroom, hlink, -, hok⟩
  · rw [hfails]
    constructor
    · intro h
      cases h
    · rintro ⟨hr, -⟩
      exact absurd hr (hroom v data htop)
  · rw [htop] at hpop
    cases hpop
    rw [hfails]
    constructor
    · intro h
      cases h
    · rintro ⟨-, hl⟩
      exact absurd hl hlink
  · rw [htop] at hpop
    cases hpop
    rw [hok]
    exact ⟨fun _ => ⟨hroom, hlink⟩, fun _ => rfl⟩

/-- A successful `;` makes the address on the stack the latest entry. -/
theorem latest_of_semicolon_eq_ok (hc : m.dictionary.Chained fs) (h : semicolon m = .ok () m') :
    ∃ v, m.data.pop? = some (v, m'.data) ∧ m'.dictionary.latest = v.toUInt16 := by
  rcases semicolon_cases m with ⟨e, hfails, -⟩ | ⟨v, data, -, -, -, hfails⟩ |
    ⟨v, data, d, hpop, hroom, -, hlink, hok⟩
  · rw [hfails] at h
    cases h
  · rw [hfails] at h
    cases h
  · rw [hok] at h
    cases h
    have hcap := (closed_chained hc hroom).2.2.lt_capacity
    exact ⟨v, hpop, Dictionary.latest_of_link_eq_ok (by omega) hlink⟩

/-! ## The definition that is open -/

variable (hooks call) in
/-- The last `:` began a definition after `fs` were finished, and since then no entry was linked,
`here` did not go back and nothing below it changed. -/
def Pending (fs : List Definition) (m : Machine H) : Prop :=
  ∃ (n : Nat) (m0 m1 : Machine H), m0.dictionary.Chained fs ∧
    m0.dictionary.latest = newestAddr fs ∧ colon hooks call n m0 = .ok () m1 ∧
    m1.dictionary.Extends m.dictionary ∧ m.dictionary.openEntry = m1.dictionary.openEntry

/-- What is known of an open definition: its header lies above the finished ones and is made for
the distance to the latest of them. -/
structure Unfinished (fs : List Definition) (m : Machine H) : Prop where
  ready : m.dictionary.Ready
  chained : m.dictionary.Chained fs
  latest_eq : m.dictionary.latest = newestAddr fs
  hasHeader : m.dictionary.HasHeader m.dictionary.openEntry
  above : ∀ f ∈ fs, f.body.toNat ≤ m.dictionary.openEntry.toNat
  isLong_eq : Header.isLong (m.dictionary.readCell m.dictionary.openEntry) =
    decide (Header.longDistance ≤ m.dictionary.openEntry - m.dictionary.latest)

theorem unfinished_of_pending (hrefill : QuietRefill hooks call) (h : Pending hooks call fs m) :
    m.Unfinished fs := by
  rcases h with ⟨n, m0, m1, hchained, hlatest, hcolon, hext, hopen⟩
  rcases opens_of_colon_eq_ok hrefill hcolon with ⟨entry, hopens⟩
  rcases hopens.header_eq with ⟨length, -, hlt, hinfo⟩
  have hentry : m.dictionary.openEntry = entry := hopen.trans hopens.openEntry_eq
  have hboth := hopens.dict_extends.trans hext
  constructor
  · exact hext.ready hopens.ready
  · exact hboth.chained hchained
  · exact hboth.latest_eq.trans hlatest
  · rw [hentry]
    exact hext.hasHeader hopens.hasHeader
  · intro f hf
    have hend := (hchained.holds_of_mem hf).body_le_here
    have hnum := hopens.toNat_entry
    rw [hentry]
    omega
  · rw [hentry, hext.readCell_entry hopens.hasHeader, hinfo, Dictionary.isLong_newHeader _ _ hlt,
      hboth.latest_eq]

/-- The entry of an open definition is linkable, also after the exit was added. -/
theorem Unfinished.linkable (h : m.Unfinished fs) (hroom : m.dictionary.HasRoom) :
    m.closed.Linkable m.dictionary.openEntry := by
  have hext := extends_closed h.ready hroom
  have hle : (newestAddr fs).toNat ≤ m.dictionary.openEntry.toNat := by
    cases fs with
    | nil => exact h.hasHeader.le_entry
    | cons f fs =>
        have hbody := (h.chained.holds_of_mem List.mem_cons_self).addr_lt_body
        have habove := h.above f List.mem_cons_self
        show f.addr.toNat ≤ _
        omega
  unfold Dictionary.Linkable
  rw [hext.latest_eq, hext.readCell_entry h.hasHeader, h.isLong_eq]
  constructor
  · rw [h.latest_eq]
    exact UInt16.le_iff_toNat_le.2 hle
  · by_cases hlong :
        Header.longDistance ≤ m.dictionary.openEntry - m.dictionary.latest
    · exact Or.inl (decide_eq_true hlong)
    · exact Or.inr (UInt16.not_le.1 hlong)

/-- Where there is room for the exit, `;` publishes an open definition. -/
theorem Unfinished.exists_of_semicolon (h : m.Unfinished fs)
    (htop : m.data.pop? = some (m.dictionary.openEntry.toInt16, data))
    (hroom : m.dictionary.HasRoom) :
    ∃ m', semicolon m = .ok () m' ∧ m'.dictionary.latest = m.dictionary.openEntry ∧
      m'.dictionary.Chained
        ((m'.dictionary.finishedAt m.dictionary.openEntry).toDefinition :: fs) ∧
      m'.dictionary.Keeps (m'.dictionary.finishedAt m.dictionary.openEntry) := by
  have hext := extends_closed h.ready hroom
  have hheader := hext.hasHeader h.hasHeader
  have hlink : ∃ d, Dictionary.link m.dictionary.openEntry m.closed = .ok () d :=
    ⟨_, Dictionary.link_eq_of_linkable (h.linkable hroom)⟩
  rcases hlink with ⟨d, hlink⟩
  have hends := Dictionary.ends_of_link_eq_ok (hext.ready h.ready) hheader hlink
  have hchained := hends.chained_finishedAt hheader (hext.chained h.chained)
    (hext.latest_eq.trans h.latest_eq) h.above
  refine ⟨{ m with dictionary := d, data }, ?_, hends.latest_eq, hchained,
    hchained.keeps_finishedAt hends.latest_eq⟩
  rw [semicolon_of_hasRoom htop hroom, UInt16.toUInt16_toInt16]
  simp only [onDictionary, hlink]

/-! ## The main result -/

/-- While the definitions `fs` are chained: if `;` fails, they are chained as they were. It succeeds
if there is room for the exit and the address on the stack, which is not that of the latest
definition, is linkable. If it succeeds, the address is the latest entry. If the address is that of
the open definition, `;` succeeds wherever there is room for the exit, and it puts the definition,
all of it below `here`, in front of the others. -/
theorem semicolon_publishes (hrefill : QuietRefill hooks call) (hc : m.dictionary.Chained fs)
    (hlatest : m.dictionary.latest = newestAddr fs) :
    (∀ stop m', semicolon m = .error stop m' →
        m'.dictionary.Chained fs ∧ m'.dictionary.latest = newestAddr fs) ∧
      (∀ v data, m.data.pop? = some (v, data) → v.toUInt16 ≠ m.dictionary.latest ∨ fs = [] →
        (value? (semicolon m) = some () ↔
          m.dictionary.HasRoom ∧ m.closed.Linkable v.toUInt16)) ∧
      (∀ m', semicolon m = .ok () m' → ∃ v, m.data.pop? = some (v, m'.data) ∧
        m'.dictionary.latest = v.toUInt16) ∧
      (∀ data, Pending hooks call fs m →
        m.data.pop? = some (m.dictionary.openEntry.toInt16, data) → m.dictionary.HasRoom →
        ∃ m', semicolon m = .ok () m' ∧ m'.dictionary.latest = m.dictionary.openEntry ∧
          m'.dictionary.Chained
            ((m'.dictionary.finishedAt m.dictionary.openEntry).toDefinition :: fs) ∧
          m'.dictionary.Keeps (m'.dictionary.finishedAt m.dictionary.openEntry)) := by
  refine ⟨fun stop m' h => ?_, fun v data htop _ => ?_, fun m' h => ?_,
    fun data hpending htop hroom => ?_⟩
  · rcases chained_of_semicolon_eq_error hc h with ⟨hchained, hkept⟩
    exact ⟨hchained, hkept.trans hlatest⟩
  · exact value?_semicolon_iff htop
  · exact latest_of_semicolon_eq_ok hc h
  · exact (unfinished_of_pending hrefill hpending).exists_of_semicolon htop hroom

/-- What is open while the second definition of a machine is compiled. -/
theorem pending_secondBegun :
    Pending {} (interpreter {} 0) [onlyDefinition.toDefinition] secondBegun := by
  have hrefill : QuietRefill ({} : Hooks Unit) (interpreter {} 0) :=
    ⟨fun m => .refl m, fun m m' h => by cases h⟩
  have hfacts : secondNamed.dictionary.Chained [onlyDefinition.toDefinition] ∧
      secondNamed.dictionary.latest = 96 ∧ secondBegun.dictionary.openEntry = 104 := by
    decide +kernel
  rcases hfacts with ⟨hchained, hlatest, hopen⟩
  rcases pairMachine_eq with ⟨hcolon, hentry, -⟩
  have hbegun := eq_ok_lastState hcolon
  rcases opens_of_colon_eq_ok hrefill hbegun with ⟨entry, hopens⟩
  refine ⟨1, secondNamed, _, hchained, hlatest, hbegun, ?_, hopen.trans hentry.symm⟩
  exact (onlyAdds_interpretLiteral 2 _).ext hopens.ready

/-- The open definition is published in front of the first one. A number below the latest entry is
refused in its place. -/
theorem semicolon_publishes_secondBegun :
    (∃ m', semicolon secondBegun = .ok () m' ∧ m'.dictionary.latest = 104 ∧
        m'.dictionary.Chained
          [(m'.dictionary.finishedAt 104).toDefinition, onlyDefinition.toDefinition]) ∧
      value? (semicolon (lastState (push 50 secondBegun))) ≠ some () := by
  have hrefill : QuietRefill ({} : Hooks Unit) (interpreter {} 0) :=
    ⟨fun m => .refl m, fun m m' h => by cases h⟩
  have hfacts : secondBegun.dictionary.Chained [onlyDefinition.toDefinition] ∧
      secondBegun.dictionary.latest = 96 ∧ secondBegun.dictionary.openEntry = 104 ∧
      secondBegun.dictionary.HasRoom ∧
      (lastState (push 50 secondBegun)).data.pop?.map (·.1) = some 50 ∧
      (lastState (push 50 secondBegun)).dictionary.Chained [onlyDefinition.toDefinition] ∧
      (lastState (push 50 secondBegun)).dictionary.latest = 96 ∧
      ¬ (lastState (push 50 secondBegun)).closed.Linkable 50 := by
    decide +kernel
  rcases hfacts with ⟨hchained, hlatest, hopen, hroom, hpush, hchained', hlatest', hlink⟩
  rcases pairMachine_eq with ⟨-, -, htop, -⟩
  constructor
  · rcases Option.map_eq_some_iff.1 htop with ⟨⟨v, data⟩, hpop, rfl⟩
    have hpublishes := (semicolon_publishes hrefill hchained hlatest).2.2.2 data
      pending_secondBegun (by rw [hopen]; exact hpop) hroom
    rw [hopen] at hpublishes
    rcases hpublishes with ⟨m', hok, hnewest, hfront, -⟩
    exact ⟨m', hok, hnewest, hfront⟩
  · rcases Option.map_eq_some_iff.1 hpush with ⟨⟨v, data⟩, hpop, rfl⟩
    intro hvalue
    have hiff := (semicolon_publishes hrefill hchained' hlatest').2.1 50 data hpop
      (Or.inl (by rw [hlatest']; decide))
    exact hlink (hiff.1 hvalue).2

/-! ## A number that no `:` put on the stack -/

/-- A machine without definitions, after a number was interpreted. -/
def strayMachine : Machine Unit := lastState (interpretLiteral 200 (ofConfig ⟨64, 64, 256⟩ ()))

/-- Nothing was begun, but `;` succeeds, and the latest entry is the number, above `here`. -/
theorem links_strayMachine :
    Builds {} (interpreter {} 0) [] none strayMachine ∧ strayMachine.dictionary.Chained [] ∧
      strayMachine.dictionary.latest = newestAddr [] ∧
      strayMachine.dictionary.compiling = false ∧ strayMachine.dictionary.openEntry = 0 ∧
      value? (semicolon strayMachine) = some () ∧
      (lastState (semicolon strayMachine)).dictionary.latest = 200 ∧
      (lastState (semicolon strayMachine)).dictionary.here = 98 := by
  refine ⟨.number 200 (.start _ _), .nil, ?_⟩
  decide +kernel

end Machine

end ThreadedForth
