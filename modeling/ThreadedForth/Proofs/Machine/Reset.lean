import ThreadedForth.Proofs.Dictionary.History
import ThreadedForth.Proofs.Machine.Compile

/-!
# What a reset keeps

A reset gives up the definition that is being compiled: while `compiling` is set, `here` goes back
to the entry in the cell `openEntry`. That cell holds the entry that the last `:` began, also
after its definition was finished. So a reset keeps every finished definition unless `compiling`
is set while the entry in that cell lies below the end of one, that is, unless `compiling` was set
again without a `:`. The main result is `keeps_reset_iff`.

`Builds fs opened m` is how a machine gets there: it finished the definitions `fs`, and `opened`
is the entry that was begun and is not finished. What carries the run is `Files d fs opened`.
-/

set_option autoImplicit false

namespace ThreadedForth

/-- A finished definition with the bytes of its body. -/
structure Finished extends Definition where
  code : List UInt8
deriving DecidableEq

/-- Where a finished definition ends. -/
def Finished.stop (f : Finished) : Nat := f.body.toNat + f.code.length

namespace Dictionary

variable {d d' : Dictionary} {f : Finished} {fs : List Finished} {opened : Option Addr}
  {entry : Addr}

/-- The definition of an entry whose body ends at `here`. -/
def finishedAt (d : Dictionary) (entry : Addr) : Finished where
  addr := entry
  name := d.text (d.entryName entry)
  immediate := d.isImmediate entry
  body := d.entryBody entry
  code := d.memory.bytesFrom (d.entryBody entry) (d.here.toNat - (d.entryBody entry).toNat)

/-- The definition is linked, has its name, its flag and its body, and lies below `here`. -/
structure Keeps (d : Dictionary) (f : Finished) : Prop where
  linked : ∃ addrs, d.chain? = some addrs ∧ f.addr ∈ addrs
  holds : d.Holds f.toDefinition
  code_eq : d.memory.bytesFrom f.body f.code.length = f.code
  stop_le : f.stop ≤ d.here.toNat

/-! ## Finished definitions in memory -/

/-- The dictionary holds the finished definitions. The header of the one that was begun lies above
them, and until it is finished, so does the entry that is said to be open. -/
structure Files (d : Dictionary) (fs : List Finished) (opened : Option Addr) : Prop where
  ready : d.Ready
  chained : d.Chained (fs.map (·.toDefinition))
  latest_eq : d.latest = newestAddr (fs.map (·.toDefinition))
  code_eq : ∀ f ∈ fs, d.memory.bytesFrom f.body f.code.length = f.code
  stop_le : ∀ f ∈ fs, f.stop ≤ d.here.toNat
  name_ne_nil : ∀ f ∈ fs, f.name ≠ []
  hasHeader : ∀ e ∈ opened, d.HasHeader e
  nameLength_pos : ∀ e ∈ opened, 0 < (Header.nameLength (d.readCell e)).toNat
  stop_le_opened : ∀ e ∈ opened, ∀ f ∈ fs, f.stop ≤ e.toNat
  stop_le_openEntry : opened ≠ none → ∀ f ∈ fs, f.stop ≤ d.openEntry.toNat

/-- Where no definition is begun, nothing has to be known about one. -/
theorem files_none (hready : d.Ready) (hchained : d.Chained (fs.map (·.toDefinition)))
    (hlatest : d.latest = newestAddr (fs.map (·.toDefinition)))
    (hcode : ∀ f ∈ fs, d.memory.bytesFrom f.body f.code.length = f.code)
    (hstop : ∀ f ∈ fs, f.stop ≤ d.here.toNat) (hname : ∀ f ∈ fs, f.name ≠ []) :
    d.Files fs none where
  ready := hready
  chained := hchained
  latest_eq := hlatest
  code_eq := hcode
  stop_le := hstop
  name_ne_nil := hname
  hasHeader e he := absurd he (Option.not_mem_none e)
  nameLength_pos e he := absurd he (Option.not_mem_none e)
  stop_le_opened e he := absurd he (Option.not_mem_none e)
  stop_le_openEntry hne := absurd rfl hne

/-- A walk along the chain meets all definitions. -/
theorem addr_mem_trail {fs : List Definition} {f : Definition} (h : d.Chained fs) (hf : f ∈ fs) :
    f.addr ∈ trail fs := by
  induction h with
  | nil => cases hf
  | @cons g fs holds link above older ih =>
      rw [trail]
      rcases List.mem_cons.1 hf with rfl | hf
      · split
        · exact List.mem_singleton.2 rfl
        · exact List.mem_cons_self
      · rw [if_neg ((Chained.cons holds link above older).addr_ne_firstEntry hf)]
        exact List.mem_cons_of_mem _ (ih hf)

theorem Files.holds (h : d.Files fs opened) (hf : f ∈ fs) : d.Holds f.toDefinition :=
  h.chained.holds_of_mem (List.mem_map_of_mem hf)

theorem Files.keeps (h : d.Files fs opened) (hf : f ∈ fs) : d.Keeps f :=
  ⟨⟨_, chain?_of_chained h.chained h.latest_eq,
    addr_mem_trail h.chained (List.mem_map_of_mem hf)⟩, h.holds hf, h.code_eq f hf, h.stop_le f hf⟩

/-- The code of a finished definition is kept with its bytes. -/
theorem Files.bytesFrom_eq {top : Nat} (h : d.Files fs opened) (hf : f ∈ fs)
    (hd : d.AgreeOn d' 96 top) (htop : f.stop ≤ top) :
    d'.memory.bytesFrom f.body f.code.length = f.code := by
  have hle := (h.holds hf).hasHeader.le_entry
  have hlt := (h.holds hf).addr_lt_body
  have hend := h.stop_le f hf
  have hbound := d.here.toNat_lt
  rw [toNat_firstEntry] at hle
  rw [Finished.stop] at htop hend
  rw [hd.bytesFrom (by omega) htop (by omega), h.code_eq f hf]

/-- Finished definitions are kept with the bytes below the end of the last one. -/
theorem Files.of_agreeOn {top : Nat} (h : d.Files fs opened) (hd : d.AgreeOn d' 96 top)
    (htop : ∀ f ∈ fs, f.stop ≤ top) (hhere : ∀ f ∈ fs, f.stop ≤ d'.here.toNat)
    (hready : d'.Ready) (hlatest : d'.latest = d.latest) : d'.Files fs none := by
  refine files_none hready ?_ (hlatest.trans h.latest_eq)
    (fun f hf => h.bytesFrom_eq hf hd (htop f hf)) hhere h.name_ne_nil
  refine h.chained.of_agreeOn hd (Nat.le_refl _) (fun g hg => ?_) fun g hg => ?_
  · obtain ⟨f, hf, rfl⟩ := List.mem_map.1 hg
    exact Nat.le_trans (Nat.le_add_right _ _) (htop f hf)
  · obtain ⟨f, hf, rfl⟩ := List.mem_map.1 hg
    exact Nat.le_trans (Nat.le_add_right _ _) (hhere f hf)

theorem Files.forget (h : d.Files fs opened) : d.Files fs none :=
  files_none h.ready h.chained h.latest_eq h.code_eq h.stop_le h.name_ne_nil

theorem Files.of_extends (h : d.Files fs opened) (hd : d.Extends d') : d'.Files fs none :=
  h.of_agreeOn hd.agreeOn h.stop_le (fun f hf => Nat.le_trans (h.stop_le f hf) hd.here_le)
    (hd.ready h.ready) hd.latest_eq

/-- Finished definitions and the one that was begun are kept while others are added. -/
theorem Files.of_adds (h : d.Files fs opened) (hd : d.Adds d') : d'.Files fs opened := by
  have hext := hd.ext h.ready
  refine { h.of_extends hext with
    hasHeader := fun e he => hext.hasHeader (h.hasHeader e he)
    nameLength_pos := fun e he => ?_
    stop_le_opened := h.stop_le_opened
    stop_le_openEntry := fun hne f hf => ?_ }
  · rw [hext.readCell_entry (h.hasHeader e he)]
    exact h.nameLength_pos e he
  · rcases hd.openEntry_eq_or_le h.ready with heq | hle
    · rw [heq]
      exact h.stop_le_openEntry hne f hf
    · exact Nat.le_trans (h.stop_le f hf) hle

/-- A linked entry is a definition in front of the others. -/
theorem Ends.chained_finishedAt {fs : List Definition} (h : d.Ends d' entry)
    (hheader : d.HasHeader entry) (hc : d.Chained fs) (hlatest : d.latest = newestAddr fs)
    (habove : ∀ g ∈ fs, g.body.toNat ≤ entry.toNat) :
    d'.Chained ((d'.finishedAt entry).toDefinition :: fs) := by
  have hbefore : d.Holds ⟨entry, d.text (d.entryName entry), d.isImmediate entry,
      d.entryBody entry⟩ := ⟨hheader, rfl, rfl, rfl⟩
  have hafter := Ends.holds (f := ⟨entry, _, _, _⟩) h hbefore
  have hlinked := Ends.chained (f := ⟨entry, _, _, _⟩) h hbefore hc hlatest habove
  cases hlinked with
  | cons holds link above older => exact .cons ⟨hafter.hasHeader, rfl, rfl, rfl⟩ link above older

/-- A definition reaches up to `here` when it is finished. -/
theorem Holds.stop_finishedAt (h : d.Holds (d.finishedAt entry).toDefinition) :
    (d.finishedAt entry).stop = d.here.toNat := by
  have hbody : (d.entryBody entry).toNat ≤ d.here.toNat := h.body_le_here
  show (d.entryBody entry).toNat + (d.memory.bytesFrom _ _).length = _
  rw [Memory.length_bytesFrom]
  omega

/-- To link the definition that was begun is to file it in front of the others. -/
theorem files_of_ends (h : d.Files fs opened) (hheader : d.HasHeader entry)
    (hlength : 0 < (Header.nameLength (d.readCell entry)).toNat)
    (hstop : ∀ f ∈ fs, f.stop ≤ entry.toNat) (hd : d.Ends d' entry) :
    d'.Files (d'.finishedAt entry :: fs) none := by
  have hbelow := hd.agreeOn_below.mono (by decide : 6 ≤ 96) (Nat.le_refl _)
  have hchained : d'.Chained ((d'.finishedAt entry :: fs).map (·.toDefinition)) := by
    refine hd.chained_finishedAt hheader h.chained h.latest_eq fun g hg => ?_
    rcases List.mem_map.1 hg with ⟨f, hf, rfl⟩
    exact Nat.le_trans (Nat.le_add_right _ _) (hstop f hf)
  have hend := Holds.stop_finishedAt (hchained.holds_of_mem List.mem_cons_self)
  refine files_none (h.ready.of_here_eq hd.here_eq hd.capacity_eq) hchained hd.latest_eq
    (fun f hf => ?_) (fun f hf => ?_) fun f hf => ?_
  · rcases List.mem_cons.1 hf with rfl | hf
    · simp only [finishedAt, Memory.length_bytesFrom]
    · exact h.bytesFrom_eq hf hbelow (hstop f hf)
  · rcases List.mem_cons.1 hf with rfl | hf
    · exact Nat.le_of_eq hend
    · rw [hd.here_eq]
      exact h.stop_le f hf
  · rcases List.mem_cons.1 hf with rfl | hf
    · intro hnil
      have hzero := congrArg List.length hnil
      rw [finishedAt, text, Memory.length_bytesFrom, length_entryName, hd.nameLength_eq] at hzero
      exact absurd hzero (Nat.ne_of_gt hlength)
    · exact h.name_ne_nil f hf

/-- The finished definitions are in memory, or there is no memory for any. -/
def FilesOrNone (d : Dictionary) (fs : List Finished) (opened : Option Addr) : Prop :=
  d.Files fs opened ∨ d.capacity ≤ 96 ∧ fs = [] ∧ opened = none

theorem FilesOrNone.of_adds (h : d.FilesOrNone fs opened) (hd : d.Adds d') :
    d'.FilesOrNone fs opened := by
  rcases h with h | ⟨hcap, hfs, hopened⟩
  · exact Or.inl (h.of_adds hd)
  · exact Or.inr ⟨by rw [hd.capacity_eq]; exact hcap, hfs, hopened⟩

theorem FilesOrNone.forget (h : d.FilesOrNone fs opened) : d.FilesOrNone fs none := by
  rcases h with h | ⟨hcap, hfs, -⟩
  · exact Or.inl h.forget
  · exact Or.inr ⟨hcap, hfs, rfl⟩

theorem filesOrNone_ofCapacity (capacity : Nat) :
    (ofCapacity capacity).FilesOrNone [] none := by
  rw [ofCapacity]
  by_cases hcap : 96 < (⟨.flat (.zeros capacity)⟩ : Dictionary).capacity
  · obtain ⟨hfiled, -⟩ := filed_setUp hcap
    have hnone : ∀ {P : Finished → Prop}, ∀ f ∈ ([] : List Finished), P f :=
      fun f hf => absurd hf List.not_mem_nil
    exact Or.inl (files_none hfiled.ready hfiled.chained hfiled.latest_eq hnone hnone hnone)
  · refine Or.inr ⟨?_, rfl, rfl⟩
    rw [capacity_setUp]
    omega

theorem FilesOrNone.files (h : d.FilesOrNone fs opened) (hcap : 96 < d.capacity) :
    d.Files fs opened := by
  rcases h with h | ⟨hnone, -, -⟩
  · exact h
  · omega

theorem Ready.lt_capacity (h : d.Ready) : 96 < d.capacity := by
  have hle := h.le_here
  have hlt := h.here_lt
  rw [toNat_firstEntry] at hle
  omega

end Dictionary

namespace Machine

variable {H : Type} {hooks : Hooks H} {call : Interpreter H} {n : Nat} {m m' : Machine H}
  {f : Finished} {fs : List Finished} {opened : Option Addr}

/-- Words are compiled, while the entry that is said to be open lies below the end of a finished
definition. -/
def Stale (m : Machine H) (fs : List Finished) : Prop :=
  m.dictionary.compiling = true ∧ ∃ f ∈ fs, Layout.firstEntry ≤ m.dictionary.openEntry ∧
    m.dictionary.openEntry.toNat < f.stop

/-! ## Programs that only add -/

/-- A program adds to the dictionary at most. -/
abbrev OnlyAdds {α : Type} (x : MachineM H α) : Prop :=
  Relates (fun m m' => m.dictionary.Adds m'.dictionary) x

theorem onlyAdds_onData {α : Type} (x : StackM α) : OnlyAdds (onData x : MachineM H α) := by
  intro m
  simp only [onData]
  cases h : x m.data <;> exact .refl _

theorem OnlyAdds.bind {α β : Type} {x : MachineM H α} {g : α → MachineM H β} (hx : OnlyAdds x)
    (hg : ∀ a, OnlyAdds (g a)) : OnlyAdds (x >>= g) :=
  Relates.bind (fun h h' => h.trans h') hx hg

theorem onlyAdds_awaitWord (hrefill : QuietRefill hooks call) (n : Nat) :
    OnlyAdds (awaitWord hooks call n) :=
  fun m => (relates_awaitWord hrefill n m).dictionary.adds

/-- To begin a definition adds to the dictionary, however far it comes. -/
theorem onlyAdds_colon (hrefill : QuietRefill hooks call) (n : Nat) :
    OnlyAdds (colon hooks call n) := by
  intro m
  have hrest : OnlyAdds (do
      let name ← awaitWord hooks call n
      onDictionary (Dictionary.define name)
      setCompiling true : MachineM H Unit) := by
    refine .bind (onlyAdds_awaitWord hrefill n) fun name => ?_
    refine .bind (relates_onDictionary (Dictionary.relates_define name)) fun _ => ?_
    exact fun m => Dictionary.adds_setReserved _ .compiling _ (by decide) (by decide)
  cases halign : (onDictionary Dictionary.alignHere : MachineM H Addr) m with
  | error stop m1 =>
      have hcolon : colon hooks call n m = .error stop m1 := bind_eq_of_error halign _
      rw [hcolon]
      exact (relates_onDictionary Dictionary.relates_alignHere).of_eq_error halign
  | ok entry m1 =>
      have halign1 := (relates_onDictionary Dictionary.relates_alignHere).of_eq_ok halign
      obtain ⟨d1, hd1, rfl⟩ := exists_of_onDictionary_eq_ok halign
      obtain ⟨-, -, hentry, -⟩ := Dictionary.extends_of_alignHere hd1
      cases hpush : push entry.toInt16 { m with dictionary := d1 } with
      | error stop m2 =>
          have hcolon : colon hooks call n m = .error stop m2 :=
            (bind_eq_of_ok halign _).trans (bind_eq_of_error hpush _)
          rw [hcolon]
          exact halign1.trans ((onlyAdds_onData _).of_eq_error hpush)
      | ok u m2 =>
          -- the entry that is said to be open lies at `here`
          obtain ⟨data, -, rfl⟩ := of_push_eq_ok hpush
          have hopen : d1.Adds (d1.setReservedAddr .openEntry entry) :=
            Dictionary.adds_setOpenEntry (Nat.le_of_eq (congrArg UInt16.toNat hentry).symm)
          have hcolon : colon hooks call n m = _ :=
            (bind_eq_of_ok halign _).trans (bind_eq_of_ok hpush _)
          rw [hcolon]
          exact (halign1.trans hopen).trans
            (hrest ⟨d1.setReservedAddr .openEntry entry, data, m.returns, m.ip, m.host⟩)

theorem eq_of_link_eq_error {d d' : Dictionary} {entry : Addr} {e : Error}
    (h : Dictionary.link entry d = .error e d') : d' = d := by
  simp only [Dictionary.link] at h
  split at h
  · cases h
  · cases h
    rfl

/-- To end a definition adds to the dictionary if it fails. -/
theorem adds_of_semicolon_eq_error {stop : Stop} (h : semicolon m = .error stop m') :
    m.dictionary.Adds m'.dictionary := by
  -- what comes before the link only adds, and a link that fails changes nothing
  rcases of_bind_eq_error h with htop | ⟨entry, m1, htop, h1⟩
  · exact (onlyAdds_onData _).of_eq_error htop
  refine ((onlyAdds_onData _).of_eq_ok htop).trans ?_
  have happend : OnlyAdds (onDictionary (Dictionary.append Primitive.exit.token.toInt16) :
      MachineM H Unit) := relates_onDictionary (Dictionary.relates_append _)
  rcases of_bind_eq_error h1 with hm2 | ⟨u, m2, hm2, h2⟩
  · exact happend.of_eq_error hm2
  refine (happend.of_eq_ok hm2).trans ?_
  have hpop : OnlyAdds (discard pop : MachineM H PUnit) :=
    .bind (onlyAdds_onData _) fun _ m => .refl _
  rcases of_bind_eq_error h2 with hm3 | ⟨u, m3, hm3, h3⟩
  · exact hpop.of_eq_error hm3
  refine (hpop.of_eq_ok hm3).trans ?_
  rcases of_bind_eq_error h3 with hm4 | ⟨u, m4, hm4, h4⟩
  · cases hm4
  cases hm4
  have hset := Dictionary.adds_setReserved m3.dictionary .compiling 0 (by decide) (by decide)
  refine hset.trans ?_
  simp only [onDictionary] at h4
  split at h4
  · cases h4
  · rename_i e d hlink
    cases h4
    rw [eq_of_link_eq_error hlink]
    exact .refl _

/-- A number is added to the dictionary or pushed. -/
theorem onlyAdds_interpretLiteral (v : Cell) : OnlyAdds (interpretLiteral v : MachineM H Unit) := by
  intro m
  cases hcompiling : m.dictionary.compiling with
  | true =>
      rw [interpretLiteral_of_compiling hcompiling]
      exact relates_onDictionary (Dictionary.relates_forM_append _) m
  | false =>
      rw [interpretLiteral_of_not_compiling hcompiling]
      exact onlyAdds_onData _ m

theorem onlyAdds_setCompiling (on : Bool) : OnlyAdds (setCompiling on : MachineM H Unit) :=
  fun _ => Dictionary.adds_setReserved _ .compiling _ (by decide) (by decide)

/-! ## What the steps do to the finished definitions -/

/-- A definition that is begun lies above the finished ones. -/
theorem files_of_opens {entry : Addr} (h : m.dictionary.FilesOrNone fs opened)
    (ho : m.Opens m' entry) : m'.dictionary.Files fs (some entry) := by
  have hcap : 96 < m.dictionary.capacity := by
    rw [← ho.dict_extends.capacity_eq]
    exact ho.ready.lt_capacity
  have hentry := ho.toNat_entry
  have hstop : ∀ f ∈ fs, f.stop ≤ entry.toNat := fun f hf => by
    have hle := (h.files hcap).stop_le f hf
    omega
  refine { (h.files hcap).of_extends ho.dict_extends with
    hasHeader := fun e he => ?_
    nameLength_pos := fun e he => ?_
    stop_le_opened := fun e he f hf => ?_
    stop_le_openEntry := fun _ f hf => ?_ }
  · obtain rfl : entry = e := Option.mem_some_iff.1 he
    exact ho.hasHeader
  · obtain rfl : entry = e := Option.mem_some_iff.1 he
    exact ho.nameLength_pos
  · obtain rfl : entry = e := Option.mem_some_iff.1 he
    exact hstop f hf
  · rw [Dictionary.openEntry, ho.openEntry_eq]
    exact hstop f hf

/-- The definition that was begun is finished in front of the others. -/
theorem files_of_semicolon {entry : Addr} {data : Stack}
    (h : m.dictionary.Files fs (some entry)) (htop : m.data.pop? = some (entry.toInt16, data))
    (hends : semicolon m = .ok () m') :
    m'.dictionary.Files (m'.dictionary.finishedAt entry :: fs) none := by
  have hheader : ∀ e rest, m.data.pop? = some (e, rest) → m.dictionary.HasHeader e.toUInt16 := by
    intro e rest he
    obtain ⟨rfl, -⟩ := Prod.mk.inj (Option.some.inj (htop.symm.trans he))
    rw [UInt16.toUInt16_toInt16]
    exact h.hasHeader entry rfl
  obtain ⟨entry', hcloses⟩ := closes_of_semicolon_eq_ok h.ready hheader hends
  obtain ⟨hentry, -⟩ := Prod.mk.inj (Option.some.inj (htop.symm.trans hcloses.pop_eq))
  obtain rfl : entry' = entry := by
    rw [← UInt16.toUInt16_toInt16 entry', ← hentry, UInt16.toUInt16_toInt16]
  obtain ⟨d, hext, -, -, -, hlinks⟩ := hcloses.ends
  have hheader' := h.hasHeader entry' rfl
  refine Dictionary.files_of_ends (h.of_extends hext) (hext.hasHeader hheader') ?_
    (h.stop_le_opened entry' rfl) hlinks
  rw [hext.readCell_entry hheader']
  exact h.nameLength_pos entry' rfl

/-- Whether a reset moves `here` back. -/
def rewinds (m : Machine H) : Bool :=
  m.dictionary.compiling && decide (Layout.firstEntry ≤ m.dictionary.openEntry)
    && decide (m.dictionary.openEntry ≤ m.dictionary.here)

theorem dictionary_reset (m : Machine H) :
    m.reset.dictionary = (if m.rewinds then m.dictionary.setReservedAddr .here m.dictionary.openEntry
      else m.dictionary).setReserved .compiling 0 := rfl

theorem capacity_reset : m.reset.dictionary.capacity = m.dictionary.capacity := by
  rw [dictionary_reset, Dictionary.capacity_setReserved]
  split
  · exact Dictionary.capacity_setReservedAddr ..
  · rfl

theorem rewinds_eq_true : m.rewinds = true ↔ m.dictionary.compiling = true ∧
    Layout.firstEntry ≤ m.dictionary.openEntry ∧ m.dictionary.openEntry ≤ m.dictionary.here := by
  unfold rewinds
  rw [Bool.and_eq_true, Bool.and_eq_true, decide_eq_true_iff, decide_eq_true_iff,
    and_assoc]

theorem adds_reset_of_not_rewinds (h : m.rewinds = false) :
    m.dictionary.Adds m.reset.dictionary := by
  rw [dictionary_reset, h]
  exact Dictionary.adds_setReserved _ .compiling 0 (by decide) (by decide)

theorem here_reset_of_rewinds (hcap : 16 ≤ m.dictionary.capacity) (h : m.rewinds = true) :
    m.reset.dictionary.here = m.dictionary.openEntry := by
  rw [dictionary_reset, h, if_pos rfl, Dictionary.here_setReserved _ _ _ (by decide)]
  exact Dictionary.here_setReservedAddr _ _ hcap

/-- A reset that moves `here` back, but not into a finished definition, keeps all of them. -/
theorem files_reset_of_rewinds (h : m.dictionary.Files fs opened) (hrewinds : m.rewinds = true)
    (hfresh : ¬ m.Stale fs) : m.reset.dictionary.Files fs none := by
  obtain ⟨hcompiling, hfirst, hhere⟩ := rewinds_eq_true.1 hrewinds
  have hcap := h.ready.lt_capacity
  have hstop : ∀ f ∈ fs, f.stop ≤ m.dictionary.openEntry.toNat := by
    intro f hf
    exact Nat.le_of_not_lt fun hlt => hfresh ⟨hcompiling, f, hf, hfirst, hlt⟩
  have hmoved := here_reset_of_rewinds (by omega) hrewinds
  -- a reset writes reserved cells only
  have hagree : m.dictionary.AgreeOn m.reset.dictionary 96 65536 := by
    rw [dictionary_reset, hrewinds, if_pos rfl]
    have hmove := m.dictionary.agreeOn_setHere m.dictionary.openEntry
    refine (hmove.mono (by decide) (Nat.le_refl _)).trans ?_
    exact Dictionary.agreeOn_setReserved _ .compiling _ (Or.inl (by decide))
  have hready : m.reset.dictionary.Ready := by
    constructor
    · rw [hmoved]
      exact UInt16.le_iff_toNat_le.1 hfirst
    · rw [hmoved, capacity_reset]
      exact Nat.lt_of_le_of_lt (UInt16.le_iff_toNat_le.1 hhere) h.ready.here_lt
  refine h.of_agreeOn hagree (fun f hf => Nat.le_trans (hstop f hf) ?_) (fun f hf => ?_) hready ?_
  · exact Nat.le_of_lt (UInt16.toNat_lt _)
  · rw [hmoved]
    exact hstop f hf
  · rw [dictionary_reset, hrewinds, if_pos rfl, Dictionary.latest_setReserved _ _ _ (by decide)]
    exact Dictionary.latest_setReserved _ _ _ (by decide)

theorem filesOrNone_reset (h : m.dictionary.FilesOrNone fs opened) (hfresh : ¬ m.Stale fs) :
    m.reset.dictionary.FilesOrNone fs (if m.dictionary.compiling then none else opened) := by
  cases hrewinds : m.rewinds with
  | true =>
      obtain ⟨hcompiling, hfirst, hhere⟩ := rewinds_eq_true.1 hrewinds
      rw [if_pos hcompiling]
      rcases h with hfiles | ⟨hcap, hfs, -⟩
      · exact Or.inl (files_reset_of_rewinds hfiles hrewinds hfresh)
      · exact Or.inr ⟨Nat.le_trans (Nat.le_of_eq capacity_reset) hcap, hfs, rfl⟩
  | false =>
      have hkept := h.of_adds (adds_reset_of_not_rewinds hrewinds)
      split
      · exact hkept.forget
      · exact hkept

/-! ## Histories -/

variable (hooks call) in
/-- How a machine comes to have finished the definitions `fs`, newest first, and to have begun the
one at `opened`. Source text and stacks may change in any way between the steps. It may have been reset
before, but not so that a finished definition was destroyed. -/
inductive Builds : List Finished → Option Addr → Machine H → Prop
  | start (config : Config) (host : H) : Builds [] none (ofConfig config host)
  | quiet {fs : List Finished} {opened : Option Addr} {m m' : Machine H} (h : Builds fs opened m)
      (reads : m.dictionary.InputOnly m'.dictionary) : Builds fs opened m'
  | colon {fs : List Finished} {opened : Option Addr} {n : Nat} {m m' : Machine H}
      (h : Builds fs opened m) (begins : colon hooks call n m = .ok () m') :
      Builds fs (some m'.dictionary.openEntry) m'
  | colonFails {fs : List Finished} {opened : Option Addr} {n : Nat} {stop : Stop}
      {m m' : Machine H} (h : Builds fs opened m) (fails : colon hooks call n m = .error stop m') :
      Builds fs opened m'
  | number {fs : List Finished} {opened : Option Addr} {m : Machine H} (v : Cell)
      (h : Builds fs opened m) : Builds fs opened (lastState (interpretLiteral v m))
  | word {fs : List Finished} {opened : Option Addr} {m : Machine H} {name : Span} {xt : Addr}
      (n : Nat) (h : Builds fs opened m) (compiling : m.dictionary.compiling = true)
      (known : m.dictionary.meaning name = .known xt false) :
      Builds fs opened (lastState (interpretWord hooks call n name m))
  | semicolon {fs : List Finished} {entry : Addr} {m m' : Machine H} {data : Stack}
      (h : Builds fs (some entry) m) (top : m.data.pop? = some (entry.toInt16, data))
      (ends : semicolon m = .ok () m') : Builds (m'.dictionary.finishedAt entry :: fs) none m'
  | semicolonFails {fs : List Finished} {opened : Option Addr} {stop : Stop} {m m' : Machine H}
      (h : Builds fs opened m) (fails : semicolon m = .error stop m') : Builds fs opened m'
  | setCompiling {fs : List Finished} {opened : Option Addr} {m : Machine H} (on : Bool)
      (h : Builds fs opened m) : Builds fs opened (lastState (setCompiling on m))
  | reset {fs : List Finished} {opened : Option Addr} {m : Machine H} (h : Builds fs opened m)
      (fresh : ¬ m.Stale fs) :
      Builds fs (if m.dictionary.compiling then none else opened) m.reset

/-- Every history keeps the finished definitions in memory. -/
theorem filesOrNone_of_builds (hrefill : QuietRefill hooks call)
    (h : Builds hooks call fs opened m) : m.dictionary.FilesOrNone fs opened := by
  induction h with
  | start config host => exact Dictionary.filesOrNone_ofCapacity _
  | quiet h reads ih => exact ih.of_adds reads.adds
  | colon h begins ih =>
      obtain ⟨entry, hopens⟩ := opens_of_colon_eq_ok hrefill begins
      rw [Dictionary.openEntry, hopens.openEntry_eq]
      exact Or.inl (files_of_opens ih hopens)
  | @colonFails fs opened n stop m m' h fails ih =>
      exact ih.of_adds ((onlyAdds_colon hrefill n).of_eq_error fails)
  | number v h ih => exact ih.of_adds (onlyAdds_interpretLiteral v _)
  | word n h compiling known ih =>
      rw [interpretWord_of_compiling known compiling]
      exact ih.of_adds (relates_onDictionary (Dictionary.relates_forM_append _) _)
  | semicolon h top ends ih =>
      rcases ih with hfiles | ⟨-, -, hopened⟩
      · exact Or.inl (files_of_semicolon hfiles top ends)
      · cases hopened
  | semicolonFails h fails ih => exact ih.of_adds (adds_of_semicolon_eq_error fails)
  | setCompiling on h ih => exact ih.of_adds (onlyAdds_setCompiling on _)
  | @reset fs opened m h fresh ih => exact filesOrNone_reset ih fresh

/-! ## The main result -/

/-- A reset keeps all finished definitions, whatever is added after it, unless the machine is
stale, and while a definition is begun and not finished, it is not. -/
theorem keeps_reset_iff (hrefill : QuietRefill hooks call) (h : Builds hooks call fs opened m) :
    ((∀ f ∈ fs, ∀ d, m.reset.dictionary.Adds d → d.Keeps f) ↔ ¬ m.Stale fs) ∧
      (opened ≠ none → ¬ m.Stale fs) := by
  have hfiles := filesOrNone_of_builds hrefill h
  refine ⟨⟨?_, ?_⟩, ?_⟩
  -- without memory for definitions there are none, so each part is about the other case
  · rintro hkeeps ⟨hcompiling, f, hf, hfirst, hlt⟩
    rcases hfiles with hfiles | ⟨-, rfl, -⟩
    · -- the end of the definition would lie below the address that `here` goes back to
      have hcap := hfiles.ready.lt_capacity
      have hstop := hfiles.stop_le f hf
      have hle : m.dictionary.openEntry ≤ m.dictionary.here :=
        UInt16.le_iff_toNat_le.2 (by omega)
      have hmoved := here_reset_of_rewinds (by omega)
        (rewinds_eq_true.2 ⟨hcompiling, hfirst, hle⟩)
      have hbelow := (hkeeps f hf _ (.refl _)).stop_le
      rw [hmoved] at hbelow
      omega
    · cases hf
  · intro hfresh f hf d hd
    rcases (filesOrNone_reset hfiles hfresh).of_adds hd with hkept | ⟨-, rfl, -⟩
    · exact hkept.keeps hf
    · cases hf
  · rintro hopened ⟨-, f, hf, -, hlt⟩
    rcases hfiles with hfiles | ⟨-, -, rfl⟩
    · have hstop := hfiles.stop_le_openEntry hopened f hf
      omega
    · exact hopened rfl

/-- A small machine that has read the name of a definition. -/
def namedMachine : Machine Unit :=
  lastState (onDictionary (Dictionary.loadInput (Text.encode "a")) (ofConfig ⟨64, 64, 128⟩ ()))

/-- The machine while the number in the definition is compiled. -/
def begunMachine : Machine Unit :=
  lastState (interpretLiteral 1 (lastState (colon {} (interpreter {} 0) 1 namedMachine)))

/-- The machine with the definition. -/
def finishedMachine : Machine Unit := lastState (semicolon begunMachine)

/-- The definition, of which the code is a number and an exit. -/
def onlyDefinition : Finished := ⟨⟨96, [97], false, 100⟩, [38, 0, 25, 0]⟩

/-- Nothing fails, and the entry that was begun is the one that is finished. -/
theorem finishedMachine_eq :
    value? (colon {} (interpreter {} 0) 1 namedMachine) = some () ∧
      (lastState (colon {} (interpreter {} 0) 1 namedMachine)).dictionary.openEntry = 96 ∧
      begunMachine.data.pop?.map (·.1) = some 96 ∧ value? (semicolon begunMachine) = some () ∧
      finishedMachine.dictionary.finishedAt 96 = onlyDefinition ∧
      finishedMachine.dictionary.compiling = false ∧
      (lastState (setCompiling true finishedMachine)).dictionary.compiling = true ∧
      (lastState (setCompiling true finishedMachine)).dictionary.openEntry = 96 := by
  decide +kernel

theorem builds_finishedMachine :
    Builds {} (interpreter {} 0) [onlyDefinition] none finishedMachine := by
  obtain ⟨hcolon, hentry, htop, hsemicolon, hfinished, -⟩ := finishedMachine_eq
  have hread : Builds {} (interpreter {} 0) [] none namedMachine :=
    .quiet (.start ⟨64, 64, 128⟩ ()) (relates_onDictionary (Dictionary.relates_loadInput _) _)
  have hbegun := (hread.colon (eq_ok_lastState hcolon)).number 1
  rw [hentry] at hbegun
  obtain ⟨⟨v, data⟩, hpop, rfl⟩ := Option.map_eq_some_iff.1 htop
  have hends := hbegun.semicolon hpop (eq_ok_lastState hsemicolon)
  rw [← hfinished]
  exact hends

/-- After the only definition is finished, a reset keeps it. If words are compiled again before,
without a `:`, it is not kept. -/
theorem keeps_reset_finishedMachine :
    (∀ d, finishedMachine.reset.dictionary.Adds d → d.Keeps onlyDefinition) ∧
      ¬ ∀ f ∈ [onlyDefinition], ∀ d,
        (lastState (setCompiling true finishedMachine)).reset.dictionary.Adds d → d.Keeps f := by
  have hrefill : QuietRefill ({} : Hooks Unit) (interpreter {} 0) :=
    ⟨fun m => .refl m, fun m m' h => by cases h⟩
  obtain ⟨-, -, -, -, -, hcompiling, hcompiling', hopen⟩ := finishedMachine_eq
  refine ⟨fun d hd => ?_, fun hkeeps => ?_⟩
  · have hfresh : ¬ finishedMachine.Stale [onlyDefinition] := by
      rintro ⟨hstale, -⟩
      rw [hcompiling] at hstale
      cases hstale
    exact (keeps_reset_iff hrefill builds_finishedMachine).1.2 hfresh _ List.mem_cons_self d hd
  · refine (keeps_reset_iff hrefill (builds_finishedMachine.setCompiling true)).1.1 hkeeps ?_
    refine ⟨hcompiling', onlyDefinition, List.mem_cons_self, ?_, ?_⟩
    · rw [hopen]
      decide
    · rw [hopen]
      decide

end Machine

end ThreadedForth
