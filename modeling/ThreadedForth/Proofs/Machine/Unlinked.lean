import ThreadedForth.Proofs.Machine.Reset

/-!
# What is seen before it is linked

From the moment the reserved cells are set up, `Arises log m` follows a machine through any edits of
its dictionary and keeps a log of the links that succeeded. Room can be given back, operations can
fail half-way, and any address can be linked.

Nothing but a link moves the latest entry, so a walk along the chain meets linked entries and the
address where it begins in an empty dictionary, which is where the first definition goes. That
address is seen as an entry as soon as `here` has left it, unless it is said to be open while words
are compiled, whether it was linked or not. So before the first link the dictionary has one entry
under exactly this condition, and after it an unlinked entry can be seen nowhere else, as long as
the distances that were linked are still in the headers. The main result is
`entries?_find_of_arises`.
-/

set_option autoImplicit false

namespace ThreadedForth

/-- An entry that was linked, and how far back it then led. -/
structure Link where
  entry : Addr
  distance : Addr
deriving DecidableEq

namespace Dictionary

variable {d d' d'' : Dictionary} {a : Addr} {log : List Link}

/-! ## What leaves the latest entry alone -/

/-- The cell `latest` did not change. -/
structure Spares (d d' : Dictionary) : Prop where
  capacity_eq : d'.capacity = d.capacity
  agreeOn : d.AgreeOn d' 4 6

namespace Spares

theorem refl (d : Dictionary) : d.Spares d := ⟨rfl, .refl _ _ _⟩

theorem trans (h : d.Spares d') (h' : d'.Spares d'') : d.Spares d'' :=
  ⟨h'.capacity_eq.trans h.capacity_eq, h.agreeOn.trans h'.agreeOn⟩

theorem latest_eq (h : d.Spares d') : d'.latest = d.latest :=
  h.agreeOn.reservedAddr (Nat.le_refl _) (Nat.le_refl _)

end Spares

theorem InputOnly.spares (h : d.InputOnly d') : d.Spares d' :=
  ⟨h.capacity_eq, h.agreeOn_below.mono (Nat.zero_le _) (by decide)⟩

theorem Grows.spares (h : d.Grows d') (hle : 6 ≤ d.here.toNat) : d.Spares d' :=
  ⟨h.capacity_eq, h.agreeOn.mono (Nat.le_refl _) hle⟩

theorem spares_setReserved (d : Dictionary) {c : SystemCell} (v : Cell) (hc : c ≠ .latest) :
    d.Spares (d.setReserved c v) := by
  refine ⟨capacity_setReserved .., d.agreeOn_setReserved c v ?_⟩
  cases c <;> first | exact absurd rfl hc | decide

theorem spares_allot (amount : Cell) : Relates Spares (allot amount) := by
  refine .of_ok .refl eq_of_allot_eq_error fun {d _ _} h => ?_
  rw [(of_allot_eq_ok h).2.1]
  exact d.spares_setReserved _ (by decide)

/-- A cell is added no lower than two bytes below the first definition. -/
theorem spares_append (v : Cell) : Relates Spares (append v) := by
  refine .of_ok .refl eq_of_append_eq_error fun h => ?_
  rcases of_append_eq_ok h with ⟨hgrow, hready, hnum, -⟩
  have hle := hready.le_here
  rw [toNat_firstEntry] at hle
  exact hgrow.spares (by omega)

theorem spares_alignHere : Relates Spares alignHere :=
  relates_alignHere_of fun {amount} _ => spares_allot amount

/-- A name is short, so the room for it begins above the reserved cells. -/
theorem spares_of_allot_copyBytes {name : Span} {target : Addr} (hlen : name.length.toNat < 32)
    (h : allot name.length.toInt16 d = .ok target d') :
    d.Spares (d'.copyBytes name.start target name.length.toNat) := by
  have hroom := (of_allot_eq_ok h).2.2.1
  rw [toInt_toInt16 (by omega), toNat_firstEntry] at hroom
  exact (of_allot_copyBytes hlen h).1.spares (by omega)

theorem spares_define (name : Span) : Relates Spares (define name) :=
  relates_define_of .refl .trans (fun {amount} _ => spares_allot amount) spares_append
    spares_of_allot_copyBytes name

/-! ## Edits -/

/-- What is done to a dictionary besides linking entries. -/
inductive Edit where
  | allot (amount : Cell)
  | append (v : Cell)
  | alignHere
  | define (name : Span)

/-- Makes an edit. -/
def Edit.run : Edit → DictionaryM Unit
  | allot amount => discard (Dictionary.allot amount)
  | append v => Dictionary.append v
  | alignHere => discard Dictionary.alignHere
  | define name => Dictionary.define name

theorem spares_edit (e : Edit) : Relates Spares e.run := by
  cases e with
  | allot amount => exact (spares_allot amount).discard .refl .trans
  | append v => exact spares_append v
  | alignHere => exact spares_alignHere.discard .refl .trans
  | define name => exact spares_define name

/-! ## Walking along linked entries -/

/-- The address is that of a linked entry, or of the first definition. -/
def Known (log : List Link) (a : Addr) : Prop :=
  a = Layout.firstEntry ∨ ∃ l ∈ log, l.entry = a

/-- Every linked entry leads back to a known address that is not higher. -/
def Closed (log : List Link) : Prop :=
  ∀ l ∈ log, l.distance ≤ l.entry ∧ Known log (l.entry - l.distance)

/-- The headers of the linked entries still tell what was linked. -/
def KeepsLinks (d : Dictionary) (log : List Link) : Prop :=
  ∀ l ∈ log, d.linkDistance l.entry = l.distance

/-- From a known address a walk ends and meets known addresses only. -/
theorem exists_chainFrom?_of_known (hclosed : Closed log) (hkeeps : d.KeepsLinks log) {n : Nat}
    (ha : Known log a) (hn : a.toNat < n) :
    ∃ addrs, d.chainFrom? n a = some addrs ∧ ∀ b ∈ addrs, Known log b := by
  induction n generalizing a with
  | zero => omega
  | succ n ih =>
      rw [chainFrom?]
      by_cases hlow : a < Layout.firstEntry
      · exact ⟨[], if_pos hlow, by simp⟩
      · rw [if_neg hlow]
        cases holder : d.older? a with
        | none => exact ⟨[a], rfl, by simpa using ha⟩
        | some b =>
            -- the walk goes on to a lower address
            have hstep : Known log b ∧ b.toNat < a.toNat := by
              simp only [older?] at holder
              split at holder
              · cases holder
              · rename_i hgo
                cases holder
                rcases not_or.1 hgo with ⟨hfirst, hzero⟩
                rcases ha with hbegin | ⟨l, hl, rfl⟩
                · exact absurd hbegin hfirst
                · rcases hclosed l hl with ⟨hle, hknown⟩
                  rw [hkeeps l hl] at hzero ⊢
                  have hpos : l.distance.toNat ≠ 0 := fun h => hzero (UInt16.toNat_inj.1 h)
                  have hle' := UInt16.le_iff_toNat_le.1 hle
                  refine ⟨hknown, ?_⟩
                  rw [UInt16.toNat_sub_of_le _ _ hle]
                  omega
            rcases ih hstep.1 (by omega) with ⟨rest, hrest, hall⟩
            refine ⟨a :: rest, by simp only [hrest, Option.map_some], ?_⟩
            intro c hc
            rcases List.mem_cons.1 hc with rfl | hc
            · exact ha
            · exact hall c hc

/-! ## What is seen -/

/-- An entry at the first address would be seen: `here` has left it, and it is not said to be open
while words are compiled. -/
def ShowsFirst (d : Dictionary) : Prop :=
  d.here ≠ Layout.firstEntry ∧ ¬ (d.compiling = true ∧ d.openEntry = Layout.firstEntry)

instance (d : Dictionary) : Decidable d.ShowsFirst := inferInstanceAs (Decidable (_ ∧ _))

theorem isVisible_firstEntry_iff : d.isVisible Layout.firstEntry = true ↔ d.ShowsFirst := by
  cases hcompiling : d.compiling <;> simp [isVisible, ShowsFirst, hcompiling]

/-- The address was linked, or it is the first one and is seen nevertheless. -/
def Accounted (d : Dictionary) (log : List Link) (a : Addr) : Prop :=
  (∃ l ∈ log, l.entry = a) ∨ a = Layout.firstEntry ∧ d.ShowsFirst

theorem Known.accounted (h : Known log a) (hvisible : d.isVisible a = true) :
    d.Accounted log a := by
  rcases h with rfl | hlinked
  · exact Or.inr ⟨rfl, isVisible_firstEntry_iff.1 hvisible⟩
  · exact Or.inl hlinked

/-- As long as the headers tell what was linked, all that is seen is accounted for. -/
theorem exists_entries?_of_known (hclosed : Closed log) (hkeeps : d.KeepsLinks log)
    (hlatest : Known log d.latest) :
    ∃ es, d.entries? = some es ∧ (∀ e ∈ es, d.Accounted log e.addr) ∧
      ∀ word, d.find word ≠ .endless ∧ ∀ a, d.find word = .found a → d.Accounted log a := by
  rcases exists_chainFrom?_of_known (n := walkLimit) hclosed hkeeps hlatest d.latest.toNat_lt with
    ⟨addrs, hwalk, hall⟩
  have hchain : d.chain? = some addrs := hwalk
  refine ⟨_, by rw [entries?, hchain, Option.map_some], fun e he => ?_, fun word => ?_⟩
  · rcases List.mem_map.1 he with ⟨a, ha, rfl⟩
    rcases List.mem_filter.1 ha with ⟨hmem, hvisible⟩
    exact (hall a hmem).accounted hvisible
  · rw [find]
    by_cases hempty : word.isEmpty = true
    · simp [hempty]
    · rw [if_neg hempty, searchFrom_of_chainFrom? hwalk]
      cases hfound : addrs.find? (d.fits word) with
      | none => simp
      | some b =>
          have hfits := List.find?_some hfound
          rw [fits, Bool.and_eq_true] at hfits
          have hb := (hall b (List.mem_of_find?_eq_some hfound)).accounted hfits.2
          simpa using hb

/-- Below the first address there is no entry, and at it there is at most one. -/
theorem entries?_of_latest_le (h : d.latest ≤ Layout.firstEntry) :
    d.entries? = some (if d.latest = Layout.firstEntry ∧ d.ShowsFirst then
        [d.entryAt Layout.firstEntry] else []) ∧
      ∀ word, d.find word = if (d.latest = Layout.firstEntry ∧ d.ShowsFirst) ∧
          word.isEmpty = false ∧ d.sameText word (d.entryName Layout.firstEntry) = true then
        .found Layout.firstEntry else .absent := by
  have hchain : d.chainFrom? walkLimit d.latest =
      some (if d.latest = Layout.firstEntry then [Layout.firstEntry] else []) := by
    show d.chainFrom? (65535 + 1) d.latest = _
    rw [chainFrom?]
    by_cases hfirst : d.latest = Layout.firstEntry
    · rw [hfirst, if_neg (by decide), older?_firstEntry, if_pos rfl]
    · have hlow : d.latest < Layout.firstEntry := UInt16.lt_of_le_of_ne h hfirst
      rw [if_pos hlow, if_neg hfirst]
  constructor
  · rw [entries?, chain?, hchain]
    by_cases hfirst : d.latest = Layout.firstEntry
    · by_cases hshows : d.ShowsFirst
      · simp [hfirst, hshows, isVisible_firstEntry_iff.2 hshows]
      · have hhidden := mt isVisible_firstEntry_iff.1 hshows
        simp [hfirst, hshows, hhidden]
    · simp [hfirst]
  · intro word
    rw [find]
    by_cases hempty : word.isEmpty = true
    · simp [hempty]
    · rw [if_neg hempty, searchFrom_of_chainFrom? hchain]
      by_cases hfirst : d.latest = Layout.firstEntry
      · by_cases hshows : d.ShowsFirst
        · have hvisible := isVisible_firstEntry_iff.2 hshows
          cases hsame : d.sameText word (d.entryName Layout.firstEntry) <;>
            simp [hfirst, hshows, hempty, fits, hvisible, hsame]
        · have hhidden := mt isVisible_firstEntry_iff.1 hshows
          simp [hfirst, hshows, fits, hhidden]
      · simp [hfirst]

/-! ## Linking -/

/-- The newest linked entry. -/
def newestLink : List Link → Addr
  | [] => Layout.firstEntry
  | l :: _ => l.entry

/-- The log after an entry was linked, for the first time or again. -/
def relinked (log : List Link) (l : Link) : List Link := l :: log.filter (·.entry ≠ l.entry)

theorem Known.relinked (h : Known log a) (l : Link) : Known (relinked log l) a := by
  rcases h with hfirst | ⟨k, hk, rfl⟩
  · exact Or.inl hfirst
  · right
    by_cases heq : k.entry = l.entry
    · exact ⟨l, List.mem_cons_self, heq.symm⟩
    · exact ⟨k, List.mem_cons_of_mem _ (by simp [hk, heq]), rfl⟩

theorem known_newestLink (log : List Link) : Known log (newestLink log) := by
  cases log with
  | nil => exact Or.inl rfl
  | cons l log => exact Or.inr ⟨l, List.mem_cons_self, rfl⟩

/-- What is known of the log of links: the newest of them is the latest entry, if there is memory to
say so, and before the first link the latest entry is not above the first address. -/
structure Follows (d : Dictionary) (log : List Link) : Prop where
  latest_le : log = [] → d.latest ≤ Layout.firstEntry
  latest_eq : 6 ≤ d.capacity → d.latest = newestLink log
  closed : 6 ≤ d.capacity → Closed log

theorem Follows.of_spares (h : d.Follows log) (hd : d.Spares d') : d'.Follows log := by
  constructor
  · rw [hd.latest_eq]
    exact h.latest_le
  · rw [hd.latest_eq, hd.capacity_eq]
    exact h.latest_eq
  · rw [hd.capacity_eq]
    exact h.closed

/-- A linked entry leads back to the one that was the latest. -/
theorem Follows.of_link_eq_ok {entry : Addr} (h : d.Follows log)
    (hlink : link entry d = .ok () d') :
    d'.Follows (relinked log ⟨entry, entry - d.latest⟩) := by
  rcases Dictionary.of_link_eq_ok hlink with ⟨hd', hle, -⟩
  have hcap : d'.capacity = d.capacity := by
    rw [hd', capacity_setReservedAddr, capacity_writeDistance]
  constructor
  · intro hnil
    cases hnil
  · intro hroom
    rw [hcap] at hroom
    exact latest_of_link_eq_ok hroom hlink
  · intro hroom l hl
    rw [hcap] at hroom
    rcases List.mem_cons.1 hl with rfl | hl
    · have hdistance := UInt16.toNat_sub_of_le _ _ (UInt16.le_iff_toNat_le.2 hle)
      have hfar : entry - d.latest ≤ entry := by
        rw [UInt16.le_iff_toNat_le, hdistance]
        exact Nat.sub_le _ _
      have hback : entry - (entry - d.latest) = d.latest := by
        apply UInt16.toNat_inj.1
        rw [UInt16.toNat_sub_of_le _ _ hfar, hdistance]
        exact Nat.sub_sub_self hle
      refine ⟨hfar, ?_⟩
      rw [hback, h.latest_eq hroom]
      exact (known_newestLink log).relinked _
    · rcases h.closed hroom l (List.mem_filter.1 hl).1 with ⟨hback, hknown⟩
      exact ⟨hback, hknown.relinked _⟩

/-! ## Setting up -/

/-- However small the memory is, the latest entry is not set above the first address. -/
theorem latest_setLatest_le (d : Dictionary) :
    (d.setReservedAddr .latest Layout.firstEntry).latest ≤ Layout.firstEntry := by
  have hlow : (d.memory.writeCell 4 96).readByte 4 ≤ 96 := by
    rw [Memory.readByte_writeCell, if_neg fun h => absurd h.1 (by decide)]
    by_cases hroom : (4 : Addr).toNat < d.memory.capacity
    · rw [if_pos ⟨rfl, hroom⟩]
      decide
    · rw [if_neg fun h => hroom h.2, Memory.readByte_of_capacity_le (Nat.le_of_not_lt hroom)]
      decide
  have hhigh : (d.memory.writeCell 4 96).readByte 5 = 0 := by
    rw [Memory.readByte_writeCell]
    by_cases hroom : (5 : Addr).toNat < d.memory.capacity
    · rw [if_pos ⟨rfl, hroom⟩]
      decide
    · rw [if_neg fun h => hroom h.2, if_neg fun h => absurd h.1 (by decide),
        Memory.readByte_of_capacity_le (Nat.le_of_not_lt hroom)]
  have hread : (d.setReservedAddr .latest Layout.firstEntry).latest =
      (Cell.ofBytes ((d.memory.writeCell 4 96).readByte 4)
        ((d.memory.writeCell 4 96).readByte 5)).toUInt16 :=
    congrArg Int16.toUInt16 (Memory.readCell_eq _ _)
  rw [hread, hhigh, UInt16.le_iff_toNat_le, Cell.toNat_toUInt16_ofBytes]
  exact UInt8.le_iff_toNat_le.1 hlow

theorem follows_setLatest (d : Dictionary) :
    (d.setReservedAddr .latest Layout.firstEntry).Follows [] := by
  constructor
  · exact fun _ => d.latest_setLatest_le
  · intro hroom
    rw [capacity_setReservedAddr] at hroom
    have hread := d.readCell_writeCell (a := SystemCell.latest.addr) Layout.firstEntry.toInt16 hroom
    exact congrArg Int16.toUInt16 hread
  · intro _ l hl
    cases hl

theorem follows_setUp (d : Dictionary) : d.setUp.Follows [] := by
  -- the writes after the one to `latest` leave it alone
  have hlatest := follows_setLatest
    ((d.setReserved .base 10).setReservedAddr .here Layout.firstEntry)
  refine hlatest.of_spares ?_
  refine .trans (spares_setReserved _ (c := .compiling) 0 (by decide)) ?_
  refine .trans (spares_setReserved _ (c := .openEntry) 0 (by decide)) ?_
  refine .trans (spares_setReserved _ (c := .source) Layout.inputBuffer.toInt16 (by decide)) ?_
  refine .trans (spares_setReserved _ (c := .sourceLength) 0 (by decide)) ?_
  refine .trans (spares_setReserved _ (c := .cursor) 0 (by decide)) ?_
  exact ⟨capacity_writeCell .., agreeOn_writeCell _ 0 (by decide) (Or.inr (by decide))⟩

/-- Headers below `here` are kept by whatever only adds to the dictionary. -/
theorem KeepsLinks.of_extends (h : d.KeepsLinks log)
    (hbelow : ∀ l ∈ log, 96 ≤ l.entry.toNat ∧ l.entry.toNat + 4 ≤ d.here.toNat)
    (hd : d.Extends d') : d'.KeepsLinks log := by
  intro l hl
  rcases hbelow l hl with ⟨hlo, hhi⟩
  have hsize := Header.size_le (d.readCell l.entry)
  have htop := d.here.toNat_lt
  rw [hd.agreeOn.linkDistance hlo (by omega) (by omega)]
  exact h l hl

end Dictionary

namespace Machine

variable {H : Type} {hooks : Hooks H} {call : Interpreter H} {m m' : Machine H} {log : List Link}

/-! ## The steps of a machine -/

/-- A program leaves the latest entry alone. -/
abbrev OnlySpares {α : Type} (x : MachineM H α) : Prop :=
  Relates (fun m m' => m.dictionary.Spares m'.dictionary) x

theorem OnlySpares.bind {α β : Type} {x : MachineM H α} {g : α → MachineM H β} (hx : OnlySpares x)
    (hg : ∀ a, OnlySpares (g a)) : OnlySpares (x >>= g) :=
  Relates.bind (fun h h' => h.trans h') hx hg

theorem onlySpares_onData {α : Type} (x : StackM α) : OnlySpares (onData x : MachineM H α) := by
  intro m
  simp only [onData]
  cases h : x m.data <;> exact .refl _

theorem onlySpares_setCompiling (on : Bool) : OnlySpares (setCompiling on : MachineM H Unit) :=
  fun m => m.dictionary.spares_setReserved (c := .compiling) _ (by decide)

/-- To begin a definition links nothing, however far it comes. -/
theorem onlySpares_colon (hrefill : QuietRefill hooks call) (n : Nat) :
    OnlySpares (colon hooks call n) := by
  refine .bind (relates_onDictionary Dictionary.spares_alignHere) fun entry => ?_
  refine .bind (onlySpares_onData _) fun _ => ?_
  refine .bind (fun m => m.dictionary.spares_setReserved (c := .openEntry) _ (by decide))
    fun _ => ?_
  refine .bind (fun m => (relates_awaitWord hrefill n m).dictionary.spares) fun name => ?_
  refine .bind (relates_onDictionary (Dictionary.spares_define name)) fun _ => ?_
  exact onlySpares_setCompiling true

theorem spares_reset (m : Machine H) : m.dictionary.Spares m.reset.dictionary := by
  rw [dictionary_reset]
  split
  · exact (Dictionary.spares_setReserved _ (c := .here) _ (by decide)).trans
      (Dictionary.spares_setReserved _ (c := .compiling) _ (by decide))
  · exact Dictionary.spares_setReserved _ (c := .compiling) _ (by decide)

variable (hooks call) in
/-- How a machine comes to have linked the entries in `log`, newest first. It begins with a memory
of any size and contents, and between the steps source text is read and the stacks may change. -/
inductive Arises : List Link → Machine H → Prop
  | start (d : Dictionary) (data returns : Stack) (ip : Addr) (host : H) :
      Arises [] ⟨d.setUp, data, returns, ip, host⟩
  | quiet {log : List Link} {m m' : Machine H} (h : Arises log m)
      (reads : m.dictionary.InputOnly m'.dictionary) : Arises log m'
  | edit {log : List Link} {m : Machine H} (e : Dictionary.Edit) (h : Arises log m) :
      Arises log (lastState (onDictionary e.run m))
  | colon {log : List Link} {m : Machine H} (n : Nat) (h : Arises log m) :
      Arises log (lastState (colon hooks call n m))
  | setCompiling {log : List Link} {m : Machine H} (on : Bool) (h : Arises log m) :
      Arises log (lastState (setCompiling on m))
  | reset {log : List Link} {m : Machine H} (h : Arises log m) : Arises log m.reset
  | link {log : List Link} {m m' : Machine H} {entry : Addr} (h : Arises log m)
      (links : onDictionary (Dictionary.link entry) m = .ok () m') :
      Arises (Dictionary.relinked log ⟨entry, entry - m.dictionary.latest⟩) m'
  | linkFails {log : List Link} {m m' : Machine H} {entry : Addr} {stop : Stop} (h : Arises log m)
      (fails : onDictionary (Dictionary.link entry) m = .error stop m') : Arises log m'

/-- Every step keeps what is known of the log. -/
theorem follows_of_arises (hrefill : QuietRefill hooks call) (h : Arises hooks call log m) :
    m.dictionary.Follows log := by
  induction h with
  | start d data returns ip host => exact d.follows_setUp
  | quiet h reads ih => exact ih.of_spares reads.spares
  | edit e h ih => exact ih.of_spares (relates_onDictionary (Dictionary.spares_edit e) _)
  | colon n h ih => exact ih.of_spares (onlySpares_colon hrefill n _)
  | setCompiling on h ih => exact ih.of_spares (onlySpares_setCompiling on _)
  | reset h ih => exact ih.of_spares (spares_reset _)
  | link h links ih =>
      rcases exists_of_onDictionary_eq_ok links with ⟨d, hlink, rfl⟩
      exact ih.of_link_eq_ok hlink
  | linkFails h fails ih =>
      simp only [onDictionary] at fails
      split at fails
      · cases fails
      · rename_i e d hlink
        cases fails
        rw [eq_of_link_eq_error hlink]
        exact ih

/-! ## The main result -/

/-- Before the first link, the entry at the first address is seen, if the latest entry is set there
and shows, and no other. As long as the headers tell what was linked, all entries that are seen were
linked, the one at the first address excepted, and no search goes on for ever. -/
theorem entries?_find_of_arises (hrefill : QuietRefill hooks call) (h : Arises hooks call log m) :
    (log = [] →
        m.dictionary.entries? =
            some (if m.dictionary.latest = Layout.firstEntry ∧ m.dictionary.ShowsFirst then
              [m.dictionary.entryAt Layout.firstEntry] else []) ∧
          ∀ word, m.dictionary.find word =
            if (m.dictionary.latest = Layout.firstEntry ∧ m.dictionary.ShowsFirst) ∧
                word.isEmpty = false ∧
                m.dictionary.sameText word (m.dictionary.entryName Layout.firstEntry) = true then
              .found Layout.firstEntry else .absent) ∧
      (6 ≤ m.dictionary.capacity → m.dictionary.KeepsLinks log →
        ∃ es, m.dictionary.entries? = some es ∧
          (∀ e ∈ es, m.dictionary.Accounted log e.addr) ∧
          ∀ word, m.dictionary.find word ≠ .endless ∧
            ∀ a, m.dictionary.find word = .found a → m.dictionary.Accounted log a) := by
  have hfollows := follows_of_arises hrefill h
  constructor
  · intro hnone
    exact Dictionary.entries?_of_latest_le (hfollows.latest_le hnone)
  · intro hroom hkeeps
    refine Dictionary.exists_entries?_of_known (hfollows.closed hroom) hkeeps ?_
    rw [hfollows.latest_eq hroom]
    exact Dictionary.known_newestLink log

/-! ## A header -/

/-- A machine with a header for the name that it has read, and nothing linked. -/
def headerMachine : Machine Unit :=
  lastState (onDictionary (Dictionary.Edit.define ⟨16, 17⟩).run namedMachine)

/-- The machine after the header was linked. -/
def linkedMachine : Machine Unit := lastState (onDictionary (Dictionary.link 96) headerMachine)

/-- The machine after another header was written above the linked one. -/
def secondHeader : Machine Unit :=
  lastState (onDictionary (Dictionary.Edit.define ⟨16, 17⟩).run linkedMachine)

theorem arises_headerMachine : Arises {} (interpreter {} 0) [] headerMachine := by
  have hstart : Arises {} (interpreter {} 0) [] (ofConfig ⟨64, 64, 128⟩ ()) := .start _ _ _ _ _
  have hread : Arises {} (interpreter {} 0) [] namedMachine :=
    .quiet hstart (relates_onDictionary (Dictionary.relates_loadInput _) _)
  exact .edit (.define ⟨16, 17⟩) hread

/-- The header alone is seen as an entry and found by its name. After it was linked, the one above
it is not. -/
theorem entries?_find_headerMachine :
    headerMachine.dictionary.entries? = some [headerMachine.dictionary.entryAt 96] ∧
      headerMachine.dictionary.find ⟨16, 17⟩ = .found 96 ∧
      ∃ es, secondHeader.dictionary.entries? = some es ∧
        ∀ e ∈ es, secondHeader.dictionary.Accounted [⟨96, 0⟩] e.addr := by
  have hrefill : QuietRefill ({} : Hooks Unit) (interpreter {} 0) :=
    ⟨fun m => .refl m, fun m m' h => by cases h⟩
  have hfacts : headerMachine.dictionary.latest = 96 ∧ headerMachine.dictionary.ShowsFirst ∧
      headerMachine.dictionary.sameText ⟨16, 17⟩ (headerMachine.dictionary.entryName 96) = true ∧
      value? (onDictionary (Dictionary.link 96) headerMachine) = some () ∧
      linkedMachine.dictionary.linkDistance 96 = 0 ∧ linkedMachine.dictionary.Ready ∧
      linkedMachine.dictionary.here = 100 ∧ secondHeader.dictionary.capacity = 128 := by
    decide +kernel
  rcases hfacts with ⟨hlatest, hshows, hsame, hlink, hdistance, hready, hhere, hcap⟩
  rcases (entries?_find_of_arises hrefill arises_headerMachine).1 rfl with ⟨hentries, hfind⟩
  refine ⟨?_, ?_, ?_⟩
  · rw [hentries, if_pos ⟨hlatest, hshows⟩]
    rfl
  · rw [hfind, if_pos ⟨⟨hlatest, hshows⟩, by decide, hsame⟩]
    rfl
  · have hlinked := Arises.link arises_headerMachine (eq_ok_lastState hlink)
    rw [hlatest] at hlinked
    have hsecond : Arises {} (interpreter {} 0) [⟨96, 0⟩] secondHeader :=
      .edit (.define ⟨16, 17⟩) hlinked
    have hkeeps : linkedMachine.dictionary.KeepsLinks [⟨96, 0⟩] := by
      intro l hl
      obtain rfl := List.mem_singleton.1 hl
      exact hdistance
    have hadds := relates_onDictionary (Dictionary.relates_define ⟨16, 17⟩) linkedMachine
    have hkept := hkeeps.of_extends (fun l hl => by
      obtain rfl := List.mem_singleton.1 hl
      rw [hhere]
      decide) (hadds.ext hready)
    rcases (entries?_find_of_arises hrefill hsecond).2 (by rw [hcap]; decide) hkept with
      ⟨es, hes, hall, -⟩
    exact ⟨es, hes, hall⟩

end Machine

end ThreadedForth
