import ThreadedForth.Proofs.Dictionary.Chained
import ThreadedForth.Proofs.Dictionary.Code
import ThreadedForth.Proofs.Dictionary.Input

/-!
# The definitions that were made

A dictionary is built by making definitions, by taking room between them, and by marking the
newest definition as immediate. `Step.run` does one such step and keeps a log of what was made.
The main result is `entries?_find_of_runSteps`: after any run that begins with a definition, the
entries of the dictionary are the log, and a search finds the newest definition of the log that
has the name.

What carries the run is `Filed d fs`, which every step keeps (`filed_of_step`).
-/

set_option autoImplicit false

namespace ThreadedForth

/-! ## The immediate bit -/

namespace Header

/-- The first cell of a header, marked as immediate. -/
def withImmediate (info : Cell) : Cell := (info.toUInt16 ||| immediateBit).toInt16

theorem toNat_toUInt16_withImmediate (info : Cell) :
    (withImmediate info).toUInt16.toNat = info.toUInt16.toNat ||| 32 := by
  unfold withImmediate
  rw [UInt16.toUInt16_toInt16, UInt16.toNat_or]
  rfl

theorem nameLength_withImmediate (info : Cell) :
    nameLength (withImmediate info) = nameLength info := by
  apply UInt16.toNat_inj.1
  unfold nameLength
  rw [UInt16.toNat_mod, UInt16.toNat_mod, toNat_toUInt16_withImmediate]
  show (_ ||| 32) % 2 ^ 5 = _ % 32
  rw [Nat.or_mod_two_pow]
  exact Nat.or_zero _

theorem distance_withImmediate (info : Cell) :
    distance (withImmediate info) = distance info := by
  apply UInt16.toNat_inj.1
  unfold distance
  rw [UInt16.toNat_div, UInt16.toNat_div, toNat_toUInt16_withImmediate]
  show (_ ||| 32) / 2 ^ 6 = _ / 64
  rw [Nat.or_div_two_pow]
  exact Nat.or_zero _

theorem isLong_withImmediate (info : Cell) : isLong (withImmediate info) = isLong info := by
  unfold isLong
  rw [distance_withImmediate]

theorem isImmediate_withImmediate (info : Cell) : isImmediate (withImmediate info) = true := by
  have hodd : ((withImmediate info).toUInt16 / 32 % 2).toNat = 1 := by
    rw [UInt16.toNat_mod, UInt16.toNat_div, toNat_toUInt16_withImmediate]
    show (_ ||| 32) / 2 ^ 5 % 2 ^ 1 = 1
    rw [Nat.or_div_two_pow, Nat.or_mod_two_pow]
    have hlt : info.toUInt16.toNat / 2 ^ 5 % 2 ^ 1 < 2 := Nat.mod_lt _ (by decide)
    generalize info.toUInt16.toNat / 2 ^ 5 % 2 ^ 1 = bit at hlt ⊢
    match bit, hlt with
    | 0, _ => rfl
    | 1, _ => rfl
  unfold isImmediate
  rw [UInt16.toNat_inj.1 (hodd.trans UInt16.toNat_one.symm)]
  rfl

end Header

namespace Dictionary

variable {d d' : Dictionary} {f : Definition} {fs : List Definition}

/-- The dictionary with its latest entry marked as immediate. -/
def markLatest (d : Dictionary) : Dictionary :=
  d.writeCell d.latest (Header.withImmediate (d.readCell d.latest))

/-! ## Steps -/

/-- A name that can be given to a definition: it is read as one word and fits into a header. -/
structure Name where
  bytes : List UInt8
  ne_nil : bytes ≠ []
  length_le : bytes.length ≤ Header.maxNameLength
  isWordByte_of_mem : ∀ b ∈ bytes, isWordByte b = true

/-- Makes a definition with the cells of its body, and tells what was made. -/
def makeDefinition (name : Name) (body : List Cell) : DictionaryM Definition := do
  loadInput name.bytes
  let word ← fun d => .ok d.nextWord.1 d.nextWord.2
  let entry ← alignHere
  define word
  let begun ← get
  body.forM append
  link entry
  return ⟨entry, name.bytes, false, begun.here⟩

/-- One step of building a dictionary. -/
inductive Step where
  | definition (name : Name) (body : List Cell)
  /-- Takes room that is not filled. -/
  | allot (amount : Cell) (nonneg : 0 ≤ amount.toInt)
  /-- Adds a cell that belongs to no definition. -/
  | append (v : Cell)
  | markImmediate

/-- The log after the newest definition was marked. -/
def markNewest : List Definition → List Definition
  | [] => []
  | f :: fs => { f with immediate := true } :: fs

/-- Does a step and brings the log of the definitions, newest first, up to date. -/
def Step.run (log : List Definition) : Step → DictionaryM (List Definition)
  | definition name body => do return (← makeDefinition name body) :: log
  | allot amount _ => do
    discard (Dictionary.allot amount)
    return log
  | append v => do
    Dictionary.append v
    return log
  | markImmediate => do
    modify markLatest
    return markNewest log

/-- Does steps one after the other. -/
def runSteps (log : List Definition) (steps : List Step) : DictionaryM (List Definition) :=
  steps.foldlM Step.run log

/-! ## What a run keeps -/

/-- The dictionary holds the definitions and nothing is being compiled. -/
structure Filed (d : Dictionary) (fs : List Definition) : Prop where
  ready : d.Ready
  chained : d.Chained fs
  latest_eq : d.latest = newestAddr fs
  compiling_eq : d.compiling = false
  name_ne_nil : ∀ f ∈ fs, f.name ≠ []

theorem Filed.of_grows (h : d.Filed fs) (hd : d.Grows d') : d'.Filed fs :=
  ⟨hd.ready h.ready, hd.chained h.chained, (hd.latest_eq h.ready).trans h.latest_eq,
    (hd.compiling_eq h.ready).trans h.compiling_eq, h.name_ne_nil⟩

theorem Filed.of_inputOnly (h : d.Filed fs) (hd : d.InputOnly d') : d'.Filed fs := by
  have hbody : ∀ f ∈ fs, f.body.toNat ≤ d.here.toNat := fun f hf =>
    (h.chained.holds_of_mem hf).body_le_here
  refine ⟨hd.ready h.ready, ?_, hd.latest_eq.trans h.latest_eq,
    hd.compiling_eq.trans h.compiling_eq, h.name_ne_nil⟩
  refine h.chained.of_agreeOn hd.agreeOn_above (Nat.le_refl _) (fun f hf => ?_) fun f hf => ?_
  · exact Nat.le_of_lt f.body.toNat_lt
  · rw [hd.here_eq]
    exact hbody f hf

/-- To link a definition that is held is to file it in front of the others. -/
theorem Filed.of_ends (h : d.Filed fs) (hends : d.Ends d' f.addr) (hf : d.Holds f)
    (habove : ∀ g ∈ fs, g.body.toNat ≤ f.addr.toNat) (hname : f.name ≠ []) :
    d'.Filed (f :: fs) := by
  refine ⟨h.ready.of_here_eq hends.here_eq hends.capacity_eq,
    hends.chained hf h.chained h.latest_eq habove, hends.latest_eq,
    (hends.compiling_eq hf.hasHeader).trans h.compiling_eq, ?_⟩
  intro g hg
  rcases List.mem_cons.1 hg with rfl | hg
  · exact hname
  · exact h.name_ne_nil g hg

/-- A definition is made at the next even address and filed in front of the others. -/
theorem filed_of_makeDefinition {name : Name} {body : List Cell} (hd : d.Filed fs)
    (h : makeDefinition name body d = .ok f d') :
    d'.Filed (f :: fs) ∧ f.addr.toNat = d.here.toNat + d.here.toNat % 2 := by
  obtain ⟨_, d1, hload, h⟩ := exists_of_bind_eq_ok h
  obtain ⟨word, d2, hword, h⟩ := exists_of_bind_eq_ok h
  obtain ⟨entry, d3, halign, h⟩ := exists_of_bind_eq_ok h
  obtain ⟨_, d4, hdefine, h⟩ := exists_of_bind_eq_ok h
  obtain ⟨_, _, hget, h⟩ := exists_of_bind_eq_ok h
  cases hget
  obtain ⟨_, d5, hbody, h⟩ := exists_of_bind_eq_ok h
  obtain ⟨_, d6, hlink, hf⟩ := exists_of_bind_eq_ok h
  cases hf
  have hcap : 96 < d.capacity := by
    have hlt := hd.ready.here_lt
    have hle := hd.ready.le_here
    rw [toNat_firstEntry] at hle
    omega
  obtain ⟨hspan, htext⟩ := of_nextWord_of_loadInput hcap name.isWordByte_of_mem hload
  cases hword
  have hinput := (inputOnly_of_loadInput hload).trans (inputOnly_nextWord d1)
  have hfiled2 := hd.of_inputOnly hinput
  obtain ⟨rfl, hgrow3, hready3, hnum3, hagree3⟩ := of_alignHere_eq_ok halign
  have hfiled3 := hfiled2.of_grows hgrow3
  obtain ⟨entry, hbegins⟩ := exists_begins_of_define_eq_ok hdefine
  obtain rfl : entry = d3.here := by
    apply UInt16.toNat_inj.1
    rw [hbegins.toNat_entry]
    omega
  -- the name lies in the input buffer, below the new entry
  have hlen := name.length_le
  change name.bytes.length ≤ 31 at hlen
  have hstart : d1.nextWord.1.start.toNat = 16 := by rw [hspan]; rfl
  have hlength : d1.nextWord.1.length.toNat = name.bytes.length := by
    rw [hspan, Span.length_ofLength, UInt16.toNat_ofNat_of_lt' (by show _ < 65536; omega)]
  have hle3 := hready3.le_here
  rw [toNat_firstEntry] at hle3
  have htext3 : d3.text d1.nextWord.1 = name.bytes := by
    rw [← htext]
    exact hagree3.bytesFrom (by omega) (by omega) (by omega)
  have hholds4 := hbegins.holds (by omega) (by omega)
  rw [htext3] at hholds4
  have hfiled4 := hfiled3.of_grows hbegins.grows
  obtain ⟨hgrow5, -, -⟩ := of_forM_append_eq_ok hbegins.ready hbody
  have hholds5 := hgrow5.holds hholds4
  have hfiled5 := hfiled4.of_grows hgrow5
  have hends := ends_of_link_eq_ok hfiled5.ready hholds5.hasHeader hlink
  have habove : ∀ g ∈ fs, g.body.toNat ≤ d3.here.toNat := fun g hg =>
    (hfiled3.chained.holds_of_mem hg).body_le_here
  constructor
  · exact hfiled5.of_ends (f := ⟨d3.here, name.bytes, false, d4.here⟩) hends hholds5 habove
      name.ne_nil
  · rw [← hinput.here_eq]
    exact hnum3

/-- To mark the newest definition changes its immediate bit and nothing else. -/
theorem filed_markLatest (hd : d.Filed (f :: fs)) :
    d.markLatest.Filed ({ f with immediate := true } :: fs) := by
  have hholds := hd.chained.holds_of_mem List.mem_cons_self
  have hle := hholds.hasHeader.le_entry
  have hname := hholds.hasHeader.name_le
  have hbody := hholds.hasHeader.body_le
  have hsize := Header.size_le (d.readCell f.addr)
  have hlt := hd.ready.here_lt
  have hcap := d.capacity_le
  have hlatest : d.latest = f.addr := hd.latest_eq
  rw [toNat_firstEntry] at hle
  generalize hd' : d.markLatest = d'
  unfold markLatest at hd'
  rw [hlatest] at hd'
  -- all but the first cell of the header is as it was, and of that all but the one bit
  have hbelow : d.AgreeOn d' 0 f.addr.toNat := by
    rw [← hd']
    exact d.agreeOn_writeCell _ (by omega) (Or.inr (Nat.le_refl _))
  have habove : d.AgreeOn d' (f.addr.toNat + 2) 65536 := by
    rw [← hd']
    exact d.agreeOn_writeCell _ (by omega) (Or.inl (Nat.le_refl _))
  have hinfo : d'.readCell f.addr = Header.withImmediate (d.readCell f.addr) := by
    rw [← hd']
    exact d.readCell_writeCell _ (by omega)
  have hhere : d'.here = d.here :=
    hbelow.reservedAddr (c := .here) (Nat.zero_le _) (by show 4 ≤ _; omega)
  have hcap' : d'.capacity = d.capacity := by rw [← hd', capacity_writeCell]
  have hisLong : Header.isLong (d'.readCell f.addr) = Header.isLong (d.readCell f.addr) := by
    rw [hinfo, Header.isLong_withImmediate]
  have hkept := hholds.of_rewritten_header hhere hisLong
    (by rw [hinfo, Header.nameLength_withImmediate]) (habove.mono (by omega) (Nat.le_refl _))
  have himmediate : d'.isImmediate f.addr = true := by
    unfold isImmediate
    rw [hinfo, Header.isImmediate_withImmediate]
  rw [himmediate] at hkept
  have hdistance : d'.linkDistance f.addr = d.linkDistance f.addr :=
    linkDistance_eq_of_rewritten_header (by omega) hisLong
      (by rw [hinfo, Header.distance_withImmediate]) habove
  refine ⟨hd.ready.of_here_eq hhere hcap', ?_, ?_, ?_, ?_⟩
  · cases hd.chained with
    | cons holds link above older =>
        refine .cons hkept (by rw [hdistance, link]) above
          (older.of_agreeOn hbelow (Nat.zero_le _) above fun g hg => ?_)
        rw [hhere]
        exact (older.holds_of_mem hg).body_le_here
  · calc d'.latest
        = d.latest := hbelow.reservedAddr (c := .latest) (Nat.zero_le _) (by show 6 ≤ _; omega)
      _ = f.addr := hlatest
  · rw [← hd.compiling_eq, compiling, compiling,
      hbelow.reserved (Nat.zero_le _) (by show 8 ≤ f.addr.toNat; omega)]
  · intro g hg
    rcases List.mem_cons.1 hg with rfl | hg
    · exact hd.name_ne_nil f List.mem_cons_self
    · exact hd.name_ne_nil g (List.mem_cons_of_mem f hg)

theorem Rooted.ne_nil (h : Rooted fs) : fs ≠ [] := by
  rintro rfl
  rcases h with ⟨f, hlast, -⟩
  cases hlast

/-- The oldest definition stays where it is when the newest one is marked. -/
theorem Rooted.markNewest (h : Rooted fs) : Rooted (markNewest fs) := by
  rcases h with ⟨g, hlast, hg⟩
  cases fs with
  | nil => cases hlast
  | cons f fs =>
      cases fs with
      | nil =>
          obtain rfl : f = g := Option.some.inj hlast
          exact ⟨{ f with immediate := true }, rfl, hg⟩
      | cons e es => exact ⟨g, hlast, hg⟩

/-- Every step that succeeds keeps the log true. -/
theorem filed_of_step {step : Step} {log log' : List Definition} (hd : d.Filed log)
    (hroot : Rooted log) (h : step.run log d = .ok log' d') : d'.Filed log' ∧ Rooted log' := by
  cases step with
  | definition name body =>
      obtain ⟨f, d1, hmake, h⟩ := exists_of_bind_eq_ok h
      cases h
      exact ⟨(filed_of_makeDefinition hd hmake).1, hroot.cons f⟩
  | allot amount nonneg =>
      obtain ⟨_, d1, hallot, h⟩ := exists_of_bind_eq_ok h
      cases h
      obtain ⟨a, hallot⟩ := exists_of_discard_eq_ok hallot
      exact ⟨hd.of_grows (grows_of_allot hallot nonneg), hroot⟩
  | append v =>
      obtain ⟨_, d1, happend, h⟩ := exists_of_bind_eq_ok h
      cases h
      exact ⟨hd.of_grows (of_append_eq_ok happend).1, hroot⟩
  | markImmediate =>
      obtain ⟨_, d1, hmark, h⟩ := exists_of_bind_eq_ok h
      cases hmark
      cases h
      cases log with
      | nil => exact absurd rfl hroot.ne_nil
      | cons f fs => exact ⟨filed_markLatest hd, hroot.markNewest⟩

theorem filed_of_runSteps {steps : List Step} {log log' : List Definition} (hd : d.Filed log)
    (hroot : Rooted log) (h : runSteps log steps d = .ok log' d') :
    d'.Filed log' ∧ Rooted log' := by
  induction steps generalizing d log with
  | nil =>
      cases h
      exact ⟨hd, hroot⟩
  | cons step steps ih =>
      obtain ⟨log1, d1, hstep, hrest⟩ := exists_of_bind_eq_ok h
      obtain ⟨hd1, hroot1⟩ := filed_of_step hd hroot hstep
      exact ih hd1 hroot1 hrest

/-! ## The beginning of a run -/

@[simp] theorem capacity_setUp (d : Dictionary) : d.setUp.capacity = d.capacity := by
  simp only [setUp, capacity_writeCell, capacity_setReserved, capacity_setReservedAddr]

/-- The reserved cells of a dictionary that was made ready. -/
theorem reserved_setUp (hcap : 16 ≤ d.capacity) :
    d.setUp.reserved .here = Layout.firstEntry.toInt16 ∧
      d.setUp.reserved .latest = Layout.firstEntry.toInt16 ∧ d.setUp.reserved .compiling = 0 ∧
      d.setUp.reserved .openEntry = 0 ∧
      d.setUp.reserved .source = Layout.inputBuffer.toInt16 ∧
      d.setUp.reserved .sourceLength = 0 ∧ d.setUp.reserved .cursor = 0 := by
  simp only [setUp, setReservedAddr]
  -- of the writes after the one to the cell, none is to the cell
  refine ⟨?_, ?_, ?_, ?_, ?_, ?_, ?_⟩ <;> rw [reserved_writeCell _ _ _ (by decide) (by decide)]
  · iterate 6 rw [reserved_setReserved_of_ne _ _ (by decide)]
    exact reserved_setReserved _ _ _ (by simp only [capacity_setReserved]; omega)
  · iterate 5 rw [reserved_setReserved_of_ne _ _ (by decide)]
    exact reserved_setReserved _ _ _ (by simp only [capacity_setReserved]; omega)
  · iterate 4 rw [reserved_setReserved_of_ne _ _ (by decide)]
    exact reserved_setReserved _ _ _ (by simp only [capacity_setReserved]; omega)
  · iterate 3 rw [reserved_setReserved_of_ne _ _ (by decide)]
    exact reserved_setReserved _ _ _ (by simp only [capacity_setReserved]; omega)
  · iterate 2 rw [reserved_setReserved_of_ne _ _ (by decide)]
    exact reserved_setReserved _ _ _ (by simp only [capacity_setReserved]; omega)
  · rw [reserved_setReserved_of_ne _ _ (by decide)]
    exact reserved_setReserved _ _ _ (by simp only [capacity_setReserved]; omega)
  · exact reserved_setReserved _ _ _ (by simp only [capacity_setReserved]; omega)

/-- A dictionary that was made ready has no definitions. -/
theorem filed_setUp (hcap : 96 < d.capacity) :
    d.setUp.Filed [] ∧ d.setUp.here = Layout.firstEntry := by
  obtain ⟨hhere, hlatest, hcompiling, -⟩ := reserved_setUp (d := d) (by omega)
  have hhere' : d.setUp.here = Layout.firstEntry := by
    rw [here, reservedAddr, hhere, UInt16.toUInt16_toInt16]
  refine ⟨⟨⟨?_, ?_⟩, .nil, ?_, ?_, fun f hf => absurd hf List.not_mem_nil⟩, hhere'⟩
  · exact Nat.le_of_eq (congrArg UInt16.toNat hhere').symm
  · rw [hhere', capacity_setUp]
    exact hcap
  · rw [latest, reservedAddr, hlatest, UInt16.toUInt16_toInt16]
    rfl
  · unfold compiling
    rw [hcompiling]
    rfl

/-- No definition can be made where there is no memory for one. -/
theorem capacity_of_makeDefinition {name : Name} {body : List Cell}
    (h : makeDefinition name body d = .ok f d') : 96 < d.capacity := by
  obtain ⟨_, d1, hload, h⟩ := exists_of_bind_eq_ok h
  obtain ⟨word, d2, hword, h⟩ := exists_of_bind_eq_ok h
  cases hword
  obtain ⟨entry, d3, halign, -⟩ := exists_of_bind_eq_ok h
  obtain ⟨-, hgrow, hready, -, -⟩ := of_alignHere_eq_ok halign
  have hlt := hready.here_lt
  have hle := hready.le_here
  rw [hgrow.capacity_eq, ((inputOnly_of_loadInput hload).trans (inputOnly_nextWord d1)).capacity_eq]
    at hlt
  rw [toNat_firstEntry] at hle
  omega

/-! ## The main result -/

/-- Outside of compilation all definitions are seen. -/
theorem Filed.isVisible (h : d.Filed fs) (hf : f ∈ fs) : d.isVisible f.addr = true := by
  have hholds := h.chained.holds_of_mem hf
  have hle := hholds.hasHeader.le_entry
  have hlt := hholds.addr_lt_body
  have hbody := hholds.body_le_here
  have hhere : d.here ≠ Layout.firstEntry := fun heq => by rw [heq] at hbody; omega
  rw [Dictionary.isVisible, h.compiling_eq, bne_iff_ne.2 hhere]
  rfl

/-- After a run that begins with a definition the entries are the definitions that were made,
newest first, and a search finds the newest one with the name, whatever the case of its letters.
Nothing has the empty name. -/
theorem entries?_find_of_runSteps {name : Name} {body : List Cell} {steps : List Step}
    {log : List Definition} (h : runSteps [] (.definition name body :: steps) d.setUp = .ok log d') :
    d'.entries?.map (·.map fun e => (⟨e.addr, d'.text e.name, e.immediate, e.body⟩ : Definition)) =
        some log ∧
      (∀ word : Span, d'.find word =
        match log.find? fun f => Text.same (d'.text word) f.name with
        | some f => .found f.addr
        | none => .absent) ∧
      ∀ word : Span, word.isEmpty = true → d'.find word = .absent := by
  obtain ⟨log1, d1, hfirst, hrest⟩ := exists_of_bind_eq_ok h
  obtain ⟨f, d1', hmake, hlog⟩ := exists_of_bind_eq_ok hfirst
  cases hlog
  have hcap := capacity_of_makeDefinition hmake
  rw [capacity_setUp] at hcap
  obtain ⟨hfiled, hhere⟩ := filed_setUp hcap
  obtain ⟨hfiled1, haddr⟩ := filed_of_makeDefinition hfiled hmake
  have hroot : Rooted [f] := by
    refine ⟨f, rfl, UInt16.toNat_inj.1 ?_⟩
    rw [haddr, hhere]
    rfl
  obtain ⟨hfiled', hroot'⟩ := filed_of_runSteps hfiled1 hroot hrest
  have hvisible : ∀ f ∈ log, d'.isVisible f.addr = true := fun f hf => hfiled'.isVisible hf
  refine ⟨?_, fun word => ?_, fun word hempty => ?_⟩
  · rw [entries?_of_chained hfiled'.chained hfiled'.latest_eq hroot' hvisible, Option.map_some,
      List.map_map]
    refine congrArg some ((List.map_congr_left fun f hf => ?_).trans (List.map_id' log))
    have hholds := hfiled'.chained.holds_of_mem hf
    simp only [Function.comp_apply, entryAt, hholds.text_eq, hholds.isImmediate_eq,
      hholds.entryBody_eq]
  · exact find_of_chained hfiled'.chained hfiled'.latest_eq hroot' hvisible hfiled'.name_ne_nil word
  · rw [find, if_pos hempty]

/-- A definition far behind the one before, of the same name but for the case and marked as
immediate, and a third one after a cell that belongs to neither. -/
def threeDefinitions : List Step :=
  [.definition ⟨[115, 113], by decide, by decide, List.all_eq_true.1 (by decide)⟩ [2, 8, 25],
    .allot 1100 (by decide),
    .definition ⟨[83, 81], by decide, by decide, List.all_eq_true.1 (by decide)⟩ [],
    .markImmediate,
    .append 7,
    .definition ⟨[97], by decide, by decide, List.all_eq_true.1 (by decide)⟩ [1]]

theorem entries?_find_threeDefinitions : ∃ log d',
    runSteps [] threeDefinitions (setUp ⟨.sparse (.zeros 2048)⟩) = .ok log d' ∧
      log = [⟨1214, [97], false, 1218⟩, ⟨1206, [83, 81], true, 1212⟩, ⟨96, [115, 113], false, 100⟩] ∧
      d'.entries?.map
        (·.map fun e => (⟨e.addr, d'.text e.name, e.immediate, e.body⟩ : Definition)) = some log ∧
      ∀ word : Span, d'.text word = [83, 113] → d'.find word = .found 1206 := by
  have hvalue : value? (runSteps [] threeDefinitions (setUp ⟨.sparse (.zeros 2048)⟩)) =
      some [⟨1214, [97], false, 1218⟩, ⟨1206, [83, 81], true, 1212⟩, ⟨96, [115, 113], false, 100⟩] := by
    decide +kernel
  obtain ⟨d', hrun⟩ := exists_of_value?_eq_some hvalue
  obtain ⟨hentries, hfind, -⟩ := entries?_find_of_runSteps hrun
  refine ⟨_, d', hrun, rfl, hentries, fun word hword => ?_⟩
  rw [hfind, hword]
  rfl

end Dictionary

end ThreadedForth
