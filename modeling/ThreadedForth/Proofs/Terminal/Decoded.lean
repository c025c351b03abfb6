import ThreadedForth.Proofs.Dictionary.InProgress
import ThreadedForth.Proofs.Machine.Compile
import ThreadedForth.Proofs.Dictionary.Linking
import ThreadedForth.Proofs.Terminal.Tiled

/-!
# What was compiled is listed

Words are defined one after the other in a new dictionary, each from numbers, primitives and words
before it (`Composes`). A definition adds its code to the room that the ones before it fill
(`tiled_of_defines`), so the definitions tile the dictionary after any such history
(`tiled_of_composes`), and the list of words tells what they were compiled from:
`listing?_of_composes`.
-/

set_option autoImplicit false

namespace ThreadedForth

open Dictionary

/-! ## A definition that gets its code -/

namespace Dictionary

variable {d d' d'' : Dictionary} {fs : List Definition} {vs ws : List Cell} {name : Span} {body : Addr}
  {immediate : Bool}

theorem Added.trans (h : d.Added d' vs) (h' : d'.Added d'' ws) (hd : d.Ready) : d.Added d'' (vs ++ ws) := by
  have hnum : d'.here.toNat = d.here.toNat + 2 * vs.length := by rw [h.here_eq, toNat_after h.fits]
  have hfits := h'.fits
  refine ⟨h.continues.trans h'.continues, ?_, ?_, cellsAt_append.2 ⟨?_, ?_⟩⟩
  · rw [List.length_append]
    omega
  · rw [after_append, ← h.here_eq, h'.here_eq]
  · exact h.cellsAt.of_agreeOn h'.continues.ext.agreeOn hd.le_here (Nat.le_of_eq hnum.symm) h.fits
  · rw [← h.here_eq]
    exact h'.cellsAt

theorem Extends.holds {f : Definition} (h : d.Extends d') (hf : d.Holds f) : d'.Holds f :=
  hf.of_agreeOn h.agreeOn hf.hasHeader.le_entry hf.body_le_here (Nat.le_trans hf.body_le_here h.here_le)

/-- One more definition is compiled above the others, which are seen. -/
structure Extending (d : Dictionary) (fs : List Definition) : Prop where
  ready : d.Ready
  compiling_eq : d.compiling = true
  chained : d.Chained fs
  latest_eq : d.latest = newestAddr fs
  rooted : fs ≠ [] → Rooted fs
  /-- The first definition is compiled where it is not seen. -/
  first : fs = [] → d.openEntry = Layout.firstEntry

namespace Extending

theorem of_continues (h : d.Extending fs) (hd : d.Continues d') : d'.Extending fs where
  ready := hd.ext.ready h.ready
  compiling_eq := hd.compiling_eq.trans h.compiling_eq
  chained := hd.ext.chained h.chained
  latest_eq := hd.ext.latest_eq.trans h.latest_eq
  rooted := h.rooted
  first hnil := (hd.agreeOn.reservedAddr (by decide) (by decide)).trans (h.first hnil)

/-- A search that finds something finds a definition. -/
theorem exists_of_find_eq_found {a : Addr} (h : d.Extending fs) (hfind : d.find name = .found a) :
    ∃ f ∈ fs, f.addr = a := by
  have hchain := chain?_of_chained h.chained h.latest_eq
  rw [find] at hfind
  split at hfind
  · cases hfind
  rw [searchFrom_of_chainFrom? hchain] at hfind
  split at hfind
  · rename_i b hb
    cases hfind
    have hfits := List.find?_some hb
    rcases eq_firstEntry_or_of_mem_trail (List.mem_of_find?_eq_some hb) with rfl | hmem
    · by_cases hnil : fs = []
      · -- where the first definition goes the one that is compiled lies
        have hopen : d.reservedAddr .openEntry = Layout.firstEntry := h.first hnil
        rw [fits, isVisible, h.compiling_eq, hopen] at hfits
        simp at hfits
      · obtain ⟨f, hlast, hf⟩ := h.rooted hnil
        exact ⟨f, List.mem_of_getLast? hlast, hf⟩
    · exact hmem
  · cases hfind

/-- A name with the meaning of an address from the first one on is that of a definition. -/
theorem exists_of_meaning_eq (h : d.Extending fs) (hmeaning : d.meaning name = .known body immediate)
    (hle : Layout.firstEntry ≤ body) : ∃ f ∈ fs, f.body = body := by
  unfold meaning at hmeaning
  cases hfind : d.find name with
  | found a =>
      rw [hfind] at hmeaning
      cases hmeaning
      obtain ⟨f, hf, rfl⟩ := h.exists_of_find_eq_found hfind
      exact ⟨f, hf, (h.chained.holds_of_mem hf).entryBody_eq.symm⟩
  | endless =>
      rw [hfind] at hmeaning
      cases hmeaning
  | absent =>
      simp only [hfind] at hmeaning
      split at hmeaning
      · rename_i p hp
        cases hmeaning
        have hdecode := (Machine.decode_token p).symm.trans (Machine.decode_of_le hle)
        cases hdecode
      · cases hmeaning

end Extending

end Dictionary

namespace Machine

variable {H : Type} {hooks : Hooks H} {call : Interpreter H} {n : Nat} {m m' m₀ : Machine H} {d : Dictionary}
  {w : Written} {t : Token} {ts : List Token} {bodies : List (List Token)} {cs : List Compiled}
  {fs : List Definition}

/-- What is written stands for a token of its own. -/
inductive Writes (d : Dictionary) : Written → Token → Prop
  | number (v : Cell) : Writes d (.number v) (.literal v)
  | numeral {s : Span} {v : Cell} (unknown : d.meaning s = .unknown)
      (read : Numeral.read? d.base (d.text s) = some v) : Writes d (.name s) (.literal v)
  | primitive {s : Span} {p : Primitive} (known : d.meaning s = .known p.token false)
      (plain : p.takesOperand = false) : Writes d (.name s) (.primitive p)
  | call {s : Span} {body : Addr} (known : d.meaning s = .known body false)
      (defined : Layout.firstEntry ≤ body) : Writes d (.name s) (.call body)

instance (d : Dictionary) : ∀ (w : Written) (t : Token), Decidable (Writes d w t)
  | .number v, .literal v' =>
    decidable_of_iff (v = v') ⟨fun h => h ▸ .number v, fun h => by cases h; rfl⟩
  | .name s, .literal v =>
    decidable_of_iff (d.meaning s = .unknown ∧ Numeral.read? d.base (d.text s) = some v)
      ⟨fun h => .numeral h.1 h.2, fun h => by cases h with | numeral h h' => exact ⟨h, h'⟩⟩
  | .name s, .primitive p =>
    decidable_of_iff (d.meaning s = .known p.token false ∧ p.takesOperand = false)
      ⟨fun h => .primitive h.1 h.2, fun h => by cases h with | primitive h h' => exact ⟨h, h'⟩⟩
  | .name s, .call body =>
    decidable_of_iff (d.meaning s = .known body false ∧ Layout.firstEntry ≤ body)
      ⟨fun h => .call h.1 h.2, fun h => by cases h with | call h h' => exact ⟨h, h'⟩⟩
  | .number _, .primitive _ => isFalse nofun
  | .number _, .call _ => isFalse nofun

theorem Writes.plain (h : Writes d w t) : t.Plain := by
  cases h with
  | number v => trivial
  | numeral unknown read => trivial
  | primitive known plain => exact plain
  | call known defined => exact defined

/-- While a definition is compiled, the cells of a token are added. -/
theorem interpretWritten_of_writes (h : Writes m.dictionary w t) (hcompiling : m.dictionary.compiling = true) :
    interpretWritten hooks call n w m = onDictionary (t.cells.forM append) m := by
  cases h with
  | number v => exact interpretLiteral_of_compiling hcompiling v
  | @numeral s v unknown read =>
      calc interpretWord hooks call n s m
          = interpretLiteral v m := interpretWord_eq_interpretLiteral unknown read
        _ = onDictionary ((literalCells v).forM append) m := interpretLiteral_of_compiling hcompiling v
  | primitive known plain => exact interpretWord_of_compiling known hcompiling
  | call known defined => exact interpretWord_of_compiling known hcompiling

/-- To compile tokens adds their cells, and nothing else happens. What they call was defined before. -/
theorem added_of_compiles (h : Compiles hooks call Writes ts m m') (hd : m.dictionary.Extending fs) :
    m.dictionary.Added m'.dictionary (ts.flatMap Token.cells) ∧
      (m'.data = m.data ∧ m'.returns = m.returns ∧ m'.ip = m.ip) ∧ (∀ t ∈ ts, t.Plain) ∧
      ∀ body, Token.call body ∈ ts → ∃ f ∈ fs, f.body = body := by
  induction h with
  | @nil m m' reads =>
      have htop := m.dictionary.here.toNat_lt
      exact ⟨⟨reads.dictionary.continues hd.ready, htop, reads.dictionary.here_eq, trivial⟩,
        ⟨reads.data_eq, reads.returns_eq, reads.ip_eq⟩, nofun, nofun⟩
  | @cons n w t ts m m1 m2 m' reads writes interprets rest ih =>
      have hd1 := hd.of_continues (reads.dictionary.continues hd.ready)
      rw [interpretWritten_of_writes writes hd1.compiling_eq] at interprets
      obtain ⟨d2, hcells, rfl⟩ := exists_of_onDictionary_eq_ok interprets
      have hfirst := (added_of_forM_append hd1.ready hcells).of_inputOnly hd.ready reads.dictionary
      obtain ⟨hrest, ⟨hdata, hreturns, hip⟩, hplain, hcalls⟩ := ih (hd.of_continues hfirst.continues)
      refine ⟨hfirst.trans hrest hd.ready,
        ⟨hdata.trans reads.data_eq, hreturns.trans reads.returns_eq, hip.trans reads.ip_eq⟩,
        List.forall_mem_cons.2 ⟨writes.plain, hplain⟩, fun body hbody => ?_⟩
      rcases List.mem_cons.1 hbody with heq | hmem
      · subst heq
        cases writes with
        | call known defined => exact hd1.exists_of_meaning_eq known defined
      · exact hcalls body hmem

/-! ## A finished definition -/

theorem Opens.extending (h : m.Opens m' m.dictionary.here) (htiled : m.dictionary.Tiled cs) :
    m'.dictionary.Extending (definitionsOf cs) where
  ready := h.ready
  compiling_eq := h.compiling_eq
  chained := h.dict_extends.chained htiled.filed.chained
  latest_eq := h.dict_extends.latest_eq.trans htiled.filed.latest_eq
  rooted hne := htiled.tiles.rooted fun hnil => hne (by rw [hnil]; rfl)
  first hnil := by
    obtain rfl : cs = [] := List.map_eq_nil_iff.1 hnil
    exact h.openEntry_eq.trans htiled.tiles.stop_eq_firstEntry

/-- What is begun has a name. -/
theorem Opens.name_ne_nil {entry : Addr} (h : m.Opens m' entry) :
    (m'.dictionary.definitionAt entry).name ≠ [] := by
  intro hnil
  have hlength := congrArg List.length hnil
  rw [definitionAt, text, Memory.length_bytesFrom, length_entryName] at hlength
  have hpos := h.nameLength_pos
  rw [hlength] at hpos
  exact absurd hpos (Nat.lt_irrefl 0)

/-- With the closing word a definition is filed in front of the others. -/
theorem Closes.filed {m1 : Machine H} {entry : Addr} (h : m1.Closes m' entry) {f : Definition}
    (hready : m1.dictionary.Ready) (hchained : m1.dictionary.Chained fs)
    (hlatest : m1.dictionary.latest = newestAddr fs) (hnames : ∀ g ∈ fs, g.name ≠ [])
    (hf : m1.dictionary.Holds f) (haddr : f.addr = entry) (hname : f.name ≠ [])
    (habove : ∀ g ∈ fs, g.body.toNat ≤ f.addr.toNat) :
    m'.dictionary.Filed (f :: fs) ∧ m'.dictionary.capacity = m1.dictionary.capacity := by
  subst haddr
  obtain ⟨d, hext, hnum, hexit, hcompiling, hends⟩ := h.ends
  have hfiled : d.Filed fs :=
    ⟨hext.ready hready, hext.chained hchained, hext.latest_eq.trans hlatest, hcompiling, hnames⟩
  exact ⟨hfiled.of_ends hends (hext.holds hf) habove hname, hends.capacity_eq.trans hext.capacity_eq⟩

/-- The cells that were added and the exit lie one after the other, and nothing behind them. -/
theorem Completes.code {m1 m2 : Machine H} {vs : List Cell} (h : Completes m m1 m2 m')
    (hadded : m1.dictionary.Added m2.dictionary vs) :
    m'.dictionary.CellsAt m1.dictionary.here (vs ++ [Primitive.exit.token.toInt16]) ∧
      m1.dictionary.here.toNat + 2 * (vs ++ [Primitive.exit.token.toInt16]).length < 65536 ∧
      after m1.dictionary.here (vs ++ [Primitive.exit.token.toInt16]) = m'.dictionary.here := by
  have hnum : m2.dictionary.here.toNat = m1.dictionary.here.toNat + 2 * vs.length := by
    rw [hadded.here_eq, toNat_after hadded.fits]
  have hlength : (vs ++ [Primitive.exit.token.toInt16]).length = vs.length + 1 := List.length_append
  have hhere := h.toNat_here
  have htop := m'.dictionary.here.toNat_lt
  have hfits : m1.dictionary.here.toNat + 2 * (vs ++ [Primitive.exit.token.toInt16]).length < 65536 := by
    omega
  refine ⟨cellsAt_append.2 ⟨?_, ?_, trivial⟩, hfits, UInt16.toNat_inj.1 ?_⟩
  · exact hadded.cellsAt.of_agreeOn h.agreeOn_body (Nat.le_refl _) (Nat.le_of_eq hnum.symm) hadded.fits
  · rw [← hadded.here_eq]
    exact h.exit_eq
  · rw [toNat_after hfits]
    omega

/-- A new word takes the room behind the others. -/
theorem tiled_of_defines (hrefill : QuietRefill hooks call) (hip : m.ip = 0) (htiled : m.dictionary.Tiled cs)
    (h : Defines hooks call Writes ts m m') :
    m'.ip = 0 ∧ m'.dictionary.capacity = m.dictionary.capacity ∧
      ∃ c : Compiled, c.tokens = ts ∧ m'.dictionary.Tiled (c :: cs) := by
  obtain ⟨n, n', m1, m2, hcolon, hcompiles, hsemicolon⟩ := h
  obtain ⟨entry, hopens⟩ := opens_of_execute_eq_ok hrefill hip hcolon
  have heven := htiled.even_here
  -- nothing is skipped to align the header, since code ends at an even address
  obtain rfl : entry = m.dictionary.here := by
    apply UInt16.toNat_inj.1
    rw [hopens.toNat_entry]
    omega
  have hextending := hopens.extending htiled
  obtain ⟨hadded, ⟨hdata, hreturns, hip2⟩, hplain, hcalls⟩ := added_of_compiles hcompiles hextending
  have hext := hadded.continues.ext
  have hdone := completes_of_execute_eq_ok hip hopens hext hdata hreturns hip2 hsemicolon
  obtain ⟨hcloses, -⟩ := hopens.closes_of_execute_eq_ok hip hext hdata hip2 hsemicolon
  let c : Compiled := ⟨m1.dictionary.definitionAt m.dictionary.here, ts⟩
  have hbody : c.body = m1.dictionary.here := hopens.entryBody_eq
  have hcells : c.cells = ts.flatMap Token.cells ++ [Primitive.exit.token.toInt16] := List.flatMap_append
  have hholds : m2.dictionary.Holds c.toDefinition := hext.holds hopens.hasHeader.holds
  obtain ⟨hfiled, hcap⟩ := hcloses.filed (hext.ready hopens.ready) (hext.chained hextending.chained)
    (hext.latest_eq.trans hextending.latest_eq) htiled.filed.name_ne_nil hholds rfl hopens.name_ne_nil
    fun g hg => (htiled.filed.chained.holds_of_mem hg).body_le_here
  have hcalls' : ∀ body, Token.call body ∈ ts → ∃ g ∈ cs, g.body = body := by
    intro body hcall
    obtain ⟨f, hf, heq⟩ := hcalls body hcall
    obtain ⟨g, hg, rfl⟩ := List.mem_map.1 hf
    exact ⟨g, hg, heq⟩
  -- what is done above the older definitions leaves their bytes alone
  have holder : m'.dictionary.Tiles cs c.addr :=
    htiled.tiles.of_agreeOn ((hopens.dict_extends.trans hext).agreeOn.trans hdone.agreeOn_below)
  obtain ⟨hcode, hfits, hstop⟩ := hdone.code hadded
  rw [← hbody, ← hcells] at hcode hfits hstop
  refine ⟨hdone.ip_eq.trans hip, ?_, c, rfl, hfiled, ?_⟩
  · rw [hcap, hext.capacity_eq, hopens.dict_extends.capacity_eq]
  · rw [← hstop]
    exact .cons holder hholds.addr_lt_body hplain hcalls' hcode hfits

/-! ## Histories -/

variable (hooks call) in
/-- Words were defined one after the other; `bodies` are what they were compiled from, newest first. Between
two definitions source text is read, the stacks and the host may change, and the newest definition
can be marked as immediate. -/
inductive Composes (m₀ : Machine H) : List (List Token) → Machine H → Prop
  | start : Composes m₀ [] m₀
  | quiet {bodies : List (List Token)} {m m' : Machine H} (h : Composes m₀ bodies m)
      (reads : m.dictionary.InputOnly m'.dictionary) (ip_eq : m'.ip = m.ip) : Composes m₀ bodies m'
  | word {ts : List Token} {bodies : List (List Token)} {m m' : Machine H} (h : Composes m₀ bodies m)
      (defines : Defines hooks call Writes ts m m') : Composes m₀ (ts :: bodies) m'
  | mark {ts : List Token} {bodies : List (List Token)} {m : Machine H} (h : Composes m₀ (ts :: bodies) m) :
      Composes m₀ (ts :: bodies) { m with dictionary := m.dictionary.markLatest }

/-- A definition was made, so there is memory for one. -/
theorem lt_capacity_of_defines (hrefill : QuietRefill hooks call) (hip : m.ip = 0)
    (h : Defines hooks call Writes ts m m') : 96 < m.dictionary.capacity := by
  obtain ⟨n, n', m1, m2, hcolon, -, -⟩ := h
  obtain ⟨entry, hopens⟩ := opens_of_execute_eq_ok hrefill hip hcolon
  have hle := hopens.ready.le_here
  have hlt := hopens.ready.here_lt
  rw [toNat_firstEntry] at hle
  rw [← hopens.dict_extends.capacity_eq]
  omega

/-- After each step the definitions tile the dictionary. -/
theorem tiled_of_composes (hrefill : QuietRefill hooks call) (hfresh : m₀.dictionary = d.setUp)
    (hip : m₀.ip = 0) (h : Composes hooks call m₀ bodies m) :
    m.ip = 0 ∧ m.dictionary.capacity = d.capacity ∧ (bodies ≠ [] → 96 < d.capacity) ∧
      (96 < d.capacity → ∃ cs : List Compiled, cs.map (·.tokens) = bodies ∧ m.dictionary.Tiled cs) := by
  induction h with
  | start =>
      rw [hfresh]
      exact ⟨hip, capacity_setUp d, fun hne => absurd rfl hne, fun hcap => ⟨[], rfl, tiled_setUp hcap⟩⟩
  | quiet h reads ip_eq ih =>
      obtain ⟨hip, hcap, hroom, hmade⟩ := ih
      refine ⟨ip_eq.trans hip, reads.capacity_eq.trans hcap, hroom, fun hlt => ?_⟩
      obtain ⟨cs, hbodies, htiled⟩ := hmade hlt
      exact ⟨cs, hbodies, htiled.of_inputOnly reads⟩
  | word h defines ih =>
      obtain ⟨hip, hcap, -, hmade⟩ := ih
      -- that the first word could be defined says that there is room for the table of cells
      have hlt := lt_capacity_of_defines hrefill hip defines
      rw [hcap] at hlt
      obtain ⟨cs, rfl, htiled⟩ := hmade hlt
      obtain ⟨hip', hcap', c, rfl, htiled'⟩ := tiled_of_defines hrefill hip htiled defines
      exact ⟨hip', hcap'.trans hcap, fun _ => hlt, fun _ => ⟨c :: cs, rfl, htiled'⟩⟩
  | mark h ih =>
      obtain ⟨hip, hcap, hroom, hmade⟩ := ih
      refine ⟨hip, (capacity_writeCell ..).trans hcap, hroom, fun hlt => ?_⟩
      obtain ⟨cs, hbodies, htiled⟩ := hmade hlt
      cases cs with
      | nil => cases hbodies
      | cons c cs => exact ⟨{ c with immediate := true } :: cs, hbodies, htiled.markLatest⟩

/-! ## The main result -/

/-- After words were defined one after the other in a new dictionary, the list of words has an entry for each
of them, newest first, and its code is that of the tokens the word was compiled from, with an exit
after them and nothing else. The items of this code tell the tokens, also of numbers that take two
cells. A call is shown by the name of the only entry with the called body. -/
theorem listing?_of_composes (hrefill : QuietRefill hooks call) (hfresh : m₀.dictionary = d.setUp)
    (hip : m₀.ip = 0) (h : Composes hooks call m₀ (ts :: bodies) m) :
    ∃ listed, m.dictionary.listing? = some listed ∧
      listed.map (·.2) = (ts :: bodies).map (fun body => (body ++ [.primitive .exit]).map Token.item) ∧
      listed.map (fun l => l.2.map CodeItem.compiled?) =
        (ts :: bodies).map (fun body => (body ++ [.primitive .exit]).map some) ∧
      ∀ body ∈ ts :: bodies, ∀ callee, Token.call callee ∈ body →
        ∃ e ∈ listed.map (·.1), e.body = callee ∧ (∀ e' ∈ listed.map (·.1), e'.body = callee → e' = e) ∧
          Terminal.showItem m.dictionary (listed.map (·.1)) (.token (.call callee)) =
            " " ++ Text.ofBytes (m.dictionary.text e.name) := by
  obtain ⟨-, -, hroom, hmade⟩ := tiled_of_composes hrefill hfresh hip h
  obtain ⟨cs, hbodies, htiled⟩ := hmade (hroom (List.cons_ne_nil _ _))
  have hne : cs ≠ [] := fun hnil => by
    rw [hnil] at hbodies
    cases hbodies
  refine ⟨_, listing?_of_tiled htiled hne, ?_, ?_, ?_⟩
  · rw [← hbodies, List.map_map, List.map_map]
    rfl
  · rw [← hbodies, List.map_map, List.map_map]
    refine List.map_congr_left fun c _ => ?_
    show (c.closed.map Token.item).map CodeItem.compiled? = c.closed.map some
    rw [List.map_map]
    exact List.map_congr_left fun t _ => t.compiled?_item
  · rw [List.map_map, ← hbodies]
    intro body hmem callee hcall
    obtain ⟨c, hc, rfl⟩ := List.mem_map.1 hmem
    obtain ⟨g, hg, rfl⟩ := htiled.tiles.exists_callee hc hcall
    have hgbody : m.dictionary.entryBody g.addr = g.body := (htiled.holds hg).entryBody_eq
    refine ⟨m.dictionary.entryAt g.addr, List.mem_map_of_mem hg, hgbody, ?_, ?_⟩
    · intro e he heq
      obtain ⟨c', hc', rfl⟩ := List.mem_map.1 he
      have hbody : c'.body = g.body := (htiled.holds hc').entryBody_eq.symm.trans heq
      rw [htiled.tiles.eq_of_body_eq hc' hg hbody]
      rfl
    · have hname : m.dictionary.text (m.dictionary.entryName g.addr) = g.name := (htiled.holds hg).text_eq
      have hshown := nameOfBody?_of_tiled htiled hg
      rw [← hname] at hshown
      show " " ++ (Terminal.nameOfBody? m.dictionary _ g.body).getD _ = _
      rw [Function.comp_def, hshown]
      rfl

/-- A machine without definitions. -/
def blankMachine : Machine Unit := ofDictionary (.setUp ⟨.sparse (.zeros 1024)⟩) () {}

/-- The machine with a line of input. -/
def withInput (line : List UInt8) (m : Machine Unit) : Machine Unit :=
  { m with dictionary := lastState (loadInput line m.dictionary) }

theorem Composes.withInput {call : Interpreter Unit} {m₀ m : Machine Unit} {line : List UInt8}
    (h : Composes {} call m₀ bodies m) (hload : value? (loadInput line m.dictionary) = some ()) :
    Composes {} call m₀ bodies (withInput line m) :=
  .quiet h (inputOnly_of_loadInput (eq_ok_lastState hload)) rfl

/-- The body of `scale`, as it is written in the line with its name. -/
def scaleBody : List (Written × Token) :=
  [(.name (.ofLength 22 3), .primitive (.operator .dup)), (.name (.ofLength 26 1), .primitive (.operator .mul)),
    (.number 300, .literal 300)]

/-- The body of `show`, as it is written in the line with its name. -/
def showBody : List (Written × Token) :=
  [(.name (.ofLength 21 5), .call 104), (.number 7, .literal 7), (.name (.ofLength 27 3), .primitive .sys)]

/-- The machine after `scale` was defined. -/
def scaleMachine : Machine Unit :=
  afterDefinition {} (interpreter {} 20) 20 scaleBody (withInput (Text.encode "scale dup *") blankMachine)

/-- The machine after `show` was defined and marked as immediate. -/
def showMachine : Machine Unit :=
  let m := afterDefinition {} (interpreter {} 20) 20 showBody
    (withInput (Text.encode "show scale sys") scaleMachine)
  { m with dictionary := m.dictionary.markLatest }

theorem finishes_scale_show :
    blankMachine.ip = 0 ∧ value? (loadInput (Text.encode "scale dup *") blankMachine.dictionary) = some () ∧
      Finishes {} (interpreter {} 20) Writes 20 scaleBody
        (withInput (Text.encode "scale dup *") blankMachine) ∧
      value? (loadInput (Text.encode "show scale sys") scaleMachine.dictionary) = some () ∧
      Finishes {} (interpreter {} 20) Writes 20 showBody
        (withInput (Text.encode "show scale sys") scaleMachine) := by
  decide +kernel

/-- A word that calls another one, with a short and a long number. -/
theorem listing?_scale_show :
    Composes {} (interpreter {} 20) blankMachine [showBody.map Prod.snd, scaleBody.map Prod.snd] showMachine ∧
      ∃ listed, showMachine.dictionary.listing? = some listed ∧
        listed.map (·.2) =
          [[.token (.call 104), .token (.literal 7), .token (.primitive .sys), .token (.primitive .exit)],
            [.token (.primitive (.operator .dup)), .token (.primitive (.operator .mul)), .operand .literal 300,
              .token (.primitive .exit)]] ∧
        ∃ e ∈ listed.map (·.1), e.body = 104 ∧
          Terminal.showItem showMachine.dictionary (listed.map (·.1)) (.token (.call 104)) =
            " " ++ Text.ofBytes (showMachine.dictionary.text e.name) := by
  obtain ⟨hip, hload, hscale, hload', hshow⟩ := finishes_scale_show
  have hrefill : QuietRefill ({} : Hooks Unit) (interpreter {} 20) :=
    ⟨fun m => .refl m, fun m m' h => by cases h⟩
  have hfirst : Composes {} (interpreter {} 20) blankMachine [scaleBody.map Prod.snd] scaleMachine :=
    .word (Composes.start.withInput hload) (defines_of_finishes _ _ _ hscale)
  have hboth : Composes {} (interpreter {} 20) blankMachine [showBody.map Prod.snd, scaleBody.map Prod.snd]
      showMachine :=
    .mark (.word (hfirst.withInput hload') (defines_of_finishes _ _ _ hshow))
  have hfresh : blankMachine.dictionary = (⟨.sparse (.zeros 1024)⟩ : Dictionary).setUp := rfl
  obtain ⟨listed, hlisting, hcode, -, hcalls⟩ := listing?_of_composes hrefill hfresh hip hboth
  obtain ⟨e, he, hbody, -, hshown⟩ := hcalls _ List.mem_cons_self 104 List.mem_cons_self
  exact ⟨hboth, listed, hlisting, hcode, e, he, hbody, hshown⟩

end Machine

end ThreadedForth
