import ThreadedForth.Proofs.Dictionary.Linking
import ThreadedForth.Proofs.Machine.Entered

/-!
# What names hold

After lines that were entered in a book, the name of a constant pushes its number, and the name of a
variable, followed by `@`, pushes what was last stored with all that was added since. Where there is
room on the stacks, this does not fail (`Keeps.pushes_fetch`, `Keeps.pushes_constant`). To change a
variable is to change two bytes behind its code, and no others above the input buffer
(`Keeps.storesIn_of_change`). All of this holds after any lines (`Keeps.holdings`).
-/

set_option autoImplicit false

namespace ThreadedForth

namespace Dictionary

variable {d d1 d' : Dictionary} {limit : Addr} {kit : Fixture → Addr} {lib fs : List Definition}
  {f : Definition} {book : Book} {text : List UInt8} {v w : Cell}

/-- Of all that lies above the input buffer, only the cell of the variable `f` is different. It lies
behind the code of `f`, in the room of `f`. -/
structure StoresIn (d d' : Dictionary) (fs : List Definition) (f : Definition) : Prop where
  fits : ∃ e, (f, e) ∈ extents d.here.toNat fs ∧ f.body.toNat + 10 ≤ e
  reserved : d.AgreeOn d' 0 10
  below : d.AgreeOn d' 96 (f.body.toNat + 6)
  above : d.AgreeOn d' (f.body.toNat + 8) 65536
  others : ∀ g e, (g, e) ∈ extents d.here.toNat fs → g ≠ f → d.AgreeOn d' g.addr.toNat e
  entries?_eq : d'.entries? = d.entries?
  names_eq : ∀ g ∈ fs, d'.text (d'.entryName g.addr) = d.text (d.entryName g.addr)

/-- While nothing is compiled, all definitions are entries. -/
theorem Linked.entries?_eq {top : Nat} (h : d.Linked fs top) (hrest : d.Resting fs) (hne : fs ≠ []) :
    d.entries? = some (fs.map fun f => d.entryAt f.addr) :=
  entries?_of_chained h.chained h.latest_eq (h.rooted hne) (h.shows_of_resting hrest).visible

/-- A change behind the start of a body keeps the headers, that of its own definition as well. -/
theorem Linked.readCell_addr_of_agreeOn {top : Nat} (h : d.Linked fs top) (htop : top < 65536)
    (hbelow : d.AgreeOn d' 96 (f.body.toNat + 6))
    (hothers : ∀ g e, (g, e) ∈ extents top fs → g ≠ f → d.AgreeOn d' g.addr.toNat e) :
    ∀ g ∈ fs, d'.readCell g.addr = d.readCell g.addr := by
  intro g hg
  have hholds := h.chained.holds_of_mem hg
  have hentry := hholds.hasHeader.le_entry
  have hlt := hholds.addr_lt_body
  have hbody := h.body_le g hg
  rw [toNat_firstEntry] at hentry
  by_cases hne : g = f
  · subst hne
    exact hbelow.readCell hentry (by omega) (by omega)
  · obtain ⟨e, he⟩ : ∃ e, (g, e) ∈ extents top fs := exists_mem_extents hg
    have hend := (h.chained.le_of_mem_extents h.body_le he).1
    exact (hothers g e he hne).readCell (Nat.le_refl _) (by omega) (by omega)

/-- To write the cell of a variable, after source text was read, is to change nothing else. -/
theorem Recorded.storesIn (h : d.Recorded limit kit lib fs book)
    (hx : book.holding? text = some (.var v))
    (hfind : (fs.find? fun f => Text.same text f.name) = some f) (hreads : d.InputOnly d1)
    (hd' : d' = d1.writeCell (dataAddr f.body) w) : d.StoresIn d' (fs ++ lib) f := by
  obtain ⟨e, hmem, -, hroom, hle, hlimit, hnum, -⟩ := h.of_var hx hfind
  have h1 := h.of_inputOnly hreads
  have h' : d'.Recorded limit kit lib fs (book.assign text w) := by
    rw [hd']
    exact h1.assign hx hfind
  have htop := d.here.toNat_lt
  have hfirst := UInt16.le_iff_toNat_le.1 (h.firstEntry_le hlimit)
  rw [toNat_firstEntry] at hfirst
  -- first source text was read, below all entries, and then the cell was written
  have hwithin := d1.within_writeCell w (a := dataAddr f.body) (by omega)
  rw [← hd', hnum] at hwithin
  have hlinked := h1.linked
  rw [hreads.here_eq] at hlinked
  have hbelow : d.AgreeOn d' 96 (f.body.toNat + 6) :=
    (hreads.agreeOn_above.mono (Nat.le_refl _) (by omega)).trans
      (hwithin.below.mono (Nat.zero_le _) (Nat.le_refl _))
  have hothers : ∀ g e, (g, e) ∈ extents d.here.toNat (fs ++ lib) → g ≠ f →
      d.AgreeOn d' g.addr.toNat e := by
    intro g e' hg hne
    have hentry := (hlinked.chained.holds_of_mem (mem_of_mem_extents hg)).hasHeader.le_entry
    have hend := (hlinked.chained.le_of_mem_extents hlinked.body_le hg).2
    exact (hreads.agreeOn_above.mono hentry (by omega)).trans (hlinked.agreeOn_of_within hwithin hmem
      hlinked.body_le (by omega) (by omega) hg hne (by omega))
  have hheader := h.linked.readCell_addr_of_agreeOn htop hbelow hothers
  have hne := List.ne_nil_of_mem (List.mem_append_left lib (List.mem_of_find?_eq_some hfind))
  refine ⟨⟨e, hmem, hroom⟩, ?_, hbelow, ?_, hothers, ?_, fun g hg => ?_⟩
  · exact hreads.agreeOn_below.trans (hwithin.below.mono (Nat.le_refl _) (by omega))
  · exact (hreads.agreeOn_above.mono (by omega) (Nat.le_refl _)).trans hwithin.above
  · rw [h.linked.entries?_eq h.resting hne, h'.linked.entries?_eq h'.resting hne]
    exact congrArg some (List.map_congr_left fun g hg => entryAt_eq (hheader g hg))
  · exact (h'.linked.chained.holds_of_mem hg).text_eq.trans
      (h.linked.chained.holds_of_mem hg).text_eq.symm

instance (d : Dictionary) (fs : List Definition) (limit : Nat) : Decidable (d.Linked fs limit) :=
  decidable_of_iff (_ ∧ _ ∧ _ ∧ _ ∧ _ ∧ _ ∧ _ ∧ _ ∧ _)
    ⟨fun ⟨h1, h2, h3, h4, h5, h6, h7, h8, h9⟩ => ⟨h1, h2, h3, h4, h5, h6, h7, h8, h9⟩,
      fun ⟨h1, h2, h3, h4, h5, h6, h7, h8, h9⟩ => ⟨h1, h2, h3, h4, h5, h6, h7, h8, h9⟩⟩

instance (d : Dictionary) (fs : List Definition) : Decidable (d.Resting fs) :=
  decidable_of_iff (_ ∧ _) ⟨fun ⟨h, h'⟩ => ⟨h, h'⟩, fun ⟨h, h'⟩ => ⟨h, h'⟩⟩

end Dictionary

namespace Machine

open Dictionary

variable {H : Type} {hooks : Hooks H} {call : Interpreter H} {m m' : Machine H}
  {limit : Addr} {kit : Fixture → Addr} {lib fs : List Definition} {f : Definition} {book : Book}
  {name : Span} {word text line : List UInt8} {lines ws : List (List UInt8)}
  {v addr : Cell} {vs : List Cell} {d : Dictionary} {body stop a : Addr} {ps : List Posting}

/-! ## Code that reads -/

/-- A number in a cell of its own is pushed. -/
theorem does_push {s s' : Stack} (h : d.CellsAt a (longLiteral v)) (hpush : s.push? v = some s') :
    Does hooks call d 0 a (a + cellSize + cellSize) s (.ok () s') := by
  have hdoes : Does hooks call d 0 a (a + cellSize + cellSize) s
      (StackM.push (d.readCell (a + cellSize)) s) := does_longLiteral s h.1
  rw [h.2.1, StackM.push, hpush] at hdoes
  exact hdoes

/-- The cell at the address on the stack is read. -/
theorem exists_does_fetchWord {s : Stack}
    (h : d.CellsAt a [shortLiteral 1, Primitive.fetch.token.toInt16, exitCell])
    (hs : s.cells = addr :: vs) (hroom : s.cells.length < s.capacity) :
    ∃ s', s'.cells = d.readCell addr.toUInt16 :: vs ∧ ∀ (hooks : Hooks H) (call : Interpreter H),
      Does hooks call d 0 a (a + cellSize + cellSize) s (.ok () s') := by
  -- a one is pushed to read a cell and no byte, and is taken off with the address
  obtain ⟨s1, hpush1, hcells1, hcap1⟩ := s.exists_push?_of_length_lt (v := 1) hroom
  have hcells : s1.cells = 1 :: addr :: vs := by rw [hcells1, hs]
  have hdrop : (s1.drop 2).cells = vs := by
    rw [Stack.cells_drop, hcells]
    rfl
  obtain ⟨s2, hpush2, hcells2, -⟩ := (s1.drop 2).exists_push?_of_length_lt
    (v := d.readCell addr.toUInt16) (by
      rw [hdrop, s1.capacity_drop, hcap1]
      rw [hs, List.length_cons] at hroom
      omega)
  refine ⟨s2, by rw [hcells2, hdrop], fun hooks call => ?_⟩
  have hone : Does hooks call d 0 a (a + cellSize) s (StackM.push 1 s) :=
    does_shortLiteral s (t := .literal 1) rfl h.1
  rw [StackM.push, hpush1] at hone
  refine hone.trans (does_of_runToken s1 h.2.1 (c := a) fun n returns host => ?_)
  rw [runToken_fetch _ _ _ _ _ _ hcells, if_pos (by decide), hpush2]

/-- A word succeeds if it is executed where code is that does something and then exits. -/
theorem endsIn_spelled_of_does {s' : Stack} (hip : m.ip = 0)
    (hword : ∀ call n, interpretWord hooks call n name m = execute hooks call n body m)
    (hbody : Layout.firstEntry ≤ body)
    (hdoes : ∀ call, Does hooks call m.dictionary 0 body stop m.data (.ok () s'))
    (hexit : m.dictionary.readCell stop = exitCell)
    (hroom : m.returns.depth < m.returns.capacity) :
    EndsIn (spelled hooks name) m (.ok () { m with data := s' }) := by
  rcases m with ⟨d, s, returns, ip, host⟩
  obtain rfl : ip = 0 := hip
  obtain ⟨k, hk⟩ := execute_of_does hbody (hdoes (interpreter hooks 0)) hexit returns host hroom
  exact ⟨fun _ => by simp, 0, 0 + k, (hword _ _).trans (endsAs_ok.1 (hk 0))⟩

/-! ## Words that read -/

namespace Attends

/-- The first word is executed where its code is, and then the others are read. -/
theorem of_does (hs : hooks.Steady) {s' : Stack} (h : m.Attends limit kit lib fs book (word :: ws))
    (hword : ∀ call n, interpretWord hooks call n m.dictionary.nextWord.1 m.afterWord =
      execute hooks call n body m.afterWord) (hbody : Layout.firstEntry ≤ body)
    (hdoes : ∀ call, Does hooks call m.afterWord.dictionary 0 body stop m.data (.ok () s'))
    (hexit : m.afterWord.dictionary.readCell stop = exitCell)
    (hroom : m.returns.depth < m.returns.capacity) :
    ({ m.afterWord with data := s' } : Machine H).Attends limit kit lib fs book ws ∧
      ∀ m', EndsIn (source hooks) { m.afterWord with data := s' } (.ok () m') →
        EndsIn (source hooks) m (.ok () m') := by
  have hafter := h.afterWord
  refine ⟨⟨hafter.ip_eq, hafter.recorded, hafter.reading⟩, fun m' hend => ?_⟩
  exact (endsIn_source_cons_iff hs h.reading h.le_capacity).2
    ⟨_, endsIn_spelled_of_does (m := m.afterWord) h.ip_eq hword hbody hdoes hexit hroom, hend⟩

/-- The newest entry with a name pushes the number that its code begins with. -/
theorem exists_push (hs : hooks.Steady) (h : m.Attends limit kit lib fs book (word :: ws))
    (hfind : (fs.find? fun f => Text.same word f.name) = some f)
    (hlimit : limit.toNat ≤ f.body.toNat)
    (hcode : m.afterWord.dictionary.CellsAt f.body (longLiteral v ++ [exitCell]))
    (hdata : m.data.cells.length < m.data.capacity)
    (hroom : m.returns.depth < m.returns.capacity) :
    ∃ s', s'.cells = v :: m.data.cells ∧ s'.capacity = m.data.capacity ∧
      ({ m.afterWord with data := s' } : Machine H).Attends limit kit lib fs book ws ∧
      ∀ m', EndsIn (source hooks) { m.afterWord with data := s' } (.ok () m') →
        EndsIn (source hooks) m (.ok () m') := by
  obtain ⟨s', hpush, hcells, hcap⟩ := m.data.exists_push?_of_length_lt (v := v) hdata
  have htext := text_afterWord h.reading h.le_capacity
  have hword : ∀ call n, interpretWord hooks call n m.dictionary.nextWord.1 m.afterWord =
      execute hooks call n f.body m.afterWord := fun call n =>
    interpretWord_of_find?_eq_some h.afterWord.recorded (by rw [htext]; exact hfind)
  exact ⟨s', hcells, hcap, h.of_does hs hword (h.recorded.firstEntry_le hlimit)
    (fun call => does_push ⟨hcode.1, hcode.2.1, trivial⟩ hpush) hcode.2.2.1 hroom⟩

/-- The word `@` reads the cell at the address on the stack. -/
theorem exists_fetch (hs : hooks.Steady) (hlib : Supplies lib kit)
    (h : m.Attends limit kit lib fs book (Text.encode (Fixture.tool .fetch).name :: ws))
    (haddr : m.data.cells = addr :: vs) (hdata : m.data.cells.length < m.data.capacity)
    (hroom : m.returns.depth < m.returns.capacity) :
    ∃ s', s'.cells = m.afterWord.dictionary.readCell addr.toUInt16 :: vs ∧
      ({ m.afterWord with data := s' } : Machine H).Attends limit kit lib fs book ws ∧
      ∀ m', EndsIn (source hooks) { m.afterWord with data := s' } (.ok () m') →
        EndsIn (source hooks) m (.ok () m') := by
  have hcode := h.afterWord.recorded.furnished.hasCode (.tool .fetch)
  obtain ⟨s', hcells, hdoes⟩ := exists_does_fetchWord (H := H) hcode.cellsAt haddr hdata
  have htext := text_afterWord h.reading h.le_capacity
  have hword : ∀ call n, interpretWord hooks call n m.dictionary.nextWord.1 m.afterWord =
      execute hooks call n (kit (.tool .fetch)) m.afterWord := fun call n =>
    interpretWord_of_fixture h.afterWord.recorded hlib htext
  exact ⟨s', hcells, h.of_does hs hword (UInt16.le_iff_toNat_le.2 hcode.le) (hdoes hooks)
    hcode.cellsAt.2.2.1 hroom⟩

end Attends

/-! ## Lines that read -/

/-- The line pushes a cell, and does nothing else but to be read. -/
def Pushes (hooks : Hooks H) (m : Machine H) (line : List UInt8) (v : Cell) : Prop :=
  ∃ m1, EndsIn (fun _ n => interpretLine hooks n line) m (.ok () m1) ∧
    m1.data.cells = v :: m.data.cells ∧ m1.returns = m.returns ∧
    m.dictionary.InputOnly m1.dictionary

namespace Keeps

/-- The name of a constant pushes its number. -/
theorem pushes_constant (hs : hooks.Steady) (h : m.Keeps limit kit lib fs book)
    (hx : book.holding? text = some (.const v)) (hline : LineOf line [text])
    (hdata : m.data.depth < m.data.capacity) (hreturns : m.returns.depth < m.returns.capacity) :
    m.Pushes hooks line v := by
  obtain ⟨d, hinput, hattends, hiff⟩ := h.exists_attends hs hline
  obtain ⟨f, e, hfind, -, hcells, -, -, hlimit⟩ :=
    hattends.afterWord.recorded.shelved.exists_of_holding? hx
  rw [m.data.depth_eq] at hdata
  obtain ⟨s', hs', -, h', hrest⟩ := hattends.exists_push hs hfind hlimit hcells hdata hreturns
  exact ⟨_, (hiff _).2 (hrest _ ((endsIn_source_nil_iff h'.reading).2 rfl)), hs', rfl,
    hinput.trans d.inputOnly_nextWord⟩

/-- The name of a variable and `@` push what the variable holds. -/
theorem pushes_fetch (hs : hooks.Steady) (hlib : Supplies lib kit)
    (h : m.Keeps limit kit lib fs book) (hx : book.holding? text = some (.var v))
    (hline : LineOf line [text, Text.encode (Fixture.tool .fetch).name])
    (hdata : m.data.depth + 1 < m.data.capacity) (hreturns : m.returns.depth < m.returns.capacity) :
    m.Pushes hooks line v := by
  obtain ⟨d, hinput, hattends, hiff⟩ := h.exists_attends hs hline
  obtain ⟨f, e, hfind, -, hcells, -, -, hlimit, -⟩ := hattends.afterWord.recorded.exists_of_var hx
  rw [m.data.depth_eq] at hdata
  obtain ⟨s1, hs1, hcap1, h1, hrest1⟩ := hattends.exists_push hs hfind hlimit
    (cellsAt_var_iff.1 hcells).1 (Nat.lt_of_succ_lt hdata) hreturns
  obtain ⟨s2, hs2, h2, hrest2⟩ := h1.exists_fetch hs hlib hs1 (by
    show s1.cells.length < s1.capacity
    rw [hs1, hcap1]
    exact hdata) hreturns
  -- to read the two words has not changed the cell
  obtain ⟨-, -, -, -, -, -, -, hread⟩ := h2.recorded.of_var hx hfind
  refine ⟨_, (hiff _).2 (hrest1 _ (hrest2 _ ((endsIn_source_nil_iff h2.reading).2 rfl))), ?_, rfl,
    (hinput.trans d.inputOnly_nextWord).trans d.nextWord.2.inputOnly_nextWord⟩
  rw [hs2, UInt16.toUInt16_toInt16]
  exact congrArg (· :: m.data.cells) hread

/-! ## Lines that write -/

/-- A line that changes a variable writes to its cell, and nowhere else. -/
theorem storesIn_of_change (hs : hooks.Steady) (hlib : Supplies lib kit) {c : Change}
    (h : m.Keeps limit kit lib fs book)
    (hfits : (Posting.change c word v text).Fits lib book)
    (hline : LineOf line (Posting.change c word v text).words)
    (hend : EndsIn (fun _ n => interpretLine hooks n line) m (.ok () m')) :
    ∃ f, (fs.find? fun f => Text.same text f.name) = some f ∧
      m.dictionary.StoresIn m'.dictionary (fs ++ lib) f := by
  obtain ⟨old, hold⟩ := Book.holdsVar_iff.1 hfits.2
  obtain ⟨d, hinput, hattends, hiff⟩ := h.exists_attends hs hline
  obtain ⟨f, d', hfind, hreads, hd', -, -⟩ :=
    hattends.exists_of_change hs hlib hfits.1 hold ((hiff _).1 hend)
  exact ⟨f, hfind, h.recorded.storesIn hold hfind (hinput.trans hreads) hd'⟩

/-- **Variables and constants are independent.** In a machine with the kit, after any lines that make
variables and constants, define words and change variables, and that succeed, a variable holds what was
last stored in it with all that was added since, and a constant holds its number. A line that changes a
variable changes nothing else. -/
theorem holdings (hs : hooks.Steady) (hlib : Supplies lib kit) (h : m.Keeps limit kit lib [] [])
    (hlines : List.Forall₂ (fun line (p : Posting) => LineOf line p.words) lines ps)
    (hfit : Posting.AllFit lib [] ps) (hend : EndsIn (lineByLine hooks lines) m (.ok () m')) :
    (m'.data = m.data ∧ m'.returns = m.returns) ∧
    (∀ before name after text line, ps = before ++ .var name :: after →
      Text.same text name = true → (∀ p ∈ after, p.gives text = false) →
      LineOf line [text, Text.encode (Fixture.tool .fetch).name] →
      m.data.depth + 1 < m.data.capacity → m.returns.depth < m.returns.capacity →
      m'.Pushes hooks line (Posting.total text 0 after)) ∧
    (∀ before numeral v name after text line, ps = before ++ .const numeral v name :: after →
      Text.same text name = true → (∀ p ∈ after, p.gives text = false) → LineOf line [text] →
      m.data.depth < m.data.capacity → m.returns.depth < m.returns.capacity →
      m'.Pushes hooks line v) ∧
    ∃ fs, m'.Keeps limit kit lib fs (Book.postAll [] ps) ∧ ∀ c numeral v text line m'',
      (Posting.change c numeral v text).Fits lib (Book.postAll [] ps) →
      LineOf line (Posting.change c numeral v text).words →
      EndsIn (fun _ n => interpretLine hooks n line) m' (.ok () m'') →
      ∃ f, (fs.find? fun f => Text.same text f.name) = some f ∧
        m'.dictionary.StoresIn m''.dictionary (fs ++ lib) f := by
  obtain ⟨⟨fs, h'⟩, hdata, hreturns⟩ := h.of_lines hs hlib hlines hfit hend
  refine ⟨⟨hdata, hreturns⟩, ?_, ?_, fs, h', fun c numeral v text line m'' hfits hline hend =>
    h'.storesIn_of_change hs hlib hfits hline hend⟩
  · rintro before name after text line rfl hsame hgives hline hroom hroom'
    exact h'.pushes_fetch hs hlib (Book.holding?_postAll_var hfit hsame hgives) hline
      (by rw [hdata]; exact hroom) (by rw [hreturns]; exact hroom')
  · rintro before numeral v name after text line rfl hsame hgives hline hroom hroom'
    exact h'.pushes_constant hs (Book.holding?_postAll_const hfit hsame hgives) hline
      (by rw [hdata]; exact hroom) (by rw [hreturns]; exact hroom')

end Keeps

/-- The lines of the standard vocabulary in which the kit is defined, and the words that it needs. -/
def kitLines : List String :=
  [2, 3, 7, 8, 11, 15, 16, 17, 18, 19, 21, 22, 23, 51, 52].filterMap (Prelude.lines[·]?)

/-- A machine that knows the kit. -/
def kitMachine : Machine Unit := lastState <|
  Prelude.interpretLines {} 100 kitLines (ofDictionary (.setUp ⟨.sparse (.zeros 1024)⟩) () {})

/-- The definitions of that machine. -/
def kitWords : List Definition :=
  (kitMachine.dictionary.entries?.getD []).map fun e =>
    ⟨e.addr, kitMachine.dictionary.text e.name, e.immediate, e.body⟩

/-- Where the code of the kit is. -/
def kitPlaces : Fixture → Addr
  | .tool .over_ => 102
  | .rot => 114
  | .tool .fetch => 128
  | .tool .store => 138
  | .addStore => 148
  | .tool .here => 168
  | .tool .allot => 208
  | .tool .comma => 224
  | .var => 296
  | .const => 332

/-- A variable, a word and a constant, and two changes of the variable. -/
def xPostings : List Posting :=
  [.var (Text.encode "x"), .change .set (Text.encode "5") 5 (Text.encode "x"),
    .define (Text.encode "sq") [Text.encode "dup", Text.encode "*"],
    .const (Text.encode "7") 7 (Text.encode "c"), .change .add (Text.encode "3") 3 (Text.encode "X")]

/-- The lines of the postings. -/
def xLines : List (List UInt8) :=
  ["variable x", "5 x !", ": sq dup * ;", "7 constant c", "3 X +!"].map Text.encode

/-- The machine after the lines. -/
def xMachine : Machine Unit := lastState (lineByLine {} xLines 300 300 kitMachine)

/-- The machine knows the kit, and the lines succeed. -/
theorem kitMachine_xLines_eq :
    (kitMachine.ip = 0 ∧ kitMachine.dictionary.Furnished kitMachine.dictionary.here kitPlaces ∧
      kitMachine.dictionary.Linked kitWords kitMachine.dictionary.here.toNat ∧
      kitMachine.dictionary.Resting kitWords ∧ Supplies kitWords kitPlaces) ∧
    (Posting.AllFit kitWords [] xPostings ∧
      value? (lineByLine {} xLines 300 300 kitMachine) = some ()) ∧
    kitMachine.data.depth + 1 < kitMachine.data.capacity ∧
    kitMachine.returns.depth < kitMachine.returns.capacity := by
  decide +kernel

/-- After the lines `x` holds eight, in either case of the letter, and `c` is seven. -/
theorem Keeps.holdings_kitMachine :
    (kitMachine.Keeps kitMachine.dictionary.here kitPlaces kitWords [] [] ∧
      List.Forall₂ (fun line (p : Posting) => LineOf line p.words) xLines xPostings ∧
      Posting.AllFit kitWords [] xPostings ∧
      EndsIn (lineByLine {} xLines) kitMachine (.ok () xMachine)) ∧
    xMachine.Pushes {} (Text.encode "x @") 8 ∧ xMachine.Pushes {} (Text.encode "c") 7 := by
  obtain ⟨⟨hip, hfurnished, hlinked, hresting, hlib⟩, ⟨hfit, hvalue⟩, hdata, hreturns⟩ :=
    kitMachine_xLines_eq
  have hkeeps : kitMachine.Keeps kitMachine.dictionary.here kitPlaces kitWords [] [] :=
    ⟨hip, hfurnished, by rwa [List.nil_append], by rwa [List.nil_append], .nil (Nat.le_refl _),
      by simp, by simp⟩
  have hlines : List.Forall₂ (fun line (p : Posting) => LineOf line p.words) xLines xPostings :=
    .cons (by decide +kernel) <| .cons (by decide +kernel) <| .cons (by decide +kernel) <|
      .cons (by decide +kernel) <| .cons (by decide +kernel) .nil
  have hend : EndsIn (lineByLine {} xLines) kitMachine (.ok () xMachine) :=
    ⟨fun _ => by simp, 300, 300, eq_ok_lastState hvalue⟩
  obtain ⟨-, hvar, hconst, -⟩ :=
    Keeps.holdings Hooks.steady_default hlib hkeeps hlines hfit hend
  have hroom : kitMachine.data.depth < kitMachine.data.capacity := by omega
  have htotal : Posting.total (Text.encode "x") 0 xPostings.tail = 8 := by decide +kernel
  refine ⟨⟨hkeeps, hlines, hfit, hend⟩, ?_, ?_⟩
  · have hpushes := hvar [] (Text.encode "x") xPostings.tail (Text.encode "x") (Text.encode "x @")
      rfl (by decide +kernel) (by decide +kernel) (by decide +kernel) hdata hreturns
    rwa [htotal] at hpushes
  · exact hconst (xPostings.take 3) (Text.encode "7") 7 (Text.encode "c") (xPostings.drop 4)
      (Text.encode "c") (Text.encode "c") rfl (by decide +kernel) (by decide +kernel)
      (by decide +kernel) hroom hreturns

end Machine

end ThreadedForth
