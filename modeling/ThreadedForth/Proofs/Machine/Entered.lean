import Mathlib.Data.List.Forall2
import ThreadedForth.Proofs.Machine.Control
import ThreadedForth.Proofs.Machine.Postings
import ThreadedForth.Proofs.Machine.Reaches

/-!
# Lines that are entered in a book

A machine in which nothing runs attends to words with a book in hand (`Attends`). Each word of a
posting that succeeds does its part: a numeral pushes its number, the name of a variable the address of
its cell, and a word of the kit does what its code does. The words of a definition only add cells to
its code (`exists_of_compiles_all`), so it is of no matter what they are. In all, a line that is
entered and succeeds changes the book by its posting, and the stacks are as they were before
(`Keeps.of_line`). Then so it is with many lines (`Keeps.of_lines`).
-/

set_option autoImplicit false

namespace ThreadedForth

namespace Dictionary

variable {d : Dictionary} {limit : Addr} {kit : Fixture → Addr} {lib fs : List Definition}
  {book : Book} {text : List UInt8}

/-- What lies above the limit is code. -/
theorem Recorded.firstEntry_le (h : d.Recorded limit kit lib fs book) {a : Addr}
    (ha : limit.toNat ≤ a.toNat) : Layout.firstEntry ≤ a := by
  have hle := (h.furnished.hasCode .rot).le
  have hend := (h.furnished.hasCode .rot).le_limit
  exact UInt16.le_iff_toNat_le.2 (by omega)

/-- What can be compiled is a word that is not immediate, or a number. -/
theorem Recorded.cases_of_compiles (h : d.Recorded limit kit lib fs book)
    (hc : book.compiles lib text = true) :
    (∃ f, ((fs ++ lib).find? fun f => Text.same text f.name) = some f ∧ f.immediate = false) ∨
      ((fs ++ lib).find? fun f => Text.same text f.name) = none ∧
        ((∃ p, Primitive.ofName? text = some p ∧ p.isImmediate = false) ∨
          Primitive.ofName? text = none ∧ ∃ v, Numeral.read? 10 text = some v) := by
  rw [Book.compiles, Bool.or_eq_true] at hc
  rw [List.find?_append]
  -- a name of the book comes before those of the library
  cases hx : book.holding? text with
  | some x =>
      obtain ⟨f, e, hfind, -⟩ := h.shelved.exists_of_holding? hx
      refine .inl ⟨f, ?_, h.immediate_eq f (List.mem_of_find?_eq_some hfind)⟩
      rw [hfind, Option.some_or]
  | none =>
      rw [hx] at hc
      rw [h.shelved.find?_eq_none hx, Option.none_or]
      have hc := hc.resolve_left (by decide)
      cases hfind : lib.find? fun f => Text.same text f.name with
      | some f =>
          rw [hfind] at hc
          exact .inl ⟨f, rfl, by simpa using hc⟩
      | none =>
          rw [hfind] at hc
          refine .inr ⟨rfl, ?_⟩
          cases hp : Primitive.ofName? text with
          | some p =>
              rw [hp] at hc
              exact .inl ⟨p, rfl, by simpa using hc⟩
          | none =>
              rw [hp] at hc
              exact .inr ⟨rfl, Option.isSome_iff_exists.1 hc⟩

end Dictionary

namespace Machine

open Dictionary

variable {H : Type} {hooks : Hooks H} {call : Interpreter H} {n : Nat} {m m1 m' : Machine H}
  {limit : Addr} {kit : Fixture → Addr} {lib fs : List Definition} {f : Definition} {book : Book}
  {word text : List UInt8} {ws : List (List UInt8)} {v old : Cell} {vs code : List Cell}
  {Q : Dictionary → List Cell → Prop} {d : Dictionary} {top : Nat}

/-- A source that succeeds has succeeded with its first word. -/
theorem exists_of_endsIn_source_cons (hs : hooks.Steady) (h : m.dictionary.Reading (word :: ws))
    (hcap : 16 ≤ m.dictionary.capacity) (hend : EndsIn (source hooks) m (.ok () m')) :
    ∃ N n m1, interpretWord hooks (interpreter hooks N) (n + 1) m.dictionary.nextWord.1 m.afterWord =
        .ok () m1 ∧ m.afterWord.dictionary.text m.dictionary.nextWord.1 = word ∧
      EndsIn (source hooks) m1 (.ok () m') := by
  obtain ⟨m1, hfirst, hrest⟩ := (endsIn_source_cons_iff hs h hcap).1 hend
  obtain ⟨k, hk⟩ := hfirst.exists_forall (growing_spelled hs _)
  exact ⟨k, k, m1, hk k (k + 1) (Nat.le_refl _) (by omega), text_afterWord h hcap, hrest⟩

/-- Code that pushes a number and exits. -/
theorem returns_push {body : Addr} (h : d.CellsAt body (longLiteral v ++ [exitCell])) :
    Returns hooks call d vs body fun d' vs' => d' = d ∧ vs' = v :: vs :=
  returns_longLiteral ⟨h.1, h.2.1, trivial⟩ (returns_exit h.2.2.1 ⟨rfl, rfl⟩)

/-! ## Words while nothing is compiled -/

/-- Nothing runs, the dictionary is recorded in the book, and the words `ws` are still to be read. -/
structure Attends (m : Machine H) (limit : Addr) (kit : Fixture → Addr) (lib fs : List Definition)
    (book : Book) (ws : List (List UInt8)) : Prop where
  ip_eq : m.ip = 0
  recorded : m.dictionary.Recorded limit kit lib fs book
  reading : m.dictionary.Reading ws

namespace Attends

theorem le_capacity (h : m.Attends limit kit lib fs book ws) : 16 ≤ m.dictionary.capacity :=
  Nat.le_trans (by decide) h.recorded.linked.le_capacity

theorem afterWord (h : m.Attends limit kit lib fs book (word :: ws)) :
    m.afterWord.Attends limit kit lib fs book ws where
  ip_eq := h.ip_eq
  recorded := h.recorded.of_inputOnly m.dictionary.inputOnly_nextWord
  reading := (h.reading.cons h.le_capacity).2.2

/-- A numeral pushes its number. -/
theorem number (hs : hooks.Steady) (h : m.Attends limit kit lib fs book (word :: ws))
    (hv : Book.number? lib word = some v) (hend : EndsIn (source hooks) m (.ok () m')) :
    ∃ m1, m1.Attends limit kit lib fs book ws ∧ m.Leaves m1 (v :: m.data.cells) ∧
      m.dictionary.InputOnly m1.dictionary ∧ EndsIn (source hooks) m1 (.ok () m') := by
  obtain ⟨N, n, m1, hm1, htext, hrest⟩ := exists_of_endsIn_source_cons hs h.reading h.le_capacity hend
  have hafter := h.afterWord
  rw [interpretWord_of_number? hafter.recorded (by rw [htext]; exact hv)] at hm1
  obtain ⟨data, hpush, rfl⟩ := of_push_eq_ok hm1
  exact ⟨{ m.afterWord with data }, ⟨hafter.ip_eq, hafter.recorded, hafter.reading⟩,
    ⟨Stack.capacity_of_push? hpush, Stack.cells_of_push? hpush, rfl, rfl⟩,
    m.dictionary.inputOnly_nextWord, hrest⟩

/-- A word of which the code is known does what its code does. -/
theorem of_execute {body : Addr} (h : m.Attends limit kit lib fs book (word :: ws))
    (hbody : Layout.firstEntry ≤ body)
    (hreturns : Returns hooks call m.afterWord.dictionary m.data.cells body Q)
    (hm1 : execute hooks call n body m.afterWord = .ok () m1) :
    Q m1.dictionary m1.data.cells ∧ m.Leaves m1 m1.data.cells := by
  obtain ⟨hQ, hleaves⟩ := of_execute_eq_ok (m := m.afterWord) h.ip_eq hbody hreturns hm1
  exact ⟨hQ, hleaves.capacity_eq, rfl, hleaves.returns_eq, hleaves.ip_eq⟩

/-- A word of the kit does what its code does. -/
theorem fixture (hs : hooks.Steady) (hlib : Supplies lib kit) (w : Fixture)
    (h : m.Attends limit kit lib fs book (Text.encode w.name :: ws))
    (hreturns : ∀ call, Returns hooks call m.afterWord.dictionary m.data.cells (kit w) Q)
    (hend : EndsIn (source hooks) m (.ok () m')) :
    ∃ m1, Q m1.dictionary m1.data.cells ∧ m.Leaves m1 m1.data.cells ∧
      EndsIn (source hooks) m1 (.ok () m') := by
  obtain ⟨N, n, m1, hm1, htext, hrest⟩ := exists_of_endsIn_source_cons hs h.reading h.le_capacity hend
  rw [interpretWord_of_fixture h.afterWord.recorded hlib htext] at hm1
  have hbody := UInt16.le_iff_toNat_le.2 (h.recorded.furnished.hasCode w).le
  obtain ⟨hQ, hleaves⟩ := h.of_execute hbody (hreturns _) hm1
  exact ⟨m1, hQ, hleaves, hrest⟩

/-- The name of a variable pushes the address of its cell. -/
theorem variable_ (hs : hooks.Steady) (h : m.Attends limit kit lib fs book (word :: ws))
    (hx : book.holding? word = some (.var v)) (hend : EndsIn (source hooks) m (.ok () m')) :
    ∃ f m1, (fs.find? fun f => Text.same word f.name) = some f ∧
      m1.Attends limit kit lib fs book ws ∧
      m.Leaves m1 ((dataAddr f.body).toInt16 :: m.data.cells) ∧
      m.dictionary.InputOnly m1.dictionary ∧ EndsIn (source hooks) m1 (.ok () m') := by
  obtain ⟨N, n, m1, hm1, htext, hrest⟩ := exists_of_endsIn_source_cons hs h.reading h.le_capacity hend
  have hafter := h.afterWord
  obtain ⟨f, e, hfind, -, hcells, -, -, hlimit, -, -⟩ := hafter.recorded.exists_of_var hx
  have hbody := hafter.recorded.firstEntry_le hlimit
  rw [interpretWord_of_find?_eq_some hafter.recorded (by rw [htext]; exact hfind)] at hm1
  obtain ⟨⟨hd, hvs⟩, hleaves⟩ :=
    h.of_execute hbody (returns_push (cellsAt_var_iff.1 hcells).1) hm1
  have hreads := m.dictionary.inputOnly_nextWord
  refine ⟨f, m1, hfind, ⟨hleaves.ip_eq.trans h.ip_eq, ?_, ?_⟩, ?_, ?_, hrest⟩
  · rw [hd]
    exact hafter.recorded
  · rw [hd]
    exact hafter.reading
  · rw [← hvs]
    exact hleaves
  · rw [hd]
    exact hreads

/-- The word that changes a variable writes to its cell. -/
theorem change (hs : hooks.Steady) (hlib : Supplies lib kit) (c : Change)
    (h : m.Attends limit kit lib fs book (Text.encode c.word.name :: ws))
    (hx : book.holding? text = some (.var old))
    (hfind : (fs.find? fun f => Text.same text f.name) = some f)
    (hdata : m.data.cells = (dataAddr f.body).toInt16 :: v :: vs)
    (hend : EndsIn (source hooks) m (.ok () m')) :
    ∃ m1, m1.Attends limit kit lib fs (book.assign text (c.apply old v)) ws ∧ m.Leaves m1 vs ∧
      m1.dictionary =
        m.afterWord.dictionary.writeCell (dataAddr f.body) (c.apply old v) ∧
      EndsIn (source hooks) m1 (.ok () m') := by
  have hafter := h.afterWord
  obtain ⟨e, -, -, hfits, hle, hlimit, hnum, hold⟩ := hafter.recorded.of_var hx hfind
  have htop := m.afterWord.dictionary.here.toNat_lt
  -- the cell lies above the code of the kit, which is therefore as it was
  have hlow : limit.toNat ≤ (dataAddr f.body).toNat := by omega
  have hhigh : (dataAddr f.body).toNat + 1 < 65536 := by omega
  have hreturns : ∀ call, Returns hooks call m.afterWord.dictionary m.data.cells (kit c.word)
      fun d' vs' => d' = m.afterWord.dictionary.writeCell (dataAddr f.body) (c.apply old v) ∧
        vs' = vs := by
    intro call
    rw [hdata]
    cases c with
    | set => exact returns_storeWord hafter.recorded.furnished.equipped hlow hhigh
    | add =>
        subst hold
        exact returns_addStore hafter.recorded.furnished hlow hhigh
  obtain ⟨m1, ⟨hd, hvs⟩, hleaves, hrest⟩ := h.fixture hs hlib c.word hreturns hend
  rw [hvs] at hleaves
  refine ⟨m1, ⟨hleaves.ip_eq.trans h.ip_eq, ?_, ?_⟩, hleaves, hd, hrest⟩
  · rw [hd]
    exact hafter.recorded.assign hx hfind
  · rw [hd]
    -- the words that are still to be read lie below all code
    have hfirst := UInt16.le_iff_toNat_le.1 (hafter.recorded.firstEntry_le hlimit)
    rw [toNat_firstEntry] at hfirst
    exact hafter.reading.of_agreeOn (agreeOn_writeCell _ _ hhigh (.inr (by omega)))

/-- `variable` enters a variable with the next word as its name. -/
theorem makeVar (hs : hooks.Steady) (hlib : Supplies lib kit)
    (h : m.Attends limit kit lib fs book (Text.encode Fixture.var.name :: word :: ws))
    (hfree : Book.isFree lib word = true) (hend : EndsIn (source hooks) m (.ok () m')) :
    ∃ f m1, m1.Attends limit kit lib (f :: fs) ((word, .var 0) :: book) ws ∧
      m.Leaves m1 m.data.cells ∧ EndsIn (source hooks) m1 (.ok () m') := by
  have hafter := h.afterWord
  have hrec := hafter.recorded
  obtain ⟨m1, ⟨hvs, f, rfl, hmade⟩, hleaves, hrest⟩ := h.fixture hs hlib .var
    (fun call => returns_var hrec.furnished hrec.linked hrec.furnished.limit_le hrec.resting
      hafter.reading) hend
  rw [hvs] at hleaves
  exact ⟨f, m1, ⟨hleaves.ip_eq.trans h.ip_eq, hrec.cons hmade hfree (.inl rfl), hmade.reading⟩,
    hleaves, hrest⟩

/-- `constant` enters a constant of the top cell with the next word as its name. -/
theorem makeConst (hs : hooks.Steady) (hlib : Supplies lib kit)
    (h : m.Attends limit kit lib fs book (Text.encode Fixture.const.name :: word :: ws))
    (hfree : Book.isFree lib word = true) (hdata : m.data.cells = v :: vs)
    (hend : EndsIn (source hooks) m (.ok () m')) :
    ∃ f m1, m1.Attends limit kit lib (f :: fs) ((word, .const v) :: book) ws ∧ m.Leaves m1 vs ∧
      EndsIn (source hooks) m1 (.ok () m') := by
  have hafter := h.afterWord
  have hrec := hafter.recorded
  obtain ⟨m1, ⟨hvs, f, rfl, hmade⟩, hleaves, hrest⟩ := h.fixture hs hlib .const
    (fun call => by
      rw [hdata]
      exact returns_const hrec.furnished hrec.linked hrec.furnished.limit_le hrec.resting
        hafter.reading) hend
  rw [hvs] at hleaves
  exact ⟨f, m1, ⟨hleaves.ip_eq.trans h.ip_eq, hrec.cons hmade hfree (.inl rfl), hmade.reading⟩,
    hleaves, hrest⟩

/-- `:` begins a definition with the next word as its name. -/
theorem colon (hs : hooks.Steady) (hlib : Supplies lib kit)
    (h : m.Attends limit kit lib fs book (Text.encode Primitive.colon.name :: word :: ws))
    (hend : EndsIn (source hooks) m (.ok () m')) :
    ∃ f m1, f.name = word ∧ m.afterWord.dictionary.Making m1.dictionary limit kit (fs ++ lib)
        m.afterWord.dictionary.here.toNat f [] ws ∧
      m.Leaves m1 (f.addr.toInt16 :: m.data.cells) ∧ EndsIn (source hooks) m1 (.ok () m') := by
  obtain ⟨N, n, m1, hm1, htext, hrest⟩ := exists_of_endsIn_source_cons hs h.reading h.le_capacity hend
  have hafter := h.afterWord
  have hrec := hafter.recorded
  obtain ⟨hinput, hnext, hwords⟩ := hafter.reading.cons hafter.le_capacity
  rw [interpretWord_of_colon hrec hlib htext] at hm1
  -- the name is in the input, so no more is asked for
  have hread := colon_eq_of_hasInput hooks (interpreter hooks N) n hafter.reading.buffered hinput
  have hcolon := of_execute_token_eq_ok (p := .colon) rfl (fun m2 => by
      rw [hread]
      exact (neverExits_noteEntry.bind fun _ => neverExits_beginNext) _ m2)
    (fun m2 hm2 => by
      rw [hread] at hm2
      obtain ⟨f, hstarted⟩ := exists_started_of_eq_ok hrec.linked hrec.resting hafter.reading.buffered
        hinput hm2
      exact hstarted.ip_eq.trans h.ip_eq) hm1
  rw [hread] at hcolon
  obtain ⟨f, hstarted⟩ := exists_started_of_eq_ok hrec.linked hrec.resting hafter.reading.buffered
    hinput hcolon
  exact ⟨f, m1, hstarted.name_eq.trans hnext,
    hstarted.making hrec.furnished hrec.furnished.limit_le hwords,
    ⟨Stack.capacity_of_push? hstarted.push_eq, Stack.cells_of_push? hstarted.push_eq,
      hstarted.returns_eq, hstarted.ip_eq⟩, hrest⟩

end Attends

/-! ## Words of a definition -/

section Making

variable {d0 : Dictionary}

/-- A source that succeeds has succeeded with its first word, and the definition is as it was. -/
theorem exists_of_endsIn_making (hs : hooks.Steady)
    (h : d0.Making m.dictionary limit kit (fs ++ lib) top f code (word :: ws))
    (hend : EndsIn (source hooks) m (.ok () m')) :
    ∃ N n m1, interpretWord hooks (interpreter hooks N) (n + 1) m.dictionary.nextWord.1 m.afterWord =
        .ok () m1 ∧ m.afterWord.dictionary.text m.dictionary.nextWord.1 = word ∧
      d0.Making m.afterWord.dictionary limit kit (fs ++ lib) top f code ws ∧
      EndsIn (source hooks) m1 (.ok () m') := by
  have hcap : 16 ≤ m.dictionary.capacity :=
    Nat.le_trans (by decide) h.unfinished.linked.le_capacity
  obtain ⟨N, n, m1, hm1, htext, hrest⟩ := exists_of_endsIn_source_cons hs h.reading hcap hend
  exact ⟨N, n, m1, hm1, htext,
    h.of_inputOnly m.dictionary.inputOnly_nextWord (h.reading.cons hcap).2.2, hrest⟩

/-- A word that can be compiled adds cells to the code. -/
theorem exists_of_compiles (hs : hooks.Steady) (h0 : d0.Recorded limit kit lib fs book)
    (h : d0.Making m.dictionary limit kit (fs ++ lib) top f code (word :: ws))
    (hc : book.compiles lib word = true) (hend : EndsIn (source hooks) m (.ok () m')) :
    ∃ vs d, d0.Making d limit kit (fs ++ lib) top f (code ++ vs) ws ∧
      EndsIn (source hooks) { m with dictionary := d } (.ok () m') := by
  obtain ⟨N, n, m1, hm1, htext, hafter, hrest⟩ := exists_of_endsIn_making hs h hend
  have hlinked := hafter.unfinished.linked
  have hshows := hafter.unfinished.shows
  have hcompiling := hafter.unfinished.progress.compiling_eq
  -- of a definition its address is compiled, of a primitive its token, of a number its literal
  obtain ⟨vs, heq⟩ : ∃ vs : List Cell, interpretWord hooks (interpreter hooks N) (n + 1)
      m.dictionary.nextWord.1 m.afterWord = onDictionary (vs.forM append) m.afterWord := by
    have hcases := h0.cases_of_compiles hc
    rw [← htext] at hcases
    rcases hcases with ⟨g, hfind, himmediate⟩ | ⟨hfind, ⟨p, hp, himmediate⟩ | ⟨hp, v, hv⟩⟩
    · have hmeaning := hlinked.meaning_of_find?_eq_some hshows hfind
      rw [himmediate] at hmeaning
      exact ⟨_, interpretWord_of_compiling hmeaning hcompiling⟩
    · have hmeaning := hlinked.meaning_of_primitive hshows hfind hp
      rw [himmediate] at hmeaning
      exact ⟨_, interpretWord_of_compiling hmeaning hcompiling⟩
    · have hmeaning := hlinked.meaning_eq_unknown hshows hfind hp
      rw [← hlinked.base_eq] at hv
      exact ⟨literalCells v, (interpretWord_eq_interpretLiteral hmeaning hv).trans
        (interpretLiteral_of_compiling hcompiling v)⟩
  rw [heq] at hm1
  obtain ⟨d, happend, rfl⟩ := exists_of_onDictionary_eq_ok hm1
  exact ⟨vs, d, hafter.append happend, hrest⟩

/-- The words of a definition are compiled one after the other. The induction is on the words, whatever
the code before them is. -/
theorem exists_of_compiles_all (hs : hooks.Steady) (h0 : d0.Recorded limit kit lib fs book)
    {body : List (List UInt8)} (h : d0.Making m.dictionary limit kit (fs ++ lib) top f code (body ++ ws))
    (hc : ∀ text ∈ body, book.compiles lib text = true)
    (hend : EndsIn (source hooks) m (.ok () m')) :
    ∃ code' d, d0.Making d limit kit (fs ++ lib) top f code' ws ∧
      EndsIn (source hooks) { m with dictionary := d } (.ok () m') := by
  induction body generalizing m code with
  | nil => exact ⟨code, m.dictionary, h, hend⟩
  | cons text body ih =>
      obtain ⟨htext, hbody⟩ := List.forall_mem_cons.1 hc
      obtain ⟨vs, d, hmaking, hrest⟩ := exists_of_compiles hs h0 h htext hend
      exact ih (m := { m with dictionary := d }) hmaking hbody hrest

/-- `;` finishes the definition. -/
theorem made_of_semicolon (hs : hooks.Steady) (hlib : Supplies lib kit)
    (h0 : d0.Recorded limit kit lib fs book)
    (h : d0.Making m.dictionary limit kit (fs ++ lib) top f code
      (Text.encode Primitive.semicolon.name :: ws)) (hip : m.ip = 0)
    (hdata : m.data.cells = f.addr.toInt16 :: vs) (hend : EndsIn (source hooks) m (.ok () m')) :
    ∃ m1, d0.Made m1.dictionary limit kit (fs ++ lib) top f code ws ∧ m.Leaves m1 vs ∧
      EndsIn (source hooks) m1 (.ok () m') := by
  obtain ⟨N, n, m1, hm1, htext, hafter, hrest⟩ := exists_of_endsIn_making hs h hend
  have hprimitive : Primitive.ofName? (Text.encode Primitive.semicolon.name) = some .semicolon := by
    decide
  have hfind := (h0.find?_of_not_free (Book.isFree_of_primitive hprimitive)).trans hlib.semicolon
  rw [← htext] at hfind hprimitive
  have hmeaning := hafter.unfinished.linked.meaning_of_primitive hafter.unfinished.shows hfind
    hprimitive
  -- `;` is immediate, so it is executed although the definition is being compiled
  rw [interpretWord_eq_execute hmeaning (.inr rfl)] at hm1
  obtain ⟨data, hpop, hcells, hdataCap⟩ := Stack.exists_pop? hdata
  have hended : ∀ m2, semicolon m.afterWord = .ok () m2 →
      m.afterWord.Ended m2 (fs ++ lib) f code :=
    fun m2 => ended_of_semicolon_eq_ok hafter.unfinished hpop
  have hm1 := hended m1 (of_execute_token_eq_ok (p := .semicolon) rfl (neverExits_semicolon _)
    (fun m2 hm2 => (hended m2 hm2).ip_eq.trans hip) hm1)
  obtain rfl : data = m1.data := congrArg Prod.snd (Option.some.inj (hpop.symm.trans hm1.pop_eq))
  exact ⟨m1, hafter.made hm1.publishes hm1.linked hm1.resting,
    ⟨hdataCap, hcells, hm1.returns_eq, hm1.ip_eq⟩, hrest⟩

end Making

/-! ## Lines -/

namespace Attends

/-- The words that change a variable write its cell, and nothing else is written. -/
theorem exists_of_change (hs : hooks.Steady) (hlib : Supplies lib kit) {c : Change}
    (h : m.Attends limit kit lib fs book (Posting.change c word v text).words)
    (hv : Book.number? lib word = some v) (hx : book.holding? text = some (.var old))
    (hend : EndsIn (source hooks) m (.ok () m')) :
    ∃ f d, (fs.find? fun f => Text.same text f.name) = some f ∧ m.dictionary.InputOnly d ∧
      m'.dictionary = d.writeCell (dataAddr f.body) (c.apply old v) ∧
      m'.Attends limit kit lib fs (book.assign text (c.apply old v)) [] ∧
      m.Leaves m' m.data.cells := by
  obtain ⟨m1, h1, hleaves1, hreads1, hend1⟩ := h.number hs hv hend
  obtain ⟨f, m2, hfind, h2, hleaves2, hreads2, hend2⟩ := h1.variable_ hs hx hend1
  obtain ⟨m3, h3, hleaves3, hd, hend3⟩ := h2.change hs hlib c hx hfind
    (hleaves2.cells_eq.trans (by rw [hleaves1.cells_eq])) hend2
  obtain rfl := (endsIn_source_nil_iff h3.reading).1 hend3
  exact ⟨f, _, hfind, (hreads1.trans hreads2).trans m2.dictionary.inputOnly_nextWord, hd, h3,
    (hleaves1.trans hleaves2).trans hleaves3⟩

/-- Words that are entered change the book. -/
theorem exists_of_posting (hs : hooks.Steady) (hlib : Supplies lib kit) {p : Posting}
    (h : m.Attends limit kit lib fs book p.words) (hfits : p.Fits lib book)
    (hend : EndsIn (source hooks) m (.ok () m')) :
    ∃ fs', m'.Attends limit kit lib fs' (book.post p) [] ∧ m.Leaves m' m.data.cells := by
  cases p with
  | var name =>
      obtain ⟨f, m1, h1, hleaves1, hend1⟩ := h.makeVar hs hlib hfits hend
      obtain rfl := (endsIn_source_nil_iff h1.reading).1 hend1
      exact ⟨f :: fs, h1, hleaves1⟩
  | const numeral v name =>
      obtain ⟨m1, h1, hleaves1, -, hend1⟩ := h.number hs hfits.1 hend
      obtain ⟨f, m2, h2, hleaves2, hend2⟩ := h1.makeConst hs hlib hfits.2 hleaves1.cells_eq hend1
      obtain rfl := (endsIn_source_nil_iff h2.reading).1 hend2
      exact ⟨f :: fs, h2, hleaves1.trans hleaves2⟩
  | define name body =>
      -- `:` leaves the address of the entry on the stack, and `;` takes it
      obtain ⟨f, m1, rfl, h1, hleaves1, hend1⟩ := h.colon hs hlib hend
      have hrec := h.afterWord.recorded
      obtain ⟨code, d, h2, hend2⟩ := exists_of_compiles_all hs hrec h1 hfits.2 hend1
      obtain ⟨m3, h3, hleaves3, hend3⟩ := made_of_semicolon (m := { m1 with dictionary := d }) hs
        hlib hrec h2 (hleaves1.ip_eq.trans h.ip_eq) hleaves1.cells_eq hend2
      obtain rfl := (endsIn_source_nil_iff h3.reading).1 hend3
      have hleaves := hleaves1.trans (⟨hleaves3.capacity_eq, hleaves3.cells_eq, hleaves3.returns_eq,
        hleaves3.ip_eq⟩ : m1.Leaves m' m.data.cells)
      exact ⟨f :: fs, ⟨hleaves.ip_eq.trans h.ip_eq, hrec.cons h3 hfits.1 (.inr rfl), h3.reading⟩,
        hleaves⟩
  | change c numeral v name =>
      obtain ⟨old, hold⟩ := Book.holdsVar_iff.1 hfits.2
      obtain ⟨f, d, -, -, -, h1, hleaves1⟩ := h.exists_of_change hs hlib hfits.1 hold hend
      rw [Book.post_change hold]
      exact ⟨fs, h1, hleaves1⟩

end Attends

/-- Nothing runs, and the dictionary is recorded in the book. -/
structure Keeps (m : Machine H) (limit : Addr) (kit : Fixture → Addr) (lib fs : List Definition)
    (book : Book) : Prop where
  ip_eq : m.ip = 0
  recorded : m.dictionary.Recorded limit kit lib fs book

namespace Keeps

variable {line : List UInt8} {lines : List (List UInt8)} {ps : List Posting}

/-- A line is read from its first word on. -/
theorem exists_attends (hs : hooks.Steady) (h : m.Keeps limit kit lib fs book)
    (hline : LineOf line ws) : ∃ d, m.dictionary.InputOnly d ∧
      ({ m with dictionary := d } : Machine H).Attends limit kit lib fs book ws ∧
      ∀ r, EndsIn (fun _ n => interpretLine hooks n line) m r ↔
        EndsIn (source hooks) { m with dictionary := d } r := by
  obtain ⟨d, hload, hinput, hreading⟩ :=
    hline.exists_loadInput_eq_ok h.recorded.linked.le_capacity
  exact ⟨d, hinput, ⟨h.ip_eq, h.recorded.of_inputOnly hinput, hreading⟩,
    fun r => endsIn_interpretLine_iff hs hload⟩

/-- A line that is entered changes the book, and leaves the stacks as they were. -/
theorem of_line (hs : hooks.Steady) (hlib : Supplies lib kit) (h : m.Keeps limit kit lib fs book)
    {p : Posting} (hline : LineOf line p.words) (hfits : p.Fits lib book)
    (hend : EndsIn (fun _ n => interpretLine hooks n line) m (.ok () m')) :
    (∃ fs', m'.Keeps limit kit lib fs' (book.post p)) ∧ m'.data = m.data ∧
      m'.returns = m.returns := by
  obtain ⟨d, -, hattends, hiff⟩ := h.exists_attends hs hline
  obtain ⟨fs', h', hleaves⟩ := hattends.exists_of_posting hs hlib hfits ((hiff _).1 hend)
  exact ⟨⟨fs', h'.ip_eq, h'.recorded⟩, Stack.ext hleaves.capacity_eq hleaves.cells_eq,
    hleaves.returns_eq⟩

/-- Lines that are entered change the book, one after the other. -/
theorem of_lines (hs : hooks.Steady) (hlib : Supplies lib kit) (h : m.Keeps limit kit lib fs book)
    (hlines : List.Forall₂ (fun line (p : Posting) => LineOf line p.words) lines ps)
    (hfit : Posting.AllFit lib book ps)
    (hend : EndsIn (lineByLine hooks lines) m (.ok () m')) :
    (∃ fs', m'.Keeps limit kit lib fs' (book.postAll ps)) ∧ m'.data = m.data ∧
      m'.returns = m.returns := by
  induction hlines generalizing m fs book with
  | nil =>
      cases endsIn_lineByLine_nil.1 hend
      exact ⟨⟨fs, h⟩, rfl, rfl⟩
  | @cons line p lines ps hline _ ih =>
      obtain ⟨m1, hfirst, hrest⟩ := (endsIn_lineByLine_cons_iff hs).1 hend
      obtain ⟨⟨fs1, h1⟩, hdata1, hreturns1⟩ := h.of_line hs hlib hline hfit.1 hfirst
      obtain ⟨h', hdata, hreturns⟩ := ih h1 hfit.2 hrest
      exact ⟨h', hdata.trans hdata1, hreturns.trans hreturns1⟩

end Keeps

end Machine

end ThreadedForth
