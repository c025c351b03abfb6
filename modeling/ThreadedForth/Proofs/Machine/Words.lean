import ThreadedForth.Proofs.Machine.Compile

/-!
# Words made of items

An item is a number, an operator, or a word whose body is made of items. What items do to the data
stack is `runItems`, and how they lie in memory as code is `ItemsAt`. Code that lies so does what
the items do (`does_of_itemsAt`), and to compile items is to lay them so (`itemsAt_of_compiles`).
So a new word does what its items do one after the other: the main result,
`execute_eq_interpret_of_defines`.
-/

set_option autoImplicit false

namespace ThreadedForth

/-- What a body can consist of. -/
inductive Item where
  | literal (v : Cell)
  | operator (op : Operator)
  /-- A word compiled before, with the items of its body. -/
  | word (body : Addr) (items : List Item)

namespace Item

/-! ## Meaning -/

mutual

/-- What an item does to the data stack. -/
def run : Item → StackM Unit
  | literal v => StackM.push v
  | operator op => op.apply
  | word _ items => runItems items

/-- What items do one after the other. -/
def runItems : List Item → StackM Unit
  | [] => pure ()
  | i :: is => do
    run i
    runItems is

end

mutual

/-- How deep the calls in an item are nested. -/
def depth : Item → Nat
  | literal _ => 0
  | operator _ => 0
  | word _ items => depthOfItems items + 1

/-- How deep the calls in items are nested. -/
def depthOfItems : List Item → Nat
  | [] => 0
  | i :: is => max (depth i) (depthOfItems is)

end

/-- Induction over lists of items along with the bodies of their words. -/
theorem listInduction {motive : List Item → Prop} (nil : motive [])
    (literal : ∀ v is, motive is → motive (.literal v :: is))
    (operator : ∀ op is, motive is → motive (.operator op :: is))
    (word : ∀ body items is, motive items → motive is → motive (.word body items :: is)) :
    ∀ is, motive is := by
  refine @Item.rec_1 (fun i => ∀ is, motive is → motive (i :: is)) motive
    literal operator (fun body items ih is => word body items is ih) nil fun i is hi his => hi is his

/-! ## Code -/

/-- The cells that an item is compiled to. -/
def cells : Item → List Cell
  | literal v => literalCells v
  | operator op => [(Primitive.operator op).token.toInt16]
  | word body _ => [body.toInt16]

end Item

namespace Dictionary

mutual

/-- The word of an item has its code in memory, below `limit`. -/
def HasWord (d : Dictionary) (limit : Nat) : Item → Prop
  | .literal _ => True
  | .operator _ => True
  | .word body items => Layout.firstEntry ≤ body ∧ ∃ stop : Addr, d.ItemsAt limit items body stop ∧
      d.readCell stop = Primitive.exit.token.toInt16 ∧ stop.toNat + 2 ≤ limit

/-- The cells of items lie from one address up to another, and their words have their code in
memory. -/
def ItemsAt (d : Dictionary) (limit : Nat) : List Item → Addr → Addr → Prop
  | [], a, b => a = b
  | i :: is, a, b => d.HasWord limit i ∧ d.CellsAt a i.cells ∧
      a.toNat + 2 * i.cells.length < 65536 ∧ d.ItemsAt limit is (after a i.cells) b

end

theorem itemsAt_nil {d : Dictionary} {limit : Nat} {a b : Addr} :
    d.ItemsAt limit [] a b ↔ a = b := by rw [ItemsAt]

theorem itemsAt_cons {d : Dictionary} {limit : Nat} {i : Item} {is : List Item} {a b : Addr} :
    d.ItemsAt limit (i :: is) a b ↔ d.HasWord limit i ∧ d.CellsAt a i.cells ∧
      a.toNat + 2 * i.cells.length < 65536 ∧ d.ItemsAt limit is (after a i.cells) b := by
  rw [ItemsAt]

variable {d d' : Dictionary} {limit limit' lo hi : Nat} {i : Item} {is : List Item} {a b : Addr}

theorem ItemsAt.le (h : d.ItemsAt limit is a b) : a.toNat ≤ b.toNat := by
  induction is generalizing a with
  | nil =>
      obtain rfl := itemsAt_nil.1 h
      exact Nat.le_refl _
  | cons i is ih =>
      obtain ⟨-, -, htop, hrest⟩ := itemsAt_cons.1 h
      have hle := ih hrest
      rw [toNat_after htop] at hle
      omega

theorem ItemsAt.cons_of_agreeOn (h : d.ItemsAt limit (i :: is) a b) (hd : d.AgreeOn d' lo hi)
    (hlo : lo ≤ a.toNat) (hhi : b.toNat ≤ hi) (hword : d'.HasWord limit' i)
    (hrest : ∀ a', d.ItemsAt limit is a' b → lo ≤ a'.toNat → d'.ItemsAt limit' is a' b) :
    d'.ItemsAt limit' (i :: is) a b := by
  obtain ⟨-, hcells, htop, hafter⟩ := itemsAt_cons.1 h
  have hnum := toNat_after htop
  have hb := hafter.le
  refine itemsAt_cons.2 ⟨hword, hcells.of_agreeOn hd hlo (by omega) htop, htop, ?_⟩
  exact hrest _ hafter (by omega)

/-- Code is kept with its bytes and those of all definitions below it. -/
theorem ItemsAt.of_agreeOn (h : d.ItemsAt limit is a b) (hlimit : d.AgreeOn d' 96 limit)
    (htop : limit ≤ 65536) (hle : limit ≤ limit') (hd : d.AgreeOn d' lo hi)
    (hlo : lo ≤ a.toNat) (hhi : b.toNat ≤ hi) : d'.ItemsAt limit' is a b := by
  induction is using Item.listInduction generalizing a b lo hi with
  | nil => exact itemsAt_nil.2 (itemsAt_nil.1 h)
  | literal v is ih =>
      exact h.cons_of_agreeOn hd hlo hhi trivial fun a' h' hlo' => ih h' hd hlo' hhi
  | operator op is ih =>
      exact h.cons_of_agreeOn hd hlo hhi trivial fun a' h' hlo' => ih h' hd hlo' hhi
  | word body items is ihitems ih =>
      -- the body of the word lies below the limit, wherever the call of it lies
      refine h.cons_of_agreeOn hd hlo hhi ?_ fun a' h' hlo' => ih h' hd hlo' hhi
      obtain ⟨hbody, stop, hitems, hexit, hstop⟩ := (itemsAt_cons.1 h).1
      have hfirst : 96 ≤ body.toNat := UInt16.le_iff_toNat_le.1 hbody
      have hbs := hitems.le
      refine ⟨hbody, stop, ihitems hitems hlimit hfirst (by omega), ?_, by omega⟩
      rw [hlimit.readCell (by omega) hstop (by omega), hexit]

theorem HasWord.of_agreeOn (h : d.HasWord limit i) (hd : d.AgreeOn d' 96 limit)
    (htop : limit ≤ 65536) (hle : limit ≤ limit') : d'.HasWord limit' i := by
  cases i with
  | literal v => trivial
  | operator op => trivial
  | word body items =>
      rcases h with ⟨hbody, stop, hitems, hexit, hstop⟩
      have hfirst : 96 ≤ body.toNat := UInt16.le_iff_toNat_le.1 hbody
      have hbs := hitems.le
      refine ⟨hbody, stop, hitems.of_agreeOn hd htop hle hd hfirst (by omega), ?_, by omega⟩
      rw [hd.readCell (by omega) hstop (by omega), hexit]

end Dictionary

namespace Machine

variable {H : Type} {hooks : Hooks H} {call : Interpreter H} {n : Nat} {m m' : Machine H}

/-! ## Running the code of items -/

/-- Code does what its items do. -/
theorem does_of_itemsAt {d : Dictionary} {limit : Nat} {is : List Item} {a b : Addr}
    (h : d.ItemsAt limit is a b) (ha : Layout.firstEntry.toNat ≤ a.toNat) (s : Stack) :
    Does hooks call d (Item.depthOfItems is) a b s (Item.runItems is s) := by
  induction is using Item.listInduction generalizing a b s with
  | nil =>
      obtain rfl := Dictionary.itemsAt_nil.1 h
      rw [Item.runItems]
      exact .refl d _ a s
  | literal v is ih =>
      obtain ⟨-, hcells, htop, hrest⟩ := Dictionary.itemsAt_cons.1 h
      have hafter := toNat_after htop
      rw [Item.runItems, Item.run, Item.depthOfItems, Item.depth, Nat.zero_max]
      exact .bind ((does_literal s hcells).mono (Nat.zero_le _))
        fun s' => ih hrest (by omega) s'
  | operator op is ih =>
      obtain ⟨-, hcells, htop, hrest⟩ := Dictionary.itemsAt_cons.1 h
      have hafter := toNat_after htop
      rw [Item.runItems, Item.run, Item.depthOfItems, Item.depth, Nat.zero_max]
      exact .bind ((does_operator s hcells.1).mono (Nat.zero_le _))
        fun s' => ih hrest (by omega) s'
  | word body items is ihitems ih =>
      -- the call needs one cell of the return stack more than the body
      obtain ⟨⟨hbody, stop, hitems, hexit, -⟩, hcells, htop, hrest⟩ := Dictionary.itemsAt_cons.1 h
      have hafter := toNat_after htop
      have hne : a ≠ 0 := fun h0 => by
        rw [h0] at ha
        exact absurd ha (by decide)
      rw [Item.runItems, Item.run, Item.depthOfItems, Item.depth]
      refine .bind ?_ fun s' => (ih hrest (by omega) s').mono (Nat.le_max_right _ _)
      have hdoes := ihitems hitems (UInt16.le_iff_toNat_le.1 hbody) s
      exact (does_call s hbody hne hcells.1 hexit hdoes).mono (Nat.le_max_left _ _)

/-! ## Items in source text -/

/-- What is written stands for an item. -/
inductive Denotes (d : Dictionary) : Written → Item → Prop
  | number (v : Cell) : Denotes d (.number v) (.literal v)
  | numeral {s : Span} {v : Cell} (unknown : d.meaning s = .unknown)
      (read : Numeral.read? d.base (d.text s) = some v) : Denotes d (.name s) (.literal v)
  | operator {s : Span} {op : Operator}
      (known : d.meaning s = .known (Primitive.operator op).token false) :
      Denotes d (.name s) (.operator op)
  | word {s : Span} {body : Addr} (items : List Item) (known : d.meaning s = .known body false) :
      Denotes d (.name s) (.word body items)

instance (d : Dictionary) : ∀ (w : Written) (i : Item), Decidable (Denotes d w i)
  | .number v, .literal v' =>
    decidable_of_iff (v = v') ⟨fun h => h ▸ .number v, fun h => by cases h; rfl⟩
  | .name s, .literal v =>
    decidable_of_iff (d.meaning s = .unknown ∧ Numeral.read? d.base (d.text s) = some v)
      ⟨fun h => .numeral h.1 h.2, fun h => by cases h with | numeral h h' => exact ⟨h, h'⟩⟩
  | .name s, .operator op =>
    decidable_of_iff (d.meaning s = .known (Primitive.operator op).token false)
      ⟨.operator, fun h => by cases h with | operator h => exact h⟩
  | .name s, .word body items =>
    decidable_of_iff (d.meaning s = .known body false)
      ⟨.word items, fun h => by cases h with | word _ h => exact h⟩
  | .number _, .operator _ => isFalse nofun
  | .number _, .word _ _ => isFalse nofun

/-- What is written, one after the other, stands for items. -/
inductive DenotesAll (d : Dictionary) : List Written → List Item → Prop
  | nil : DenotesAll d [] []
  | cons {w : Written} {i : Item} {ws : List Written} {is : List Item} (head : Denotes d w i)
      (tail : DenotesAll d ws is) : DenotesAll d (w :: ws) (i :: is)

theorem denotesAll_of_forall {d : Dictionary} {ps : List (Written × Item)}
    (h : ∀ p ∈ ps, Denotes d p.1 p.2) : DenotesAll d (ps.map Prod.fst) (ps.map Prod.snd) := by
  induction ps with
  | nil => exact .nil
  | cons p ps ih =>
      exact .cons (h p List.mem_cons_self) (ih fun q hq => h q (List.mem_cons_of_mem p hq))

/-- While a definition is compiled, an item adds its cells. -/
theorem interpretWritten_of_compiling {w : Written} {i : Item} (h : Denotes m.dictionary w i)
    (hcompiling : m.dictionary.compiling = true) :
    interpretWritten hooks call n w m = onDictionary (i.cells.forM Dictionary.append) m := by
  cases h with
  | number v => exact interpretLiteral_of_compiling hcompiling v
  | @numeral s v unknown read =>
      calc interpretWord hooks call n s m
          = interpretLiteral v m := interpretWord_eq_interpretLiteral unknown read
        _ = onDictionary ((literalCells v).forM Dictionary.append) m :=
            interpretLiteral_of_compiling hcompiling v
  | operator known => exact interpretWord_of_compiling known hcompiling
  | word items known => exact interpretWord_of_compiling known hcompiling

variable (hooks call) in
/-- While nothing is compiled, an item does at once what it does. -/
theorem exists_interpretWritten_endsAs {d : Dictionary} {limit : Nat} {w : Written} {i : Item}
    (h : Denotes d w i) (hcompiling : d.compiling = false) (hword : d.HasWord limit i)
    (s returns : Stack) (host : H) (hroom : returns.depth + i.depth ≤ returns.capacity) :
    ∃ k, ∀ n, EndsAs ⟨d, s, returns, 0, host⟩ (i.run s)
      (interpretWritten hooks call (n + k) w ⟨d, s, returns, 0, host⟩) := by
  have hliteral : ∀ v, EndsAs (⟨d, s, returns, 0, host⟩ : Machine H) (StackM.push v s)
      (interpretLiteral v ⟨d, s, returns, 0, host⟩) := by
    intro v
    rw [interpretLiteral_of_not_compiling hcompiling, push, onData]
    cases StackM.push v s with
    | ok u s' => rfl
    | error e s' => exact ⟨_, rfl, rfl⟩
  cases h with
  | number v =>
      rw [Item.run]
      exact ⟨0, fun n => hliteral v⟩
  | numeral unknown read =>
      rw [Item.run]
      refine ⟨0, fun n => ?_⟩
      rw [interpretWritten,
        interpretWord_eq_interpretLiteral (m := ⟨d, s, returns, 0, host⟩) unknown read]
      exact hliteral _
  | operator known =>
      rw [Item.run]
      refine ⟨0, fun n => ?_⟩
      rw [interpretWritten, interpretWord_eq_execute (m := ⟨d, s, returns, 0, host⟩) known
        (Or.inl hcompiling)]
      exact execute_operator ..
  | word items known =>
      rcases hword with ⟨hbody, stop, hitems, hexit, -⟩
      rw [Item.depth] at hroom
      have hdoes : Does hooks call d (Item.depthOfItems items) _ stop s (Item.runItems items s) :=
        does_of_itemsAt hitems (UInt16.le_iff_toNat_le.1 hbody) s
      obtain ⟨k, hk⟩ := execute_of_does hbody hdoes hexit returns host (by omega)
      rw [Item.run]
      refine ⟨k, fun n => ?_⟩
      rw [interpretWritten, interpretWord_eq_execute (m := ⟨d, s, returns, 0, host⟩) known
        (Or.inl hcompiling)]
      exact hk n

variable (hooks call) in
/-- Items are interpreted one after the other. -/
theorem exists_forM_interpretWritten_endsAs {d : Dictionary} {limit : Nat} {ws : List Written}
    {is : List Item} (h : DenotesAll d ws is) (hcompiling : d.compiling = false)
    (hwords : ∀ i ∈ is, d.HasWord limit i) (s returns : Stack) (host : H)
    (hroom : returns.depth + Item.depthOfItems is ≤ returns.capacity) :
    ∃ k, ∀ n, EndsAs ⟨d, s, returns, 0, host⟩ (Item.runItems is s)
      (ws.forM (interpretWritten hooks call (n + k)) ⟨d, s, returns, 0, host⟩) := by
  induction h generalizing s with
  | nil =>
      rw [Item.runItems]
      exact ⟨0, fun n => rfl⟩
  | @cons w i ws is head tail ih =>
      rw [Item.depthOfItems] at hroom
      have hmax := Nat.le_max_left i.depth (Item.depthOfItems is)
      have hmax' := Nat.le_max_right i.depth (Item.depthOfItems is)
      obtain ⟨k, hk⟩ := exists_interpretWritten_endsAs hooks call head hcompiling
        (hwords i List.mem_cons_self) s returns host (by omega)
      rw [Item.runItems]
      cases hi : i.run s with
      | ok u s' =>
          obtain ⟨k', hk'⟩ := ih (fun j hj => hwords j (List.mem_cons_of_mem i hj)) s' (by omega)
          refine ⟨k + k', fun n => ?_⟩
          have hfirst := hk (n + k')
          rw [hi] at hfirst
          have heq : n + (k + k') = n + k' + k := by omega
          have heq' : n + (k + k') = n + k + k' := by omega
          rw [bind_eq_of_ok hi]
          show EndsAs _ _ ((interpretWritten hooks call (n + (k + k')) w >>= fun _ =>
            ws.forM (interpretWritten hooks call (n + (k + k')))) _)
          rw [bind_eq_of_ok (heq ▸ hfirst), heq']
          exact hk' (n + k)
      | error e s' =>
          refine ⟨k, fun n => ?_⟩
          have hfirst := hk n
          rw [hi] at hfirst
          rcases hfirst with ⟨m', hm', hdata⟩
          rw [bind_eq_of_error hi]
          exact ⟨m', bind_eq_of_error hm' _, hdata⟩

/-! ## Compiling items -/

/-- While a definition is compiled, the code of items is added to it and nothing else happens. -/
theorem itemsAt_of_compiles {items : List Item} {limit : Nat} (h : Compiles hooks call Denotes items m m')
    (hready : m.dictionary.Ready) (hcompiling : m.dictionary.compiling = true)
    (hlimit : limit ≤ m.dictionary.here.toNat)
    (hwords : ∀ i ∈ items, m.dictionary.HasWord limit i) :
    m.dictionary.Extends m'.dictionary ∧ m'.data = m.data ∧ m'.returns = m.returns ∧
      m'.ip = m.ip ∧ m'.dictionary.ItemsAt limit items m.dictionary.here m'.dictionary.here := by
  induction h with
  | nil reads =>
      exact ⟨reads.dictionary.extends hready, reads.data_eq, reads.returns_eq, reads.ip_eq,
        Dictionary.itemsAt_nil.2 reads.dictionary.here_eq.symm⟩
  | @cons n w i is m m1 m2 m' reads denotes interprets rest ih =>
      rw [interpretWritten_of_compiling denotes (reads.dictionary.compiling_eq.trans hcompiling)]
        at interprets
      obtain ⟨d2, hcells, rfl⟩ := exists_of_onDictionary_eq_ok interprets
      have hadded := (Dictionary.added_of_forM_append (reads.dictionary.ready hready) hcells)
        |>.of_inputOnly hready reads.dictionary
      have hext2 := hadded.continues.ext
      have hkept : ∀ j ∈ i :: is, d2.HasWord limit j := fun j hj =>
        (hwords j hj).of_agreeOn (hext2.agreeOn.mono (Nat.le_refl _) hlimit)
          (Nat.le_trans hlimit (Nat.le_of_lt m.dictionary.here.toNat_lt)) (Nat.le_refl _)
      obtain ⟨hext, hdata, hreturns, hip, hitems⟩ := ih (hext2.ready hready)
        (hadded.continues.compiling_eq.trans hcompiling)
        (Nat.le_trans hlimit hext2.here_le) fun j hj => hkept j (List.mem_cons_of_mem i hj)
      have hend : m.dictionary.here.toNat + 2 * i.cells.length = d2.here.toNat := by
        rw [hadded.here_eq, toNat_after hadded.fits]
      refine ⟨hext2.trans hext, hdata.trans reads.data_eq, hreturns.trans reads.returns_eq,
        hip.trans reads.ip_eq, Dictionary.itemsAt_cons.2 ⟨?_, ?_, hadded.fits, ?_⟩⟩
      · exact (hkept i List.mem_cons_self).of_agreeOn
          (hext.agreeOn.mono (Nat.le_refl _) (Nat.le_trans hlimit hext2.here_le))
          (Nat.le_trans hlimit (Nat.le_of_lt m.dictionary.here.toNat_lt)) (Nat.le_refl _)
      · exact hadded.cellsAt.of_agreeOn hext.agreeOn hready.le_here (Nat.le_of_eq hend) hadded.fits
      · rw [← hadded.here_eq]
        exact hitems

/-- A new word has its code in memory, and so have all words before it. -/
theorem hasWord_of_defines (hrefill : QuietRefill hooks call) {items : List Item} (hip : m.ip = 0)
    (hwords : ∀ i ∈ items, m.dictionary.HasWord m.dictionary.here.toNat i)
    (h : Defines hooks call Denotes items m m') :
    m'.data = m.data ∧ m'.returns = m.returns ∧ m'.ip = 0 ∧ m'.dictionary.compiling = false ∧
      (∀ i, m.dictionary.HasWord m.dictionary.here.toNat i →
        m'.dictionary.HasWord m'.dictionary.here.toNat i) ∧
      m'.dictionary.HasWord m'.dictionary.here.toNat
        (.word (m'.dictionary.entryBody m'.dictionary.latest) items) := by
  rcases h with ⟨n, n', m1, m2, hcolon, hcompiles, hsemicolon⟩
  obtain ⟨entry, hopens⟩ := opens_of_execute_eq_ok hrefill hip hcolon
  have htop : m.dictionary.here.toNat ≤ 65536 := Nat.le_of_lt m.dictionary.here.toNat_lt
  have hwords1 : ∀ i, m.dictionary.HasWord m.dictionary.here.toNat i →
      m1.dictionary.HasWord m.dictionary.here.toNat i := fun i hi =>
    hi.of_agreeOn hopens.dict_extends.agreeOn htop (Nat.le_refl _)
  obtain ⟨hext, hdata, hreturns, hip2, hitems⟩ := itemsAt_of_compiles hcompiles hopens.ready
    hopens.compiling_eq hopens.dict_extends.here_le fun i hi => hwords1 i (hwords i hi)
  have hdone := completes_of_execute_eq_ok hip hopens hext hdata hreturns hip2 hsemicolon
  have hle1 := hopens.dict_extends.here_le
  have hle2 := hext.here_le
  have hhere := hdone.toNat_here
  have hold : m.dictionary.AgreeOn m'.dictionary 96 m.dictionary.here.toNat :=
    (hopens.dict_extends.trans hext).agreeOn.trans hdone.agreeOn_below
  refine ⟨hdone.data_eq, hdone.returns_eq, hdone.ip_eq.trans hip, hdone.compiling_eq,
    fun i hi => hi.of_agreeOn hold htop (by omega), ?_⟩
  rw [hdone.body_eq]
  refine ⟨UInt16.le_iff_toNat_le.2 hopens.ready.le_here, m2.dictionary.here, ?_, hdone.exit_eq,
    Nat.le_of_eq hhere.symm⟩
  exact hitems.of_agreeOn hdone.agreeOn_below htop (by omega) hdone.agreeOn_body (Nat.le_refl _)
    (Nat.le_refl _)

/-! ## The main result -/

/-- Two programs that were begun in `m` and `m'` ended in the same way: with success, and then nothing
changed but the data stack, which is the same after both, or with the same error and the same data
stack. -/
def SameOutcome (m m' : Machine H) : EStateM.Result Stop (Machine H) Unit →
    EStateM.Result Stop (Machine H) Unit → Prop
  | .ok _ m1, .ok _ m1' => ∃ data, m1 = { m with data } ∧ m1' = { m' with data }
  | .error (.error e) m1, .error (.error e') m1' => e = e' ∧ m1.data = m1'.data
  | _, _ => False

theorem sameOutcome_of_endsAs {o : Outcome} {r r' : EStateM.Result Stop (Machine H) Unit}
    (h : EndsAs m o r) (h' : EndsAs m' o r') : SameOutcome m m' r r' := by
  cases o with
  | ok u s =>
      rw [EndsAs] at h h'
      rw [h, h']
      exact ⟨s, rfl, rfl⟩
  | error e s =>
      rcases h with ⟨m1, rfl, hm1⟩
      rcases h' with ⟨m2, rfl, hm2⟩
      exact ⟨rfl, hm1.trans hm2.symm⟩

/-- The words of items have their code in the dictionary before a definition and after it, and nothing
is compiled in either. -/
theorem hasWord_of_inputOnly (hrefill : QuietRefill hooks call) {items : List Item} (hip : m.ip = 0)
    (hcompiling : m.dictionary.compiling = false)
    (hwords : ∀ i ∈ items, m.dictionary.HasWord m.dictionary.here.toNat i)
    (h : Defines hooks call Denotes items m m') {d : Dictionary}
    (hd : m.dictionary.InputOnly d ∨ m'.dictionary.InputOnly d) :
    d.compiling = false ∧ ∃ limit, ∀ i ∈ items, d.HasWord limit i := by
  rcases hd with hd | hd
  · have htop : m.dictionary.here.toNat ≤ 65536 := Nat.le_of_lt m.dictionary.here.toNat_lt
    refine ⟨hd.compiling_eq.trans hcompiling, m.dictionary.here.toNat, fun i hi => ?_⟩
    exact (hwords i hi).of_agreeOn (hd.agreeOn_above.mono (Nat.le_refl _) htop) htop (Nat.le_refl _)
  · obtain ⟨-, -, -, hcompiling', hold, -⟩ := hasWord_of_defines hrefill hip hwords h
    have htop : m'.dictionary.here.toNat ≤ 65536 := Nat.le_of_lt m'.dictionary.here.toNat_lt
    refine ⟨hd.compiling_eq.trans hcompiling', m'.dictionary.here.toNat, fun i hi => ?_⟩
    exact (hold i (hwords i hi)).of_agreeOn (hd.agreeOn_above.mono (Nat.le_refl _) htop) htop
      (Nat.le_refl _)

/-- A new word does what its items do when they are interpreted one after the other: it ends with
the same data stack, or with the same error and the same data stack. The items are interpreted in the
dictionary before the definition, where every name still has the meaning that was compiled, or in the one
after it, if no item has the name of the new word. The return stack has to have room for the call of the
word and the deepest one in its items. -/
theorem execute_eq_interpret_of_defines (hrefill : QuietRefill hooks call) {items : List Item}
    (hip : m.ip = 0) (hcompiling : m.dictionary.compiling = false)
    (hwords : ∀ i ∈ items, m.dictionary.HasWord m.dictionary.here.toNat i)
    (h : Defines hooks call Denotes items m m') {d d' : Dictionary} (hd : m'.dictionary.InputOnly d)
    (hd' : m.dictionary.InputOnly d' ∨ m'.dictionary.InputOnly d') {ws : List Written}
    (hdenotes : DenotesAll d' ws items) (s returns : Stack) (host : H)
    (hroom : returns.depth + Item.depthOfItems items + 1 ≤ returns.capacity) :
    ∃ k, ∀ n, SameOutcome ⟨d, s, returns, 0, host⟩ ⟨d', s, returns, 0, host⟩
      (execute hooks call (n + k) (m'.dictionary.entryBody m'.dictionary.latest)
        ⟨d, s, returns, 0, host⟩)
      (ws.forM (interpretWritten hooks call (n + k)) ⟨d', s, returns, 0, host⟩) := by
  obtain ⟨-, -, -, -, -, hnew⟩ := hasWord_of_defines hrefill hip hwords h
  have htop : m'.dictionary.here.toNat ≤ 65536 := Nat.le_of_lt m'.dictionary.here.toNat_lt
  obtain ⟨hbody, stop, hitems, hexit, -⟩ :=
    hnew.of_agreeOn (hd.agreeOn_above.mono (Nat.le_refl _) htop) htop (Nat.le_refl _)
  have hdoes : Does hooks call d (Item.depthOfItems items) _ stop s (Item.runItems items s) :=
    does_of_itemsAt hitems (UInt16.le_iff_toNat_le.1 hbody) s
  obtain ⟨k, hk⟩ := execute_of_does hbody hdoes hexit returns host hroom
  obtain ⟨hcompiling', limit, hwords'⟩ := hasWord_of_inputOnly hrefill hip hcompiling hwords h hd'
  obtain ⟨k', hk'⟩ := exists_forM_interpretWritten_endsAs hooks call hdenotes hcompiling' hwords'
    s returns host (by omega)
  refine ⟨k' + k, fun n => ?_⟩
  have hexecute := hk (n + k')
  have hinterpret := hk' (n + k)
  rw [Nat.add_assoc] at hexecute hinterpret
  rw [Nat.add_comm k k'] at hinterpret
  exact sameOutcome_of_endsAs hexecute hinterpret

/-- A machine that knows the word `sq`, with a line to be read. -/
def squareMachine (line : String) : Machine Unit := lastState <|
  (do
    interpretLine {} 20 (Text.encode ": sq dup * drop ;")
    onDictionary (Dictionary.loadInput (Text.encode line)) : MachineM Unit Unit)
  (ofDictionary (.setUp ⟨.sparse (.zeros 1024)⟩) () {})

/-- The items of a new word, as they are written in a line. -/
def quad : List (Written × Item) :=
  [(.name (.ofLength 21 2), .word 100 [.operator .dup, .operator .mul, .operator .drop]),
    (.number 300, .literal 300),
    (.name (.ofLength 28 1), .operator .add),
    (.name (.ofLength 30 2), .word 100 [.operator .dup, .operator .mul, .operator .drop])]

/-- A machine before the definition of the word, and after it. -/
def quadLine : Machine Unit := squareMachine "quad sq 300 + sq"

def quadMachine : Machine Unit := afterDefinition {} (interpreter {} 20) 20 quad quadLine

/-- The code of `sq`, and nothing fails. -/
theorem quadLine_quadMachine_eq :
    (quadLine.ip = 0 ∧ quadLine.dictionary.compiling = false ∧
      quadLine.dictionary.CellsAt 100 [2, 8, 1, 25] ∧ 108 ≤ quadLine.dictionary.here.toNat) ∧
    Finishes {} (interpreter {} 20) Denotes 20 quad quadLine ∧
    ∀ p ∈ quad, Denotes quadMachine.dictionary p.1 p.2 := by
  decide +kernel

/-- The items of a new word whose name is that of its items. -/
def dupTwice : List (Written × Item) :=
  [(.name (.ofLength 20 3), .operator .dup), (.name (.ofLength 24 3), .operator .dup)]

def dupLine : Machine Unit := squareMachine "dup dup dup"

def dupMachine : Machine Unit := afterDefinition {} (interpreter {} 20) 20 dupTwice dupLine

/-- After the definition the name stands for the new word, and for the operator no more. -/
theorem dupLine_dupMachine_eq :
    (dupLine.ip = 0 ∧ dupLine.dictionary.compiling = false) ∧
    Finishes {} (interpreter {} 20) Denotes 20 dupTwice dupLine ∧
    (∀ p ∈ dupTwice, Denotes dupLine.dictionary p.1 p.2) ∧
    ∀ p ∈ dupTwice, Denotes dupMachine.dictionary p.1
      (.word (dupMachine.dictionary.entryBody dupMachine.dictionary.latest)
        (dupTwice.map Prod.snd)) := by
  decide +kernel

/-- A machine with a three on its data stack and room for two cells on the other one. -/
def holdingThree (d : Dictionary) : Machine Unit := lastState (push 3 ⟨d, .empty 64, .empty 2, 0, ()⟩)

/-- Two new words applied to three, and their items interpreted one after the other: those of the first
one after its definition, and those of the second one before it, since it takes their name. -/
theorem execute_eq_interpret_quad_dup :
    (Defines {} (interpreter {} 20) Denotes (quad.map Prod.snd) quadLine quadMachine ∧
      ∃ k, ∀ n, SameOutcome (holdingThree quadMachine.dictionary)
        (holdingThree quadMachine.dictionary)
        (execute {} (interpreter {} 20) (n + k)
          (quadMachine.dictionary.entryBody quadMachine.dictionary.latest)
          (holdingThree quadMachine.dictionary))
        ((quad.map Prod.fst).forM (interpretWritten {} (interpreter {} 20) (n + k))
          (holdingThree quadMachine.dictionary))) ∧
    Defines {} (interpreter {} 20) Denotes (dupTwice.map Prod.snd) dupLine dupMachine ∧
      (∀ p ∈ dupTwice, Denotes dupMachine.dictionary p.1
        (.word (dupMachine.dictionary.entryBody dupMachine.dictionary.latest)
          (dupTwice.map Prod.snd))) ∧
      ∃ k, ∀ n, SameOutcome (holdingThree dupMachine.dictionary) (holdingThree dupLine.dictionary)
        (execute {} (interpreter {} 20) (n + k)
          (dupMachine.dictionary.entryBody dupMachine.dictionary.latest)
          (holdingThree dupMachine.dictionary))
        ((dupTwice.map Prod.fst).forM (interpretWritten {} (interpreter {} 20) (n + k))
          (holdingThree dupLine.dictionary)) := by
  obtain ⟨⟨hip, hcompiling, ⟨hdup, hmul, hdrop, hexit, -⟩, hhere⟩, hfinishes, hdenotes⟩ :=
    quadLine_quadMachine_eq
  obtain ⟨⟨hip', hcompiling'⟩, hfinishes', hdenotes', hnew⟩ := dupLine_dupMachine_eq
  have hrefill := quietRefill_default (H := Unit) (interpreter {} 20)
  have hdefines := defines_of_finishes _ _ _ hfinishes
  have hdefines' := defines_of_finishes _ _ _ hfinishes'
  have hsquare : quadLine.dictionary.HasWord quadLine.dictionary.here.toNat
      (.word 100 [.operator .dup, .operator .mul, .operator .drop]) := by
    refine ⟨by decide, 106, ?_, hexit, hhere⟩
    refine Dictionary.itemsAt_cons.2 ⟨trivial, ⟨hdup, trivial⟩, by decide, ?_⟩
    refine Dictionary.itemsAt_cons.2 ⟨trivial, ⟨hmul, trivial⟩, by decide, ?_⟩
    exact Dictionary.itemsAt_cons.2 ⟨trivial, ⟨hdrop, trivial⟩, by decide,
      Dictionary.itemsAt_nil.2 rfl⟩
  have hwords : ∀ i ∈ quad.map Prod.snd,
      quadLine.dictionary.HasWord quadLine.dictionary.here.toNat i := by
    intro i hi
    simp only [quad, List.map_cons, List.map_nil, List.mem_cons, List.not_mem_nil, or_false] at hi
    rcases hi with rfl | rfl | rfl | rfl
    · exact hsquare
    · trivial
    · trivial
    · exact hsquare
  have hwords' : ∀ i ∈ dupTwice.map Prod.snd,
      dupLine.dictionary.HasWord dupLine.dictionary.here.toNat i := by
    intro i hi
    simp only [dupTwice, List.map_cons, List.map_nil, List.mem_cons, List.not_mem_nil, or_false] at hi
    rcases hi with rfl | rfl <;> trivial
  constructor
  · exact ⟨hdefines, execute_eq_interpret_of_defines hrefill hip hcompiling hwords hdefines (.refl _)
      (.inr (.refl _)) (denotesAll_of_forall hdenotes) _ (.empty 2) () (by decide)⟩
  · exact ⟨hdefines', hnew, execute_eq_interpret_of_defines hrefill hip' hcompiling' hwords' hdefines'
      (.refl _) (.inl (.refl _)) (denotesAll_of_forall hdenotes') _ (.empty 2) () (by decide)⟩

end Machine

end ThreadedForth
