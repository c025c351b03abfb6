import ThreadedForth.Proofs.Dictionary.CodeWalk
import ThreadedForth.Proofs.Dictionary.History
import ThreadedForth.Proofs.Machine.Run
import ThreadedForth.Terminal.Listing

/-!
# Definitions that tile the dictionary

Where definitions lie one right after the other, the code of each ends where the next one begins, so it
need not be kept where it ends. `Tiles d cs stop` says that the definitions `cs` fill the room from the
first address of a definition up to `stop`, each with the code of the tokens that it was compiled from.
The list of words then shows these tokens, and an exit after them (`listing?_of_tiled`), and calls by
the names of the definitions that they call (`nameOfBody?_of_tiled`).
-/

set_option autoImplicit false

namespace ThreadedForth

open Dictionary

/-! ## The code of a token -/

/-- The token that stands in source text for an item. -/
def CodeItem.compiled? : CodeItem → Option Token
  | .token t => some t
  | .operand .literal v => some (.literal v)
  | .operand _ _ => none

namespace Token

/-- The cells that a token is compiled to. A number can be any cell. -/
def cells : Token → List Cell
  | literal v => literalCells v
  | primitive p => [p.token.toInt16]
  | call body => [body.toInt16]

/-- What the cells of a token are read as. A number without a token of its own is an operand. -/
def item : Token → CodeItem
  | literal v => if (ofLiteral? v).isSome then .token (.literal v) else .operand .literal v
  | t => .token t

/-- The token can be compiled by itself: it is not waiting for an operand, or calls a definition. -/
def Plain : Token → Prop
  | literal _ => True
  | primitive p => p.takesOperand = false
  | call body => Layout.firstEntry ≤ body

/-- An item tells which token was compiled, whether the number is in a cell of its own or not. -/
theorem compiled?_item (t : Token) : t.item.compiled? = some t := by
  cases t with
  | literal v =>
      rw [item]
      cases ofLiteral? v <;> rfl
  | primitive p => rfl
  | call body => rfl

theorem length_cells_pos (t : Token) : 0 < t.cells.length := by
  cases t with
  | literal v =>
      rw [cells, literalCells]
      cases ofLiteral? v <;> simp
  | primitive p => exact Nat.one_pos
  | call body => exact Nat.one_pos

/-- Where the cells of a token lie, it is read. -/
theorem codeItemAt_of_cellsAt {d : Dictionary} {a : Addr} {t : Token} (ht : t.Plain)
    (h : d.CellsAt a t.cells) : d.codeItemAt a = (t.item, after a t.cells) := by
  cases t with
  | primitive p =>
      have hp : p.takesOperand = false := ht
      unfold codeItemAt
      rw [h.1, UInt16.toUInt16_toInt16, Machine.decode_token]
      simp only [hp, Bool.false_eq_true, if_false]
      rfl
  | call body =>
      unfold codeItemAt
      rw [h.1, UInt16.toUInt16_toInt16, Machine.decode_of_le ht]
      rfl
  | literal v =>
      rw [cells, literalCells] at h ⊢
      unfold codeItemAt
      cases hv : ofLiteral? v with
      | some t =>
          simp only [hv] at h ⊢
          rw [h.1, UInt16.toUInt16_toInt16, Machine.decode_of_ofLiteral? hv, item, hv]
          rfl
      | none =>
          simp only [hv] at h ⊢
          rw [h.1, h.2.1, UInt16.toUInt16_toInt16, Machine.decode_token, item, hv]
          rfl

end Token

/-! ## Definitions with their tokens -/

/-- A finished definition and the tokens that it was compiled from. -/
structure Compiled extends Definition where
  tokens : List Token

namespace Compiled

/-- The tokens of the code. -/
def closed (c : Compiled) : List Token := c.tokens ++ [.primitive .exit]

/-- The cells of the body. -/
def cells (c : Compiled) : List Cell := c.closed.flatMap Token.cells

/-- What the body is read as. -/
def code (c : Compiled) : List CodeItem := c.closed.map Token.item

end Compiled

/-- The definitions without their tokens. -/
def definitionsOf (cs : List Compiled) : List Definition := cs.map (·.toDefinition)

namespace Dictionary

variable {d d' : Dictionary} {c g : Compiled} {cs : List Compiled} {stop body a : Addr} {ts : List Token}

/-- The definitions, newest first, fill the room up to `stop`. Each has its code, and the words that it calls
are older than it. -/
inductive Tiles (d : Dictionary) : List Compiled → Addr → Prop
  | nil : Tiles d [] Layout.firstEntry
  | cons {c : Compiled} {cs : List Compiled} (older : Tiles d cs c.addr)
      (lt_body : c.addr.toNat + 2 ≤ c.body.toNat) (plain : ∀ t ∈ c.tokens, t.Plain)
      (calls : ∀ body, Token.call body ∈ c.tokens → ∃ g ∈ cs, g.body = body)
      (cellsAt : d.CellsAt c.body c.cells) (fits : c.body.toNat + 2 * c.cells.length < 65536) :
      Tiles d (c :: cs) (after c.body c.cells)

namespace Tiles

theorem le_stop (h : d.Tiles cs stop) : 96 ≤ stop.toNat := by
  induction h with
  | nil => exact Nat.le_refl 96
  | @cons c cs older lt_body plain calls cellsAt fits ih =>
      rw [toNat_after fits]
      omega

theorem stop_eq_firstEntry (h : d.Tiles [] stop) : stop = Layout.firstEntry := by
  cases h with
  | nil => rfl

/-- The definitions stay with the bytes that they fill. -/
theorem of_agreeOn (h : d.Tiles cs stop) (hd : d.AgreeOn d' 96 stop.toNat) : d'.Tiles cs stop := by
  induction h with
  | nil => exact .nil
  | @cons c cs older lt_body plain calls cellsAt fits ih =>
      have hle := older.le_stop
      have hstop := toNat_after fits
      rw [hstop] at hd
      exact .cons (ih (hd.mono (Nat.le_refl _) (by omega))) lt_body plain calls
        (cellsAt.of_agreeOn hd (by omega) (Nat.le_refl _) fits) fits

/-- The oldest definition lies at the first address. -/
theorem rooted (h : d.Tiles cs stop) (hne : cs ≠ []) : Rooted (definitionsOf cs) := by
  induction h with
  | nil => exact absurd rfl hne
  | @cons c cs older lt_body plain calls cellsAt fits ih =>
      by_cases hnil : cs = []
      · subst hnil
        generalize haddr : c.addr = a at older
        cases older with
        | nil => exact ⟨c.toDefinition, rfl, haddr⟩
      · exact (ih hnil).cons c.toDefinition

/-- A body lies below where the next definition begins. -/
theorem body_lt (h : d.Tiles cs stop) (hc : c ∈ cs) : c.body.toNat < stop.toNat := by
  induction h with
  | nil => cases hc
  | @cons newest cs older lt_body plain calls cellsAt fits ih =>
      have hpos : 0 < newest.cells.length := by simp [Compiled.cells, Compiled.closed, Token.cells]
      rw [toNat_after fits]
      rcases List.mem_cons.1 hc with rfl | hmem
      · omega
      · have hlt := ih hmem
        omega

/-- No two definitions have the same body. -/
theorem eq_of_body_eq (h : d.Tiles cs stop) (hc : c ∈ cs) (hg : g ∈ cs) (heq : c.body = g.body) : c = g := by
  induction h with
  | nil => cases hc
  | @cons e cs older lt_body plain calls cellsAt fits ih =>
      rcases List.mem_cons.1 hc with hnew | hold
      · rcases List.mem_cons.1 hg with hnew' | hold'
        · rw [hnew, hnew']
        · have hlt := older.body_lt hold'
          rw [← heq, hnew] at hlt
          omega
      · rcases List.mem_cons.1 hg with hnew' | hold'
        · have hlt := older.body_lt hold
          rw [heq, hnew'] at hlt
          omega
        · exact ih hold hold'

/-- What a definition calls is one of the others. -/
theorem exists_callee (h : d.Tiles cs stop) (hc : c ∈ cs) (hcall : Token.call body ∈ c.tokens) :
    ∃ g ∈ cs, g.body = body := by
  induction h with
  | nil => cases hc
  | @cons e cs older lt_body plain calls cellsAt fits ih =>
      obtain ⟨g, hg, heq⟩ : ∃ g ∈ cs, g.body = body := by
        rcases List.mem_cons.1 hc with rfl | hc
        · exact calls body hcall
        · exact ih hc
      exact ⟨g, List.mem_cons_of_mem e hg, heq⟩

end Tiles

/-! ## The list of words -/

/-- Code is read as the tokens that it was compiled from. -/
theorem exists_readsCode_of_cellsAt (hts : ∀ t ∈ ts, t.Plain) (h : d.CellsAt a (ts.flatMap Token.cells))
    (hfits : a.toNat + 2 * (ts.flatMap Token.cells).length < 65536) :
    ∃ as, d.ReadsCode a (after a (ts.flatMap Token.cells)) as ∧
      ts.map Token.item = as.map fun b => (d.codeItemAt b).1 := by
  induction ts generalizing a with
  | nil => exact ⟨[], .ended (UInt16.lt_irrefl a), rfl⟩
  | cons t ts ih =>
      rw [List.flatMap_cons] at h hfits ⊢
      rw [List.length_append] at hfits
      obtain ⟨hfirst, hrest⟩ := cellsAt_append.1 h
      have hnum : (after a t.cells).toNat = a.toNat + 2 * t.cells.length := toNat_after (by omega)
      have hitem := Token.codeItemAt_of_cellsAt (hts t List.mem_cons_self) hfirst
      obtain ⟨as, has, heq⟩ := ih (fun u hu => hts u (List.mem_cons_of_mem t hu)) hrest (by omega)
      rw [after_append]
      refine ⟨a :: as, .visits ?_ ?_, ?_⟩
      · have hpos := t.length_cells_pos
        rw [UInt16.lt_iff_toNat_lt, toNat_after (by omega), hnum]
        omega
      · rw [afterItem, hitem]
        exact has
      · rw [List.map_cons, List.map_cons, hitem, heq]

/-- The code of each definition ends where the next newer one begins. -/
theorem withCode?_of_tiles (h : d.Tiles cs stop) (hholds : ∀ c ∈ cs, d.Holds c.toDefinition) :
    d.withCode? stop (cs.map fun c => d.entryAt c.addr) = some (cs.map fun c => (d.entryAt c.addr, c.code)) := by
  induction h with
  | nil => rfl
  | @cons c cs older lt_body plain calls cellsAt fits ih =>
      have hbody : (d.entryAt c.addr).body = c.body := (hholds c List.mem_cons_self).entryBody_eq
      have hplain : ∀ t ∈ c.closed, t.Plain := by
        intro t ht
        rcases List.mem_append.1 ht with ht | ht
        · exact plain t ht
        · rw [List.mem_singleton.1 ht]
          exact rfl
      have hitems : d.codeItems? c.body (after c.body c.cells) = some c.code :=
        codeItems?_eq_some_iff.2 (exists_readsCode_of_cellsAt hplain cellsAt fits)
      have hrest : d.withCode? (d.entryAt c.addr).addr (cs.map fun g => d.entryAt g.addr) =
          some (cs.map fun g => (d.entryAt g.addr, g.code)) :=
        ih fun g hg => hholds g (List.mem_cons_of_mem c hg)
      rw [List.map_cons, List.map_cons, withCode?, hbody, hitems, hrest]

/-- The dictionary has these definitions and no room between them. -/
structure Tiled (d : Dictionary) (cs : List Compiled) : Prop where
  filed : d.Filed (definitionsOf cs)
  tiles : d.Tiles cs d.here

theorem Tiled.holds (h : d.Tiled cs) (hc : c ∈ cs) : d.Holds c.toDefinition :=
  h.filed.chained.holds_of_mem (List.mem_map_of_mem hc)

theorem Tiles.even_stop (h : d.Tiles cs stop) (hholds : ∀ c ∈ cs, d.Holds c.toDefinition) :
    stop.toNat % 2 = 0 := by
  cases h with
  | nil => rfl
  | @cons c cs older lt_body plain calls cellsAt fits =>
      have heven := d.toNat_entryBody_mod c.addr
      rw [(hholds c List.mem_cons_self).entryBody_eq] at heven
      rw [toNat_after fits]
      omega

namespace Tiled

theorem even_here (h : d.Tiled cs) : d.here.toNat % 2 = 0 := h.tiles.even_stop fun _ hc => h.holds hc

/-- To read source text does nothing to the definitions. -/
theorem of_inputOnly (h : d.Tiled cs) (hd : d.InputOnly d') : d'.Tiled cs where
  filed := h.filed.of_inputOnly hd
  tiles := by
    rw [hd.here_eq]
    exact h.tiles.of_agreeOn (hd.agreeOn_above.mono (Nat.le_refl _) (Nat.le_of_lt d.here.toNat_lt))

/-- A header that is marked has the code behind it. -/
theorem markLatest (h : d.Tiled (c :: cs)) : d.markLatest.Tiled ({ c with immediate := true } :: cs) := by
  have hholds := h.holds List.mem_cons_self
  have hlatest : d.latest = c.addr := h.filed.latest_eq
  have hfirst := hholds.hasHeader.le_entry
  have hlt := hholds.addr_lt_body
  have htop := c.body.toNat_lt
  rw [toNat_firstEntry] at hfirst
  have hbelow : d.AgreeOn d.markLatest 0 c.addr.toNat := by
    rw [Dictionary.markLatest, hlatest]
    exact d.agreeOn_writeCell _ (by omega) (Or.inr (Nat.le_refl _))
  have habove : d.AgreeOn d.markLatest (c.addr.toNat + 2) 65536 := by
    rw [Dictionary.markLatest, hlatest]
    exact d.agreeOn_writeCell _ (by omega) (Or.inl (Nat.le_refl _))
  have hhere : d.markLatest.here = d.here :=
    hbelow.reservedAddr (c := .here) (Nat.zero_le _) (by show 4 ≤ _; omega)
  refine ⟨filed_markLatest h.filed, ?_⟩
  have htiles := h.tiles
  rw [← hhere] at htiles
  generalize d.markLatest.here = stop at htiles ⊢
  cases htiles with
  | cons older lt_body plain calls cellsAt fits =>
      exact .cons (older.of_agreeOn (hbelow.mono (Nat.zero_le _) (Nat.le_refl _))) lt_body plain calls
        (cellsAt.of_agreeOn habove lt_body (Nat.le_of_lt fits) fits) fits

end Tiled

theorem tiled_setUp (hcap : 96 < d.capacity) : d.setUp.Tiled [] := by
  obtain ⟨hfiled, hhere⟩ := filed_setUp hcap
  refine ⟨hfiled, ?_⟩
  rw [hhere]
  exact .nil

/-- The list of words shows for each definition the tokens that it was compiled from. -/
theorem listing?_of_tiled (h : d.Tiled cs) (hne : cs ≠ []) :
    d.listing? = some (cs.map fun c => (d.entryAt c.addr, c.code)) := by
  have hentries : d.entries? = some (cs.map fun c => d.entryAt c.addr) := by
    rw [entries?_of_chained h.filed.chained h.filed.latest_eq (h.tiles.rooted hne)
      fun f hf => h.filed.isVisible hf, definitionsOf, List.map_map]
    rfl
  rw [listing?, hentries, Option.bind_some, withCode?_of_tiles h.tiles fun c hc => h.holds hc]

/-- A body is shown by the name of its definition. -/
theorem nameOfBody?_of_tiled (h : d.Tiled cs) (hg : g ∈ cs) :
    Terminal.nameOfBody? d (cs.map fun c => d.entryAt c.addr) g.body = some (Text.ofBytes g.name) := by
  have hfind : (cs.find? fun c => c.body == g.body) = some g := by
    cases hsome : cs.find? fun c => c.body == g.body with
    | none => exact absurd (beq_self_eq_true g.body) (List.find?_eq_none.1 hsome g hg)
    | some c =>
        have hbeq : (c.body == g.body) = true := List.find?_some (p := fun c : Compiled => c.body == g.body) hsome
        have hbody : c.body = g.body := beq_iff_eq.1 hbeq
        rw [h.tiles.eq_of_body_eq (List.mem_of_find?_eq_some hsome) hg hbody]
  have hbodies : ∀ c ∈ cs, ((fun e => e.body == g.body) ∘ fun c : Compiled => d.entryAt c.addr) c =
      (c.body == g.body) := by
    intro c hc
    rw [Function.comp_apply]
    show (d.entryBody c.addr == _) = _
    rw [(h.holds hc).entryBody_eq]
  rw [Terminal.nameOfBody?, List.find?_map, ← List.head?_filter, List.filter_congr hbodies,
    List.head?_filter, hfind]
  show some (Text.ofBytes (d.text (d.entryName g.addr))) = _
  rw [(h.holds hg).text_eq]

end Dictionary

end ThreadedForth
