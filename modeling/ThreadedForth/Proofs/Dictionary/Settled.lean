import ThreadedForth.Machine.Step
import ThreadedForth.Proofs.Dictionary.History
import ThreadedForth.Proofs.Dictionary.InProgress

/-!
# Finished words and the one that is begun

The words that were finished lie one after the other from where the first definition goes, each with
its header, its name and the cells of its code (`Settled d ws`). After them comes nothing
(`AtRest d ws`), or the word that is compiled (`Underway d ws w`). The code of such a word is
straight: numbers, primitives that leave the return stack alone, and calls of the words before it.

Where everything lies follows from the names and the code (`Word.Follows`), so two dictionaries with
the same words are the same from the first definition on, but for the byte that can lie between a
name and the code (`readByte_eq_or_padded`).
-/

set_option autoImplicit false

namespace ThreadedForth

/-- A definition with the cells of its code, without the exit that ends it. -/
structure Word extends Definition where
  code : List Cell
deriving DecidableEq

/-- Whether a primitive works on the data stack and leaves the return stack as it is. -/
def Primitive.isStackWord : Primitive → Bool
  | operator _ | returnDepth => true
  | _ => false

/-- The words as definitions. -/
def definitions (ws : List Word) : List Definition := ws.map (·.toDefinition)

namespace Word

/-- All cells of the code. -/
def cells (w : Word) : List Cell := w.code ++ [Primitive.exit.token.toInt16]

/-- Where the next definition goes. -/
def stop (w : Word) : Addr := after w.body w.cells

/-- The word with more code. -/
def extend (w : Word) (vs : List Cell) : Word := { w with code := w.code ++ vs }

end Word

/-- Where the next word after finished ones goes. -/
def nextAddr : List Word → Addr
  | [] => Layout.firstEntry
  | w :: _ => w.stop

/-- Code that goes from each token to the next one and calls no word but the given ones. -/
inductive Straight (ws : List Word) : List Cell → Prop
  | nil : Straight ws []
  | number (v : Cell) {code : List Cell} (rest : Straight ws code) :
      Straight ws (literalCells v ++ code)
  | primitive {p : Primitive} {code : List Cell} (hp : p.isStackWord = true)
      (rest : Straight ws code) : Straight ws (p.token.toInt16 :: code)
  | call {w : Word} {code : List Cell} (hw : w ∈ ws) (rest : Straight ws code) :
      Straight ws (w.body.toInt16 :: code)

variable {w : Word} {ws ws' : List Word} {vs code : List Cell}

theorem Straight.mono (h : Straight ws code) (hws : ∀ w ∈ ws, w ∈ ws') : Straight ws' code := by
  induction h with
  | nil => exact .nil
  | number v rest ih => exact .number v ih
  | primitive hp rest ih => exact .primitive hp ih
  | call hw rest ih => exact .call (hws _ hw) ih

theorem Straight.append (h : Straight ws vs) (hcode : Straight ws code) : Straight ws (vs ++ code) := by
  induction h with
  | nil => exact hcode
  | number v rest ih =>
      rw [List.append_assoc]
      exact .number v ih
  | primitive hp rest ih => exact .primitive hp ih
  | call hw rest ih => exact .call hw ih

/-! ## Where words lie -/

/-- The word lies where the finished ones end. -/
structure Word.Follows (w : Word) (ws : List Word) : Prop where
  addr_eq : w.addr = nextAddr ws
  immediate_eq : w.immediate = false
  name_ne_nil : w.name ≠ []
  length_le : w.name.length ≤ Header.maxNameLength
  toNat_body :
    w.body.toNat = Dictionary.bodyAt w.addr (newestAddr (definitions ws)) w.name.length
  straight : Straight ws w.code

/-- The word that `:` begins after the finished ones. -/
def Word.begin (ws : List Word) (name : List UInt8) : Word :=
  ⟨⟨nextAddr ws, name, false, UInt16.ofNat
    (Dictionary.bodyAt (nextAddr ws) (newestAddr (definitions ws)) name.length)⟩, []⟩

/-- Each word lies where the ones before it end. -/
inductive Stacked : List Word → Prop
  | nil : Stacked []
  | cons {w : Word} {ws : List Word} (older : Stacked ws) (follows : w.Follows ws)
      (fits : w.body.toNat + 2 * w.cells.length < 65536) : Stacked (w :: ws)

theorem Word.length_cells (w : Word) : w.cells.length = w.code.length + 1 := List.length_append

theorem Word.toNat_stop (h : w.body.toNat + 2 * w.cells.length < 65536) :
    w.stop.toNat = w.body.toNat + 2 * w.cells.length := toNat_after h

namespace Word.Follows

theorem lt_body (h : w.Follows ws) : w.addr.toNat + 2 ≤ w.body.toNat := by
  have hbody := h.toNat_body
  simp only [Dictionary.bodyAt] at hbody
  split at hbody <;> omega

theorem even_body (h : w.Follows ws) : w.body.toNat % 2 = 0 := by
  have hbody := h.toNat_body
  simp only [Dictionary.bodyAt] at hbody
  omega

theorem extend (h : w.Follows ws) (hvs : Straight ws vs) : (w.extend vs).Follows ws :=
  ⟨h.addr_eq, h.immediate_eq, h.name_ne_nil, h.length_le, h.toNat_body, h.straight.append hvs⟩

end Word.Follows

namespace Stacked

theorem even_nextAddr (h : Stacked ws) : (nextAddr ws).toNat % 2 = 0 := by
  cases h with
  | nil => rfl
  | cons older follows fits =>
      have hbody := follows.even_body
      show (Word.stop _).toNat % 2 = 0
      rw [Word.toNat_stop fits]
      omega

theorem le_nextAddr (h : Stacked ws) : Layout.firstEntry.toNat ≤ (nextAddr ws).toNat := by
  induction h with
  | nil => exact Nat.le_refl _
  | @cons w ws older follows fits ih =>
      have hbody := follows.lt_body
      rw [follows.addr_eq] at hbody
      show _ ≤ w.stop.toNat
      rw [Word.toNat_stop fits]
      omega

/-- The code of every word lies below the next one. -/
theorem cells_le (h : Stacked ws) (hw : w ∈ ws) :
    w.body.toNat + 2 * w.cells.length ≤ (nextAddr ws).toNat := by
  induction h with
  | nil => cases hw
  | @cons v ws older follows fits ih =>
      have hstop := Word.toNat_stop fits
      have hbody := follows.lt_body
      show _ ≤ v.stop.toNat
      rcases List.mem_cons.1 hw with rfl | hw
      · exact Nat.le_of_eq hstop.symm
      · have hle := ih hw
        rw [← follows.addr_eq] at hle
        omega

theorem body_le (h : Stacked ws) (hw : w ∈ ws) : w.body.toNat ≤ (nextAddr ws).toNat :=
  Nat.le_trans (Nat.le_add_right _ _) (h.cells_le hw)

theorem name_ne_nil (h : Stacked ws) (hw : w ∈ ws) : w.name ≠ [] := by
  induction h with
  | nil => cases hw
  | cons older follows fits ih =>
      rcases List.mem_cons.1 hw with rfl | hw
      · exact follows.name_ne_nil
      · exact ih hw

theorem immediate_eq (h : Stacked ws) (hw : w ∈ ws) : w.immediate = false := by
  induction h with
  | nil => cases hw
  | cons older follows fits ih =>
      rcases List.mem_cons.1 hw with rfl | hw
      · exact follows.immediate_eq
      · exact ih hw

theorem straight (h : Stacked ws) (hw : w ∈ ws) : Straight ws w.code := by
  induction h with
  | nil => cases hw
  | cons older follows fits ih =>
      rcases List.mem_cons.1 hw with rfl | hw
      · exact follows.straight.mono fun _ => List.mem_cons_of_mem _
      · exact (ih hw).mono fun _ => List.mem_cons_of_mem _

theorem rooted (h : Stacked ws) (hne : ws ≠ []) : Dictionary.Rooted (definitions ws) := by
  induction h with
  | nil => exact absurd rfl hne
  | @cons w ws older follows fits ih =>
      cases ws with
      | nil => exact ⟨w.toDefinition, rfl, follows.addr_eq⟩
      | cons v ws => exact (ih (List.cons_ne_nil v ws)).cons w.toDefinition

theorem newestAddr_le (h : Stacked ws) :
    (newestAddr (definitions ws)).toNat ≤ (nextAddr ws).toNat := by
  cases h with
  | nil => exact Nat.le_refl _
  | @cons w ws older follows fits =>
      have hbody := follows.lt_body
      show w.addr.toNat ≤ w.stop.toNat
      rw [Word.toNat_stop fits]
      omega

end Stacked

namespace Dictionary

variable {d d' d'' : Dictionary} {s : Span}

/-- The words `ws`, newest first, are finished. -/
structure Settled (d : Dictionary) (ws : List Word) : Prop where
  stacked : Stacked ws
  lt_capacity : 16 < d.capacity
  chained : d.Chained (definitions ws)
  latest_eq : d.latest = newestAddr (definitions ws)
  base_eq : d.base = 10
  le_here : (nextAddr ws).toNat ≤ d.here.toNat
  cellsAt : ∀ w ∈ ws, d.CellsAt w.body w.cells

/-- Nothing is compiled, and the next definition goes where the finished ones end. -/
structure AtRest (d : Dictionary) (ws : List Word) : Prop where
  compiling_eq : d.compiling = false
  here_eq : d.here = nextAddr ws

/-- The word `w` is compiled, and its code so far ends at `here`. -/
structure Underway (d : Dictionary) (ws : List Word) (w : Word) : Prop where
  follows : w.Follows ws
  compiling_eq : d.compiling = true
  openEntry_eq : d.openEntry = w.addr
  ready : d.Ready
  holds : d.Holds w.toDefinition
  linkable : d.Linkable w.addr
  fits : w.body.toNat + 2 * w.code.length < 65536
  here_eq : d.here = after w.body w.code
  cellsAt : d.CellsAt w.body w.code

theorem Underway.inProgress (h : d.Underway ws w) : d.InProgress w.toDefinition w.code :=
  ⟨h.compiling_eq, h.openEntry_eq, h.ready, h.holds, h.linkable, h.fits, h.here_eq, h.cellsAt⟩

theorem Underway.of_inProgress (hw : w.Follows ws) (h : d.InProgress w.toDefinition w.code) :
    d.Underway ws w :=
  ⟨hw, h.compiling_eq, h.openEntry_eq, h.ready, h.holds, h.linkable, h.fits, h.here_eq, h.cellsAt⟩

theorem Underway.toNat_here (h : d.Underway ws w) :
    d.here.toNat = w.body.toNat + 2 * w.code.length := h.inProgress.toNat_here

/-! ## What keeps the words -/

theorem Settled.body_le_here (h : d.Settled ws) {f : Definition} (hf : f ∈ definitions ws) :
    f.body.toNat ≤ (nextAddr ws).toNat := by
  obtain ⟨w, hw, rfl⟩ := List.mem_map.1 hf
  exact h.stacked.body_le hw

theorem Settled.holds (h : d.Settled ws) (hw : w ∈ ws) : d.Holds w.toDefinition :=
  h.chained.holds_of_mem (List.mem_map_of_mem hw)

theorem Settled.le_body (h : d.Settled ws) (hw : w ∈ ws) :
    Layout.firstEntry.toNat + 2 ≤ w.body.toNat := by
  have hle := (h.holds hw).hasHeader.le_entry
  have hlt := (h.holds hw).addr_lt_body
  omega

theorem Settled.of_leavesBelow (h : d.Settled ws) (hd : d.LeavesBelow d' (nextAddr ws).toNat) :
    d'.Settled ws where
  stacked := h.stacked
  lt_capacity := by rw [hd.capacity_eq]; exact h.lt_capacity
  chained := h.chained.of_agreeOn hd.agreeOn (Nat.le_refl _) (fun f hf => h.body_le_here hf)
    fun f hf => Nat.le_trans (h.body_le_here hf) hd.le_here
  latest_eq := hd.latest_eq.trans h.latest_eq
  base_eq := hd.base_eq.trans h.base_eq
  le_here := hd.le_here
  cellsAt w hw := by
    have hle := h.le_body hw
    have hend := h.stacked.cells_le hw
    have htop := (nextAddr ws).toNat_lt
    rw [toNat_firstEntry] at hle
    exact (h.cellsAt w hw).of_agreeOn hd.agreeOn (by omega) hend (by omega)

/-- To read source text does nothing to the word. -/
theorem Underway.of_inputOnly (h : d.Underway ws w) (hd : d.InputOnly d') : d'.Underway ws w :=
  .of_inProgress h.follows (h.inProgress.of_inputOnly hd)

theorem AtRest.of_inputOnly (h : d.AtRest ws) (hd : d.InputOnly d') : d'.AtRest ws :=
  ⟨hd.compiling_eq.trans h.compiling_eq, hd.here_eq.trans h.here_eq⟩

theorem Settled.of_inputOnly (h : d.Settled ws) (hd : d.InputOnly d') : d'.Settled ws :=
  h.of_leavesBelow (hd.leavesBelow h.le_here)

/-- Cells that are added belong to the word. -/
theorem Underway.extend (h : d.Underway ws w) (hvs : Straight ws vs)
    (hd : vs.forM append d = .ok () d') : d'.Underway ws (w.extend vs) :=
  .of_inProgress (h.follows.extend hvs) (h.inProgress.append hd)

/-! ## Looking up a name -/

/-- A finished word is seen. -/
theorem Settled.isVisible_eq (h : d.Settled ws)
    (hopen : d.AtRest ws ∨ d.compiling = true ∧ d.openEntry = nextAddr ws) {f : Definition}
    (hf : f ∈ definitions ws) : d.isVisible f.addr = true := by
  have hholds := h.chained.holds_of_mem hf
  have hentry := hholds.hasHeader.le_entry
  have hbody := hholds.addr_lt_body
  have hle := h.body_le_here hf
  have hhere := h.le_here
  rw [toNat_firstEntry] at hentry
  have hne : d.here ≠ Layout.firstEntry := fun heq => by
    rw [heq, toNat_firstEntry] at hhere
    omega
  rw [isVisible, bne_iff_ne.2 hne, Bool.true_and]
  rcases hopen with hrest | ⟨hcompiling, hopenEntry⟩
  · rw [hrest.compiling_eq]
    rfl
  · have hne : d.reservedAddr .openEntry ≠ f.addr := fun heq => by
      have heq' := hopenEntry.symm.trans heq
      rw [heq'] at hle
      omega
    rw [beq_false_of_ne hne, Bool.and_false]
    rfl

/-- The finished words are seen, and nothing else is. -/
theorem Settled.find_eq (h : d.Settled ws)
    (hopen : d.AtRest ws ∨ d.compiling = true ∧ d.openEntry = nextAddr ws) (s : Span) :
    d.find s = match ws.find? fun w => Text.same (d.text s) w.name with
      | some w => .found w.addr
      | none => .absent := by
  have hhidden : definitions ws = [] → d.isVisible Layout.firstEntry = false := by
    intro hnil
    obtain rfl : ws = [] := List.map_eq_nil_iff.1 hnil
    rcases hopen with hrest | ⟨hcompiling, hentry⟩
    · have hhere : d.here = Layout.firstEntry := hrest.here_eq
      rw [isVisible, hhere, bne_self_eq_false, Bool.false_and]
    · have hentry' : d.reservedAddr .openEntry = Layout.firstEntry := hentry
      rw [isVisible, hcompiling, hentry', beq_self_eq_true]
      exact Bool.and_false _
  have hfound := find_of_chained_of_hidden h.chained h.latest_eq
    (fun hne => h.stacked.rooted fun hnil => hne (congrArg definitions hnil))
    (fun f hf => h.isVisible_eq hopen hf) hhidden (fun f hf => ?_) s
  · have hsame : ((fun f : Definition => Text.same (d.text s) f.name) ∘ Word.toDefinition) =
        fun w => Text.same (d.text s) w.name := rfl
    rw [hfound, definitions, List.find?_map, hsame]
    cases ws.find? fun w => Text.same (d.text s) w.name <;> rfl
  · obtain ⟨w, hw, rfl⟩ := List.mem_map.1 hf
    exact h.stacked.name_ne_nil hw

/-- A name stands for a finished word or for a primitive. -/
theorem Settled.meaning_eq (h : d.Settled ws)
    (hopen : d.AtRest ws ∨ d.compiling = true ∧ d.openEntry = nextAddr ws) (s : Span) :
    d.meaning s = match ws.find? fun w => Text.same (d.text s) w.name with
      | some w => .known w.body false
      | none => match Primitive.ofName? (d.text s) with
        | some p => .known p.token p.isImmediate
        | none => .unknown := by
  rw [meaning, h.find_eq hopen]
  cases hfind : ws.find? fun w => Text.same (d.text s) w.name with
  | none => rfl
  | some w =>
      have hw : w ∈ ws := List.mem_of_find?_eq_some hfind
      have hholds := h.holds hw
      dsimp only
      rw [hholds.entryBody_eq, hholds.isImmediate_eq, h.stacked.immediate_eq hw]

/-! ## Beginning and finishing a word -/

theorem settled_setUp (hcap : 16 < d.capacity) : d.setUp.Settled [] ∧ d.setUp.AtRest [] := by
  obtain ⟨hhere, hlatest, hcompiling, -⟩ := reserved_setUp (d := d) (by omega)
  have hhere' : d.setUp.here = Layout.firstEntry := by
    rw [here, reservedAddr, hhere, UInt16.toUInt16_toInt16]
  refine ⟨⟨.nil, by rw [capacity_setUp]; exact hcap, .nil, ?_, ?_, ?_, fun w hw => by cases hw⟩,
    ?_, hhere'⟩
  · rw [latest, reservedAddr, hlatest, UInt16.toUInt16_toInt16]
    rfl
  · -- no later write is to the cell of the base
    simp only [base, setUp, setReservedAddr]
    rw [reserved_writeCell _ _ _ (by decide) (by decide)]
    iterate 7 rw [reserved_setReserved_of_ne _ _ (by decide)]
    exact reserved_setReserved _ _ _ (by omega)
  · rw [hhere']
    exact Nat.le_refl _
  · unfold compiling
    rw [hcompiling]
    rfl

/-- A dictionary in which `:` has noted where the new word goes. -/
structure Opened (d : Dictionary) (ws : List Word) : Prop where
  settled : d.Settled ws
  rest : d.AtRest ws
  openEntry_eq : d.openEntry = nextAddr ws
  ready : d.Ready

/-- The next word goes where the finished ones end. -/
theorem Settled.of_alignHere {d1 : Dictionary} {entry : Addr} (h : d.Settled ws)
    (hrest : d.AtRest ws) (halign : alignHere d = .ok entry d1) :
    entry = nextAddr ws ∧ d1.Settled ws ∧ d1.AtRest ws ∧ d1.Ready ∧ d.Drafts d1 := by
  obtain ⟨hentry, hgrow, hready1, hnum, -⟩ := of_alignHere_eq_ok halign
  have heven := h.stacked.even_nextAddr
  have hhere : d1.here = d.here := by
    apply UInt16.toNat_inj.1
    rw [hnum, hrest.here_eq]
    omega
  have hready : d.Ready := hready1.of_here_eq hhere.symm hgrow.capacity_eq.symm
  have hdrafts := drafts_alignHere hready halign
  refine ⟨by rw [hentry, hhere, hrest.here_eq], h.of_leavesBelow (hdrafts.leavesBelow h.le_here),
    ⟨?_, hhere.trans hrest.here_eq⟩, hready1, hdrafts⟩
  rw [hgrow.compiling_eq hready, hrest.compiling_eq]

/-- To note where it goes changes neither the words nor the source. -/
theorem Settled.opened (h : d.Settled ws) (hrest : d.AtRest ws) (hready : d.Ready) :
    (d.setReservedAddr .openEntry (nextAddr ws)).Opened ws ∧
      d.AgreeOn (d.setReservedAddr .openEntry (nextAddr ws)) 10 96 := by
  have hset := drafts_setReserved hready .openEntry (nextAddr ws).toInt16 (by decide)
  refine ⟨⟨h.of_leavesBelow (hset.leavesBelow h.le_here), ⟨?_, ?_⟩, ?_, hset.ext.ready hready⟩,
    hset.agreeOn_input⟩
  · unfold compiling setReservedAddr
    rw [reserved_setReserved_of_ne _ _ (by decide)]
    exact hrest.compiling_eq
  · rw [setReservedAddr, d.here_setReserved _ _ (by decide), hrest.here_eq]
  · rw [openEntry, reservedAddr, setReservedAddr,
      reserved_setReserved _ _ _ (Nat.le_of_lt h.lt_capacity), UInt16.toUInt16_toInt16]

theorem Opened.of_inputOnly (h : d.Opened ws) (hd : d.InputOnly d') : d'.Opened ws where
  settled := h.settled.of_inputOnly hd
  rest := h.rest.of_inputOnly hd
  openEntry_eq := (hd.reservedAddr (by decide)).trans h.openEntry_eq
  ready := hd.ready h.ready

/-- Whether there is room for a header depends on the words before it and the length of the name. -/
theorem Opened.exists_define_iff (h : d.Opened ws) (hlen : s.length.toNat ≤ Header.maxNameLength) :
    (∃ d', define s d = .ok () d') ↔ bodyAt (nextAddr ws) (newestAddr (definitions ws))
      s.length.toNat < d.capacity := by
  have heven := h.settled.stacked.even_nextAddr
  have hhere := h.rest.here_eq
  rw [← hhere] at heven ⊢
  rw [← h.settled.latest_eq]
  constructor
  · rintro ⟨d', hdefine⟩
    obtain ⟨entry, hbegins⟩ := exists_begins_of_define_eq_ok hdefine
    have hentry : entry = d.here := by
      apply UInt16.toNat_inj.1
      rw [hbegins.toNat_entry]
      omega
    rw [← hentry, ← hbegins.toNat_here, ← hbegins.grows.capacity_eq]
    exact hbegins.ready.here_lt
  · exact exists_define_eq_ok h.ready heven hlen

/-- A header that is written after the finished words is that of a new word. -/
theorem Opened.underway_of_define (h : d.Opened ws) (hpos : 0 < s.length.toNat)
    (hstart : 16 ≤ s.start.toNat) (hend : s.start.toNat + s.length.toNat ≤ 96)
    (hdefine : define s d = .ok () d') :
    (d'.setReserved .compiling 1).Underway ws (Word.begin ws (d.text s)) := by
  have hhere := h.rest.here_eq
  have heven := h.settled.stacked.even_nextAddr
  have hlatest : d.latest ≤ d.here := by
    rw [h.settled.latest_eq, hhere]
    exact UInt16.le_iff_toNat_le.2 h.settled.stacked.newestAddr_le
  have hprogress := inProgress_of_define h.ready (by rw [hhere]; exact heven)
    (h.openEntry_eq.trans hhere.symm) hlatest hstart hend hdefine
  obtain ⟨entry, hbegins⟩ := exists_begins_of_define_eq_ok hdefine
  have hentry : entry = nextAddr ws := by
    apply UInt16.toNat_inj.1
    rw [hbegins.toNat_entry, hhere]
    omega
  have hlength : (d.text s).length = s.length.toNat := Memory.length_bytesFrom ..
  have hnum : d'.here.toNat = bodyAt (nextAddr ws) (newestAddr (definitions ws))
      (d.text s).length := by
    rw [hbegins.toNat_here, hentry, h.settled.latest_eq, hlength]
  have hbody : (Word.begin ws (d.text s)).body = d'.here := by
    apply UInt16.toNat_inj.1
    rw [Word.begin, ← hnum]
    exact UInt16.toNat_ofNat_of_lt' d'.here.toNat_lt
  have hword : (Word.begin ws (d.text s)).toDefinition = ⟨d.here, d.text s, false, d'.here⟩ := by
    rw [← hbody, hhere]
    rfl
  refine .of_inProgress ⟨rfl, rfl, ?_, ?_, ?_, .nil⟩ (hword ▸ hprogress)
  · intro hnil
    have hzero : (d.text s).length = 0 := by
      change d.text s = [] at hnil
      rw [hnil]
      rfl
    omega
  · show (d.text s).length ≤ _
    rw [hlength]
    exact hbegins.length_le
  · rw [hbody, hnum]
    rfl

/-- With the exit after its code, the word that is compiled can be linked, and is then finished. -/
theorem Settled.exists_link_eq_ok (h : d.Settled ws) (hw : d.Underway ws w)
    (hexit : append Primitive.exit.token.toInt16 d = .ok () d') :
    ∃ d'', link w.addr (d'.setReserved .compiling 0) = .ok () d'' ∧ d''.Settled (w :: ws) ∧
      d''.AtRest (w :: ws) ∧ d.AgreeOn d'' 10 96 := by
  obtain ⟨d2, hlink, hpublishes⟩ := hw.inProgress.exists_link_eq_ok hexit
  have haddr := hw.follows.addr_eq
  have hfits : w.body.toNat + 2 * w.cells.length < 65536 := by
    rw [w.length_cells]
    exact hpublishes.fits
  have hstop : d2.here = w.stop := hpublishes.here_eq
  refine ⟨d2, hlink, ⟨.cons h.stacked hw.follows hfits, ?_, ?_, hpublishes.latest_eq,
    hpublishes.base_eq.trans h.base_eq, Nat.le_of_eq (congrArg UInt16.toNat hstop.symm), ?_⟩,
    ⟨hpublishes.compiling_eq, hstop⟩, hpublishes.agreeOn_input⟩
  · rw [hpublishes.capacity_eq]
    exact h.lt_capacity
  · refine hpublishes.chained h.chained h.latest_eq fun g hg => ?_
    show _ ≤ w.addr.toNat
    rw [haddr]
    exact h.body_le_here hg
  · intro v hv
    rcases List.mem_cons.1 hv with rfl | hv
    · exact hpublishes.cellsAt
    · have hfirst := h.le_body hv
      have hend := h.stacked.cells_le hv
      have htop := w.addr.toNat_lt
      rw [toNat_firstEntry] at hfirst
      rw [← haddr] at hend
      exact (h.cellsAt v hv).of_agreeOn hpublishes.agreeOn_below (by omega) hend (by omega)

/-! ## Two dictionaries with the same words -/

theorem Holds.toNat_nameLength {f : Definition} (h : d.Holds f) :
    (Header.nameLength (d.readCell f.addr)).toNat = f.name.length := by
  rw [← h.text_eq, text, Memory.length_bytesFrom, length_entryName]

/-- The address where the code begins tells the size of the header. -/
theorem Holds.size_eq {f : Definition} (h : d.Holds f) (h' : d'.Holds f) :
    Header.size (d'.readCell f.addr) = Header.size (d.readCell f.addr) := by
  have hbody := h.hasHeader.toNat_entryBody
  have hbody' := h'.hasHeader.toNat_entryBody
  rw [h.entryBody_eq, h.toNat_nameLength] at hbody
  rw [h'.entryBody_eq, h'.toNat_nameLength] at hbody'
  rcases Header.size_eq_two_or_four (d.readCell f.addr) with hsize | hsize <;>
    rcases Header.size_eq_two_or_four (d'.readCell f.addr) with hsize' | hsize' <;>
    rw [hsize] at hbody ⊢ <;> rw [hsize'] at hbody' ⊢ <;> omega

/-- A header is made of the length of the name, the flag, and the distance to the definition
before. -/
theorem Holds.header_eq {f : Definition} (h : d.Holds f) (h' : d'.Holds f)
    (hlink : d'.linkDistance f.addr = d.linkDistance f.addr) :
    d'.readCell f.addr = d.readCell f.addr ∧ (Header.size (d.readCell f.addr) = 4 →
      d'.readCell (f.addr + cellSize) = d.readCell (f.addr + cellSize)) := by
  have hsize := h.size_eq h'
  have hlength : Header.nameLength (d'.readCell f.addr) = Header.nameLength (d.readCell f.addr) :=
    UInt16.toNat_inj.1 (h'.toNat_nameLength.trans h.toNat_nameLength.symm)
  have himmediate : Header.isImmediate (d'.readCell f.addr) =
      Header.isImmediate (d.readCell f.addr) := h'.isImmediate_eq.trans h.isImmediate_eq.symm
  have hlong := Header.isLong_eq_of_size hsize
  simp only [linkDistance, hlong] at hlink
  by_cases h4 : Header.isLong (d.readCell f.addr) = true
  · rw [h4] at hlong
    rw [if_pos h4, if_pos h4] at hlink
    refine ⟨Header.eq_of_parts hlength himmediate ?_, fun _ => ?_⟩
    · rw [Header.isLong, beq_iff_eq] at h4 hlong
      rw [h4, hlong]
    · rw [← Int16.toInt16_toUInt16 (d'.readCell _), hlink, Int16.toInt16_toUInt16]
  · rw [if_neg h4, if_neg h4] at hlink
    refine ⟨Header.eq_of_parts hlength himmediate hlink, fun hfour => ?_⟩
    rw [Header.size, if_neg h4] at hfour
    cases hfour

/-- The header and the name are the same in both. -/
theorem Holds.readByte_eq {f : Definition} {a : Addr} (h : d.Holds f) (h' : d'.Holds f)
    (hlink : d'.linkDistance f.addr = d.linkDistance f.addr) (hle : f.addr.toNat ≤ a.toNat)
    (hlt : a.toNat < (d.entryName f.addr).stop.toNat) : d'.readByte a = d.readByte a := by
  obtain ⟨hfirst, hsecond⟩ := h.header_eq h' hlink
  have hsize := Header.size_eq_two_or_four (d.readCell f.addr)
  have hname := h.hasHeader.name_le
  have htop := (d.entryBody f.addr).toNat_lt
  have hcell : ∀ b : Addr, b.toNat + 1 < 65536 → d'.readCell b = d.readCell b →
      b.toNat ≤ a.toNat → a.toNat < b.toNat + 2 → d'.readByte a = d.readByte a := by
    intro b hb hread hba hab
    obtain ⟨hlow, hhigh⟩ := readByte_eq_of_readCell_eq hread
    have h1 : (b + 1).toNat = b.toNat + 1 := toNat_add_one hb
    by_cases heq : a.toNat = b.toNat
    · rw [UInt16.toNat_inj.1 heq]
      exact hlow
    · have heq' : a = b + 1 := UInt16.toNat_inj.1 (by omega)
      rw [heq']
      exact hhigh
  by_cases hcell1 : a.toNat < f.addr.toNat + 2
  · exact hcell f.addr (by omega) hfirst hle hcell1
  have h2 : (f.addr + cellSize).toNat = f.addr.toNat + 2 := toNat_add_cellSize (by omega)
  by_cases hcell2 : a.toNat < f.addr.toNat + Header.size (d.readCell f.addr)
  · exact hcell (f.addr + cellSize) (by omega) (hsecond (by omega)) (by omega) (by omega)
  · have hentry : d'.entryName f.addr = d.entryName f.addr := entryName_eq hfirst
    have hstart := d.toNat_start_entryName f.addr (by omega)
    have htext : d'.text (d.entryName f.addr) = d.text (d.entryName f.addr) := by
      rw [h.text_eq, ← hentry, h'.text_eq]
    rw [h.hasHeader.toNat_stop] at hlt
    exact readByte_eq_of_bytesFrom_eq htext (by omega) (by rw [hstart, length_entryName]; omega)

/-- Words that lie one after the other fill all of the memory between them, but for the byte that
can be left between a name and the code. -/
theorem readByte_eq_or_padded {a : Addr} (h : Stacked ws)
    (hd : d.Chained (definitions ws)) (hd' : d'.Chained (definitions ws))
    (hcells : ∀ w ∈ ws, d.CellsAt w.body w.cells) (hcells' : ∀ w ∈ ws, d'.CellsAt w.body w.cells)
    (hle : Layout.firstEntry.toNat ≤ a.toNat) (hlt : a.toNat < (nextAddr ws).toNat) :
    d'.readByte a = d.readByte a ∨
      ∃ w ∈ ws, (d.entryName w.addr).stop.toNat ≤ a.toNat ∧ a.toNat < w.body.toNat := by
  induction h with
  | nil => exact absurd hlt (Nat.not_lt.2 hle)
  | @cons w ws older follows fits ih =>
      cases hd with
      | cons holds link above holder =>
      cases hd' with
      | cons holds' link' above' holder' =>
      have hdistance : d'.linkDistance w.addr = d.linkDistance w.addr :=
        UInt16.toNat_inj.1 (link'.trans link.symm)
      have hstop := Word.toNat_stop fits
      change a.toNat < w.stop.toNat at hlt
      rcases Nat.lt_or_ge a.toNat w.addr.toNat with hbelow | hfrom
      · rw [follows.addr_eq] at hbelow
        rcases ih holder holder' (fun v hv => hcells v (List.mem_cons_of_mem w hv))
          (fun v hv => hcells' v (List.mem_cons_of_mem w hv)) hbelow with heq | ⟨v, hv, hpad⟩
        · exact Or.inl heq
        · exact Or.inr ⟨v, List.mem_cons_of_mem w hv, hpad⟩
      rcases Nat.lt_or_ge a.toNat (d.entryName w.addr).stop.toNat with hname | hname
      · exact Or.inl (holds.readByte_eq holds' hdistance hfrom hname)
      rcases Nat.lt_or_ge a.toNat w.body.toNat with hpad | hbody
      · exact Or.inr ⟨w, List.mem_cons_self, hname, hpad⟩
      · exact Or.inl ((hcells w List.mem_cons_self).readByte_eq (hcells' w List.mem_cons_self) fits
          hbody (by omega))

/-- The byte between the name and the code of a definition. There is one if the name does not end at
an even address. -/
def IsPadding (d : Dictionary) (a : Addr) : Prop :=
  ∃ es ∈ d.entries?, ∃ e ∈ es, e.name.stop = a ∧ e.body = a + 1

/-- Between the name and the code of a finished word lies no more than one byte. -/
theorem Settled.isPadding {a : Addr} (h : d.Settled ws) (hrest : d.AtRest ws) (hw : w ∈ ws)
    (hle : (d.entryName w.addr).stop.toNat ≤ a.toNat) (hlt : a.toNat < w.body.toNat) :
    d.IsPadding a := by
  have hmem : w.toDefinition ∈ definitions ws := List.mem_map_of_mem hw
  have hentries := entries?_of_chained h.chained h.latest_eq
    (h.stacked.rooted (List.ne_nil_of_mem hw)) fun f hf => h.isVisible_eq (Or.inl hrest) hf
  refine ⟨_, hentries, _, List.mem_map_of_mem hmem, ?_⟩
  have hholds := h.holds hw
  have hstop := hholds.hasHeader.toNat_stop
  have hbody := hholds.hasHeader.toNat_entryBody
  have htop := w.body.toNat_lt
  rw [hholds.entryBody_eq] at hbody
  constructor
  · apply UInt16.toNat_inj.1
    show (d.entryName w.addr).stop.toNat = a.toNat
    omega
  · apply UInt16.toNat_inj.1
    show (d.entryBody w.addr).toNat = (a + 1).toNat
    rw [hholds.entryBody_eq, toNat_add_one (by omega)]
    omega

/-- Two dictionaries with the same finished words hold the same bytes, but for those that lie between
a name and the code. -/
theorem Settled.readByte_eq {a : Addr} (h : d.Settled ws) (hrest : d.AtRest ws) (h' : d'.Settled ws)
    (hle : Layout.firstEntry ≤ a) (hlt : a < d.here) (hpad : ¬ d.IsPadding a) :
    d'.readByte a = d.readByte a := by
  rw [hrest.here_eq] at hlt
  rcases readByte_eq_or_padded h.stacked h.chained h'.chained h.cellsAt h'.cellsAt
    (UInt16.le_iff_toNat_le.1 hle) (UInt16.lt_iff_toNat_lt.1 hlt) with heq | ⟨w, hw, hstop, hbody⟩
  · exact heq
  · exact absurd (h.isPadding hrest hw hstop hbody) hpad

end Dictionary

end ThreadedForth
