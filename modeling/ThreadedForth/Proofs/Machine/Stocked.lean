import ThreadedForth.Proofs.Dictionary.Linked
import ThreadedForth.Proofs.Dictionary.Settled
import ThreadedForth.Proofs.Machine.Sealed

/-!
# Dictionaries of sealed definitions

The definitions of a dictionary are linked, seen by their names, and their code keeps to itself and
lies below some limit (`Stocked d l fs limit`). They come after those of a library `l`, of which only
some keep to themselves (`Library`). A definition that is compiled lies above the limit, and what it has
so far is code that goes from each token to the next one (`Building`). On the way it can put cells on the
return stack and take them back; `Depths fs j code k` counts them. When none is left there, an exit makes
the definition one of the others (`Stocked.cons`).

Nothing is said of where the definitions lie or of the cells of their code, other than that a search
finds them and that a run of their code does not leave it.
-/

set_option autoImplicit false

namespace ThreadedForth

/-- Code of numbers, stack words, moves to the return stack and back, and calls of the definitions
`fs`. Before it `j` cells are on the return stack and after it `k` of them. -/
inductive Depths (fs : List Definition) : Nat → List Cell → Nat → Prop
  | nil (k : Nat) : Depths fs k [] k
  | number (v : Cell) {j k : Nat} {code : List Cell} (rest : Depths fs j code k) :
      Depths fs j (literalCells v ++ code) k
  | stackWord {p : Primitive} {j k : Nat} {code : List Cell} (hp : p.isStackWord = true)
      (rest : Depths fs j code k) : Depths fs j (p.token.toInt16 :: code) k
  | toReturn {j k : Nat} {code : List Cell} (rest : Depths fs (j + 1) code k) :
      Depths fs j (Primitive.toReturn.token.toInt16 :: code) k
  | fromReturn {j k : Nat} {code : List Cell} (rest : Depths fs j code k) :
      Depths fs (j + 1) (Primitive.fromReturn.token.toInt16 :: code) k
  | call {f : Definition} {j k : Nat} {code : List Cell} (hf : f ∈ fs)
      (rest : Depths fs j code k) : Depths fs j (f.body.toInt16 :: code) k

theorem Depths.append {fs : List Definition} {i j k : Nat} {vs code : List Cell}
    (h : Depths fs i vs j) (hcode : Depths fs j code k) : Depths fs i (vs ++ code) k := by
  induction h with
  | nil => exact hcode
  | number v rest ih =>
      rw [List.append_assoc]
      exact .number v (ih hcode)
  | stackWord hp rest ih => exact .stackWord hp (ih hcode)
  | toReturn rest ih => exact .toReturn (ih hcode)
  | fromReturn rest ih => exact .fromReturn (ih hcode)
  | call hf rest ih => exact .call hf (ih hcode)

/-- Definitions that were there before, and the limit below which they lie. Some of them are enclosed. -/
structure Library where
  definitions : List Definition
  enclosed : List Definition
  limit : Addr

namespace Library

/-- Nothing was there before. -/
def empty : Library := ⟨[], [], Layout.firstEntry⟩

/-- The names of the definitions together with those of the library. -/
def names (l : Library) (fs : List Definition) : List (List UInt8) :=
  (fs ++ l.definitions).map (·.name)

/-- A text is the name of no other definitions than enclosed ones. -/
def Allows (l : Library) (text : List UInt8) : Prop :=
  ∀ f ∈ l.definitions, Text.same text f.name = true → f ∈ l.enclosed

instance (l : Library) (text : List UInt8) : Decidable (l.Allows text) :=
  inferInstanceAs (Decidable (∀ f ∈ l.definitions, _))

theorem allows_empty (text : List UInt8) : empty.Allows text := fun _ h => absurd h List.not_mem_nil

theorem Allows.mem_of_find?_eq_some {l : Library} {fs : List Definition} {f : Definition}
    {text : List UInt8} (h : l.Allows text)
    (hfind : ((fs ++ l.definitions).find? fun f => Text.same text f.name) = some f) :
    f ∈ fs ++ l.enclosed := by
  rcases List.mem_append.1 (List.mem_of_find?_eq_some hfind) with hmem | hmem
  · exact List.mem_append_left _ hmem
  · have hsame : Text.same text f.name = true := by simpa using List.find?_some hfind
    exact List.mem_append_right _ (h f hmem hsame)

end Library

namespace Dictionary

open Machine

variable {d d' : Dictionary} {fs : List Definition} {f : Definition} {limit : Nat} {a : Addr}
  {code vs : List Cell} {j k : Nat} {s : Span}

/-! ## Code that is enclosed -/

/-- Where a token leads is told by its own cells. -/
theorem Leads.of_sameAt {places : Addr → Nat → Prop} (h : d.Leads places a k (d.tokenAt a))
    (hsame : d.SameAt d' a) : d'.Leads places a k (d'.tokenAt a) := by
  have htoken : d'.tokenAt a = d.tokenAt a := by rw [tokenAt, tokenAt, hsame.readCell_eq]
  have hoperand := hsame.operand_eq
  rw [htoken]
  generalize d.tokenAt a = t at h hoperand
  cases h with
  | number next => exact .number next
  | literal next => exact .literal next
  | operator next => exact .operator next
  | branch target =>
      rw [jumpTarget, ← hoperand rfl] at target
      exact .branch target
  | branchIfZero target next =>
      rw [jumpTarget, ← hoperand rfl] at target
      exact .branchIfZero target next
  | toReturn next => exact .toReturn next
  | fromReturn next => exact .fromReturn next
  | returnDepth next => exact .returnDepth next
  | call callee next => exact .call callee next
  | exit => exact .exit

theorem Leads.mono {places places' : Addr → Nat → Prop} {t : Token} (h : d.Leads places a k t)
    (hle : ∀ a k, places a k → places' a k) : d.Leads places' a k t := by
  cases h with
  | number next => exact .number (hle _ _ next)
  | literal next => exact .literal (hle _ _ next)
  | operator next => exact .operator (hle _ _ next)
  | branch target => exact .branch (hle _ _ target)
  | branchIfZero target next => exact .branchIfZero (hle _ _ target) (hle _ _ next)
  | toReturn next => exact .toReturn (hle _ _ next)
  | fromReturn next => exact .fromReturn (hle _ _ next)
  | returnDepth next => exact .returnDepth (hle _ _ next)
  | call callee next => exact .call (hle _ _ callee) (hle _ _ next)
  | exit => exact .exit

/-- The code of the definitions is sealed and lies below the limit. -/
def Encloses (d : Dictionary) (fs : List Definition) (limit : Nat) : Prop :=
  ∃ places : Addr → Nat → Prop, d.Sealed places ∧ (∀ f ∈ fs, places f.body 0) ∧
    ∀ a k, places a k →
      Layout.firstEntry.toNat ≤ a.toNat ∧ a.toNat + (d.tokenAt a).size ≤ limit

theorem Encloses.nil : d.Encloses [] limit :=
  ⟨fun _ _ => False, fun _ _ h => h.elim, fun _ h => absurd h List.not_mem_nil,
    fun _ _ h => h.elim⟩

theorem Encloses.of_agreeOn (h : d.Encloses fs limit) (hd : d.AgreeOn d' 96 limit)
    (htop : limit ≤ 65536) : d'.Encloses fs limit := by
  obtain ⟨places, hsealed, hbody, hwithin⟩ := h
  have hsame : ∀ a k, places a k → d.SameAt d' a := fun a k ha =>
    .of_agreeOn hd (hwithin a k ha).1 (hwithin a k ha).2 htop
  refine ⟨places, fun a k ha => (hsealed a k ha).of_sameAt (hsame a k ha), hbody, fun a k ha => ?_⟩
  have htoken : d'.tokenAt a = d.tokenAt a := by
    rw [tokenAt, tokenAt, (hsame a k ha).readCell_eq]
  rw [htoken]
  exact hwithin a k ha

theorem Encloses.body_lt (h : d.Encloses fs limit) (hf : f ∈ fs) :
    Layout.firstEntry.toNat ≤ f.body.toNat ∧ f.body.toNat + 2 ≤ limit := by
  obtain ⟨places, -, hbody, hwithin⟩ := h
  obtain ⟨hle, hend⟩ := hwithin f.body 0 (hbody f hf)
  have hsize := (d.tokenAt f.body).size_bounds
  exact ⟨hle, by omega⟩

/-- From each token of code, with an exit after it, a run goes on behind the token. -/
theorem leads_of_depths {places : Addr → Nat → Prop} {rest : List Cell}
    (hrest : Depths fs k rest 0)
    (hcells : d.CellsAt a (rest ++ [Primitive.exit.token.toInt16]))
    (hcalls : ∀ f ∈ fs, Layout.firstEntry ≤ f.body ∧ places f.body 0)
    (hnext : ∀ before rest' k', rest = before ++ rest' → Depths fs k' rest' 0 →
      places (after a before) k') : d.Leads places a k (d.tokenAt a) := by
  cases hrest with
  | nil =>
      rw [tokenAt_of_readCell_eq hcells.1, decode_token]
      exact .exit
  | @number v _ _ rest hrest =>
      rw [List.append_assoc] at hcells
      exact leads_of_literalCells hcells (hnext (literalCells v) rest k rfl hrest)
  | @stackWord p _ _ rest hp hrest =>
      have hplace := hnext [p.token.toInt16] rest k rfl hrest
      rw [tokenAt_of_readCell_eq hcells.1, decode_token]
      cases p with
      | operator op => exact .operator hplace
      | returnDepth => exact .returnDepth hplace
      | _ => cases hp
  | @toReturn _ _ rest hrest =>
      have hplace := hnext [Primitive.toReturn.token.toInt16] rest (k + 1) rfl hrest
      rw [tokenAt_of_readCell_eq hcells.1, decode_token]
      exact .toReturn hplace
  | @fromReturn j _ rest hrest =>
      have hplace := hnext [Primitive.fromReturn.token.toInt16] rest j rfl hrest
      rw [tokenAt_of_readCell_eq hcells.1, decode_token]
      exact .fromReturn hplace
  | @call f _ _ rest hf hrest =>
      have hplace := hnext [f.body.toInt16] rest k rfl hrest
      rw [tokenAt_of_readCell_eq hcells.1, decode_of_le (hcalls f hf).1]
      exact .call (hcalls f hf).2 hplace

/-- A definition that calls no others than those that are enclosed is enclosed with them. -/
theorem Encloses.cons (h : d.Encloses fs limit) (hle : limit ≤ f.body.toNat)
    (hfirst : Layout.firstEntry.toNat ≤ f.body.toNat)
    (hfits : f.body.toNat + 2 * code.length + 2 < 65536)
    (hcells : d.CellsAt f.body (code ++ [Primitive.exit.token.toInt16]))
    (hcode : Depths fs 0 code 0) :
    d.Encloses (f :: fs) (f.body.toNat + 2 * code.length + 2) := by
  obtain ⟨places, hsealed, hbody, hwithin⟩ := id h
  -- the places of the new definition: where a piece of its code begins
  refine ⟨fun a k => places a k ∨ ∃ before rest, code = before ++ rest ∧ Depths fs k rest 0 ∧
    a = after f.body before, ?_, ?_, ?_⟩
  · rintro a k (ha | ⟨before, rest, heq, hrest, rfl⟩)
    · exact (hsealed a k ha).mono fun b i hb => .inl hb
    · refine leads_of_depths hrest ?_ (fun g hg => ?_) fun before' rest' k' heq' hrest' => ?_
      · rw [heq, List.append_assoc] at hcells
        exact (cellsAt_append.1 hcells).2
      · exact ⟨UInt16.le_iff_toNat_le.2 (h.body_lt hg).1, .inl (hbody g hg)⟩
      · refine .inr ⟨before ++ before', rest', ?_, hrest', (after_append ..).symm⟩
        rw [heq, heq', List.append_assoc]
  · intro g hg
    rcases List.mem_cons.1 hg with rfl | hg
    · exact .inr ⟨[], code, rfl, hcode, rfl⟩
    · exact .inl (hbody g hg)
  · rintro a k (ha | ⟨before, rest, heq, hrest, rfl⟩)
    · have hplace := hwithin a k ha
      omega
    · have hlength : code.length = before.length + rest.length := by
        rw [heq, List.length_append]
      have hnum : (after f.body before).toNat = f.body.toNat + 2 * before.length :=
        toNat_after (by omega)
      rw [heq, List.append_assoc] at hcells
      have hplace := (cellsAt_append.1 hcells).2
      refine ⟨by omega, ?_⟩
      rw [hnum]
      have hsize := (d.tokenAt (after f.body before)).size_bounds
      -- only the exit, which has no operand, is not followed by another cell
      by_cases hnil : rest = []
      · rw [hnil] at hplace hlength
        rw [tokenAt_of_readCell_eq hplace.1, decode_token]
        rw [List.length_nil] at hlength
        show _ + 2 ≤ _
        omega
      · have hpos := List.length_pos_iff.2 hnil
        omega

/-! ## Definitions that are found -/

variable {l : Library}

/-- The definitions `fs` are linked after those of a library. They are not immediate, and their code is
sealed together with that of the enclosed ones and lies below `limit`. -/
structure Stocked (d : Dictionary) (l : Library) (fs : List Definition) (limit : Nat) : Prop
    extends d.Linked (fs ++ l.definitions) limit where
  immediate_eq : ∀ f ∈ fs ++ l.enclosed, f.immediate = false
  encloses : d.Encloses (fs ++ l.enclosed) limit
  library_le : l.limit.toNat ≤ limit

/-- The library itself. -/
theorem Linked.stocked (h : d.Linked l.definitions l.limit.toNat)
    (himmediate : ∀ f ∈ l.enclosed, f.immediate = false)
    (hencloses : d.Encloses l.enclosed l.limit.toNat) : d.Stocked l [] l.limit.toNat :=
  ⟨h, himmediate, hencloses, Nat.le_refl _⟩

namespace Stocked

theorem of_leavesBelow (h : d.Stocked l fs limit) (hd : d.LeavesBelow d' limit) :
    d'.Stocked l fs limit where
  toLinked := h.toLinked.of_leavesBelow hd
  immediate_eq := h.immediate_eq
  encloses := h.encloses.of_agreeOn hd.agreeOn
    (Nat.le_trans h.limit_le (Nat.le_of_lt d.here.toNat_lt))
  library_le := h.library_le

theorem of_inputOnly (h : d.Stocked l fs limit) (hd : d.InputOnly d') : d'.Stocked l fs limit :=
  h.of_leavesBelow (hd.leavesBelow h.limit_le)

/-- A name stands for a definition, which is not immediate, or for a primitive. -/
theorem meaning_eq (h : d.Stocked l fs limit) (hshows : d.Shows (fs ++ l.definitions))
    (hallows : l.Allows (d.text s)) :
    d.meaning s = match (fs ++ l.definitions).find? fun f => Text.same (d.text s) f.name with
      | some f => .known f.body false
      | none => match Primitive.ofName? (d.text s) with
        | some p => .known p.token p.isImmediate
        | none => .unknown := by
  rw [h.toLinked.meaning_eq hshows]
  cases hfind : (fs ++ l.definitions).find? fun f => Text.same (d.text s) f.name with
  | none => rfl
  | some f =>
      dsimp only
      rw [h.immediate_eq f (hallows.mem_of_find?_eq_some hfind)]

end Stocked

/-! ## The definition after them -/

/-- The definition `f` is compiled after the others. Its code so far has put `k` cells on the return
stack. -/
structure Building (d : Dictionary) (l : Library) (fs : List Definition) (limit : Nat)
    (f : Definition) (k : Nat) : Prop where
  stocked : d.Stocked l fs limit
  unfinished : ∃ code, d.Unfinished (fs ++ l.definitions) limit f code ∧
    Depths (fs ++ l.enclosed) 0 code k

namespace Building

theorem of_inputOnly (h : d.Building l fs limit f k) (hd : d.InputOnly d') :
    d'.Building l fs limit f k := by
  obtain ⟨code, hunfinished, hcode⟩ := h.unfinished
  exact ⟨h.stocked.of_inputOnly hd, code, hunfinished.of_inputOnly hd, hcode⟩

theorem compiling_eq (h : d.Building l fs limit f k) : d.compiling = true := by
  obtain ⟨code, hunfinished, -⟩ := h.unfinished
  exact hunfinished.progress.compiling_eq

theorem shows (h : d.Building l fs limit f k) : d.Shows (fs ++ l.definitions) := by
  obtain ⟨code, hunfinished, -⟩ := h.unfinished
  exact hunfinished.shows

/-- Code is added. -/
theorem append (h : d.Building l fs limit f j) (hvs : Depths (fs ++ l.enclosed) j vs k)
    (hd : vs.forM append d = .ok () d') :
    d'.Building l fs limit f k ∧ d.AgreeOn d' 10 96 ∧ d.AgreeOn d' 96 l.limit.toNat := by
  obtain ⟨code, hunfinished, hcode⟩ := h.unfinished
  have hleaves := hunfinished.leavesBelow_of_append hd
  exact ⟨⟨h.stocked.of_leavesBelow hleaves, code ++ vs, hunfinished.append hd, hcode.append hvs⟩,
    (drafts_forM_append hunfinished.progress.ready hd).agreeOn_input,
    hleaves.agreeOn.mono (Nat.le_refl _) h.stocked.library_le⟩

end Building

/-- A definition that was ended is one of the others, if its code left nothing on the return stack. -/
theorem Stocked.cons (h : d.Stocked l fs limit)
    (hunfinished : d.Unfinished (fs ++ l.definitions) limit f code)
    (hcode : Depths (fs ++ l.enclosed) 0 code 0) (hpublishes : d.Publishes d' f code)
    (hlinked : d'.Linked (f :: fs ++ l.definitions) d'.here.toNat) :
    d'.Stocked l (f :: fs) d'.here.toNat ∧ d.AgreeOn d' 96 l.limit.toNat := by
  have hbody := hunfinished.progress.le_body
  have hlt := hunfinished.progress.holds.addr_lt_body
  have hle := hunfinished.le_addr
  have hhere := hpublishes.toNat_here
  have hlibrary := h.library_le
  have hbelow : d.AgreeOn d' 96 limit := hpublishes.agreeOn_below.mono (Nat.le_refl _) hle
  have hencloses := h.encloses.of_agreeOn hbelow (by
    have htop := f.addr.toNat_lt
    omega)
  refine ⟨⟨hlinked, ?_, ?_, by omega⟩, hbelow.mono (Nat.le_refl _) hlibrary⟩
  · exact List.forall_mem_cons.2 ⟨hunfinished.immediate_eq, h.immediate_eq⟩
  · rw [hhere]
    exact hencloses.cons (by omega) (by rw [toNat_firstEntry]; omega) hpublishes.fits
      hpublishes.cellsAt hcode

/-- A dictionary that was set up has no definitions. -/
theorem stocked_setUp (hcap : 96 ≤ d.capacity) :
    d.setUp.Stocked .empty [] Layout.firstEntry.toNat ∧ d.setUp.Resting [] := by
  obtain ⟨hsettled, hrest⟩ := settled_setUp (d := d) (by omega)
  have hlinked : d.setUp.Linked [] Layout.firstEntry.toNat := {
    chained := .nil
    latest_eq := hsettled.latest_eq
    rooted := fun h => absurd rfl h
    name_ne_nil := fun _ h => absurd h List.not_mem_nil
    body_le := fun _ h => absurd h List.not_mem_nil
    base_eq := hsettled.base_eq
    le_capacity := by
      rw [capacity_setUp]
      exact hcap
    le_limit := Nat.le_refl _
    limit_le := Nat.le_of_eq (congrArg UInt16.toNat hrest.here_eq.symm) }
  exact ⟨Linked.stocked (l := .empty) hlinked (fun _ h => absurd h List.not_mem_nil) .nil,
    hrest.compiling_eq, fun _ => hrest.here_eq⟩

end Dictionary

end ThreadedForth
