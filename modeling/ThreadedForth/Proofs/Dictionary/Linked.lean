import ThreadedForth.Machine.Step
import ThreadedForth.Proofs.Dictionary.InProgress

/-!
# Definitions that are found by their names

A dictionary is linked to its definitions if they are its chain, newest first, and no definition lies
above a limit (`Linked d fs limit`). As long as all of them are seen, a name means the newest one of
that name (`Linked.meaning_eq`). They are seen while nothing is compiled (`Resting`) and while another
one is compiled above the limit (`Unfinished`). The other one then becomes the newest of them
(`Unfinished.exists_link_eq_ok`).
-/

set_option autoImplicit false

namespace ThreadedForth.Dictionary

variable {d d' : Dictionary} {fs : List Definition} {f : Definition} {limit : Nat}
  {code vs : List Cell} {s : Span}

/-- The definitions `fs`, newest first, are those of the dictionary, and lie below `limit`. -/
structure Linked (d : Dictionary) (fs : List Definition) (limit : Nat) : Prop where
  chained : d.Chained fs
  latest_eq : d.latest = newestAddr fs
  rooted : fs ≠ [] → Rooted fs
  name_ne_nil : ∀ f ∈ fs, f.name ≠ []
  body_le : ∀ f ∈ fs, f.body.toNat ≤ limit
  base_eq : d.base = 10
  le_capacity : 96 ≤ d.capacity
  le_limit : Layout.firstEntry.toNat ≤ limit
  limit_le : limit ≤ d.here.toNat

/-- All definitions are seen, and without any of them the place for the first one is not. -/
structure Shows (d : Dictionary) (fs : List Definition) : Prop where
  visible : ∀ f ∈ fs, d.isVisible f.addr = true
  hidden : fs = [] → d.isVisible Layout.firstEntry = false

/-- Nothing is compiled. The first definition goes to its place. -/
structure Resting (d : Dictionary) (fs : List Definition) : Prop where
  compiling_eq : d.compiling = false
  first : fs = [] → d.here = Layout.firstEntry

theorem Resting.of_inputOnly (h : d.Resting fs) (hd : d.InputOnly d') : d'.Resting fs :=
  ⟨hd.compiling_eq.trans h.compiling_eq, fun hnil => hd.here_eq.trans (h.first hnil)⟩

namespace Linked

theorem newestAddr_le (h : d.Linked fs limit) : (newestAddr fs).toNat ≤ limit := by
  cases fs with
  | nil => exact h.le_limit
  | cons f fs =>
      have hlt := (h.chained.holds_of_mem List.mem_cons_self).addr_lt_body
      have hle := h.body_le f List.mem_cons_self
      show f.addr.toNat ≤ limit
      omega

theorem of_leavesBelow (h : d.Linked fs limit) (hd : d.LeavesBelow d' limit) :
    d'.Linked fs limit where
  chained := h.chained.of_agreeOn hd.agreeOn (Nat.le_refl _) h.body_le fun f hf =>
    Nat.le_trans (h.body_le f hf) hd.le_here
  latest_eq := hd.latest_eq.trans h.latest_eq
  rooted := h.rooted
  name_ne_nil := h.name_ne_nil
  body_le := h.body_le
  base_eq := hd.base_eq.trans h.base_eq
  le_capacity := by
    rw [hd.capacity_eq]
    exact h.le_capacity
  le_limit := h.le_limit
  limit_le := hd.le_here

theorem of_inputOnly (h : d.Linked fs limit) (hd : d.InputOnly d') : d'.Linked fs limit :=
  h.of_leavesBelow (hd.leavesBelow h.limit_le)

/-- A definition has room in front of `here`, so the dictionary is not an empty one. -/
theorem here_ne_firstEntry (h : d.Linked fs limit) (hf : f ∈ fs) : d.here ≠ Layout.firstEntry := by
  intro heq
  have hholds := h.chained.holds_of_mem hf
  have hentry := hholds.hasHeader.le_entry
  have hlt := hholds.addr_lt_body
  have hbody := h.body_le f hf
  have hle := h.limit_le
  rw [heq] at hle
  omega

theorem shows_of_resting (h : d.Linked fs limit) (hrest : d.Resting fs) : d.Shows fs where
  visible f hf := by
    rw [isVisible, hrest.compiling_eq, bne_iff_ne.2 (h.here_ne_firstEntry hf)]
    rfl
  hidden hnil := by
    rw [isVisible, hrest.first hnil, bne_self_eq_false, Bool.false_and]

/-- A name stands for a definition or for a primitive. -/
theorem meaning_eq (h : d.Linked fs limit) (hshows : d.Shows fs) (s : Span) :
    d.meaning s = match fs.find? fun f => Text.same (d.text s) f.name with
      | some f => .known f.body f.immediate
      | none => match Primitive.ofName? (d.text s) with
        | some p => .known p.token p.isImmediate
        | none => .unknown := by
  rw [meaning, find_of_chained_of_hidden h.chained h.latest_eq h.rooted hshows.visible
    hshows.hidden h.name_ne_nil]
  cases hfind : fs.find? fun f => Text.same (d.text s) f.name with
  | none => rfl
  | some f =>
      have hholds := h.chained.holds_of_mem (List.mem_of_find?_eq_some hfind)
      dsimp only
      rw [hholds.entryBody_eq, hholds.isImmediate_eq]

section Meaning

variable (h : d.Linked fs limit) (hshows : d.Shows fs) {s : Span}

include h hshows

theorem meaning_of_find?_eq_some (hfind : (fs.find? fun f => Text.same (d.text s) f.name) = some f) :
    d.meaning s = .known f.body f.immediate := by rw [h.meaning_eq hshows, hfind]

theorem meaning_of_primitive {p : Primitive}
    (hfind : (fs.find? fun f => Text.same (d.text s) f.name) = none)
    (hp : Primitive.ofName? (d.text s) = some p) : d.meaning s = .known p.token p.isImmediate := by
  rw [h.meaning_eq hshows, hfind, hp]

theorem meaning_eq_unknown (hfind : (fs.find? fun f => Text.same (d.text s) f.name) = none)
    (hp : Primitive.ofName? (d.text s) = none) : d.meaning s = .unknown := by
  rw [h.meaning_eq hshows, hfind, hp]

end Meaning

end Linked

/-! ## The definition after them -/

/-- The definition `f` with the code so far is compiled after the others. -/
structure Unfinished (d : Dictionary) (fs : List Definition) (limit : Nat) (f : Definition)
    (code : List Cell) : Prop where
  linked : d.Linked fs limit
  progress : d.InProgress f code
  le_addr : limit ≤ f.addr.toNat
  first : fs = [] → f.addr = Layout.firstEntry
  name_ne_nil : f.name ≠ []
  immediate_eq : f.immediate = false

namespace Unfinished

theorem of_inputOnly (h : d.Unfinished fs limit f code) (hd : d.InputOnly d') :
    d'.Unfinished fs limit f code :=
  ⟨h.linked.of_inputOnly hd, h.progress.of_inputOnly hd, h.le_addr, h.first, h.name_ne_nil,
    h.immediate_eq⟩

/-- The definition itself is hidden by its address, and the others have other ones. -/
theorem shows (h : d.Unfinished fs limit f code) : d.Shows fs where
  visible g hg := by
    have hopen : d.reservedAddr .openEntry ≠ g.addr := by
      intro heq
      have hentry : f.addr = g.addr := h.progress.openEntry_eq.symm.trans heq
      have hlt := (h.linked.chained.holds_of_mem hg).addr_lt_body
      have hbody := h.linked.body_le g hg
      have hle := h.le_addr
      rw [hentry] at hle
      omega
    rw [isVisible, bne_iff_ne.2 (h.linked.here_ne_firstEntry hg), beq_false_of_ne hopen,
      Bool.and_false]
    rfl
  hidden hnil := by
    have hopen : d.reservedAddr .openEntry = Layout.firstEntry :=
      h.progress.openEntry_eq.trans (h.first hnil)
    rw [isVisible, h.progress.compiling_eq, hopen, beq_self_eq_true]
    exact Bool.and_false _

/-- What is compiled lies above the limit. -/
theorem leavesBelow_of_append (h : d.Unfinished fs limit f code)
    (hd : vs.forM append d = .ok () d') : d.LeavesBelow d' limit :=
  (drafts_forM_append h.progress.ready hd).leavesBelow h.linked.limit_le

/-- Code is added. -/
theorem append (h : d.Unfinished fs limit f code) (hd : vs.forM append d = .ok () d') :
    d'.Unfinished fs limit f (code ++ vs) :=
  ⟨h.linked.of_leavesBelow (h.leavesBelow_of_append hd), h.progress.append hd, h.le_addr, h.first,
    h.name_ne_nil, h.immediate_eq⟩

/-- With an exit after it the definition can be linked, and is then one of the others. -/
theorem exists_link_eq_ok (h : d.Unfinished fs limit f code)
    (hexit : Dictionary.append Primitive.exit.token.toInt16 d = .ok () d') :
    ∃ d'', link f.addr (d'.setReserved .compiling 0) = .ok () d'' ∧ d.Publishes d'' f code ∧
      d''.Linked (f :: fs) d''.here.toNat ∧ d''.Resting (f :: fs) := by
  obtain ⟨d2, hlink, hpublishes⟩ := h.progress.exists_link_eq_ok hexit
  have hlt := h.progress.holds.addr_lt_body
  have hle := h.le_addr
  have hlimit := h.linked.le_limit
  have hhere := hpublishes.toNat_here
  have hbody : ∀ g ∈ fs, g.body.toNat ≤ f.addr.toNat := fun g hg =>
    Nat.le_trans (h.linked.body_le g hg) hle
  refine ⟨d2, hlink, hpublishes, ?_, hpublishes.compiling_eq, fun hnil =>
    absurd hnil (List.cons_ne_nil f fs)⟩
  exact {
    chained := hpublishes.chained h.linked.chained h.linked.latest_eq hbody
    latest_eq := hpublishes.latest_eq
    rooted := fun _ => by
      by_cases hnil : fs = []
      · subst hnil
        exact ⟨f, rfl, h.first rfl⟩
      · exact (h.linked.rooted hnil).cons f
    name_ne_nil := List.forall_mem_cons.2 ⟨h.name_ne_nil, h.linked.name_ne_nil⟩
    body_le := List.forall_mem_cons.2 ⟨by omega, fun g hg => by
      have hg' := hbody g hg
      omega⟩
    base_eq := hpublishes.base_eq.trans h.linked.base_eq
    le_capacity := by
      rw [hpublishes.capacity_eq]
      exact h.linked.le_capacity
    le_limit := by omega
    limit_le := Nat.le_refl _ }

end Unfinished

/-- A definition is begun after the others, at the entry that was noted. -/
theorem Linked.unfinished_of_define (h : d.Linked fs limit) (hready : d.Ready)
    (heven : d.here.toNat % 2 = 0) (hopen : d.openEntry = d.here)
    (hfirst : fs = [] → d.here = Layout.firstEntry) (hpos : d.text s ≠ [])
    (hstart : 16 ≤ s.start.toNat) (hstop : s.start.toNat + s.length.toNat ≤ 96)
    (hdefine : define s d = .ok () d') :
    (d'.setReserved .compiling 1).Unfinished fs limit ⟨d.here, d.text s, false, d'.here⟩ [] ∧
      d.LeavesBelow (d'.setReserved .compiling 1) limit ∧
      d.AgreeOn (d'.setReserved .compiling 1) 10 96 := by
  have hlatest : d.latest ≤ d.here := by
    rw [h.latest_eq]
    exact UInt16.le_iff_toNat_le.2 (Nat.le_trans h.newestAddr_le h.limit_le)
  have hdrafts := drafts_define hready hdefine
  have hboth := hdrafts.trans
    (drafts_setReserved (hdrafts.ext.ready hready) .compiling 1 (by decide))
  have hleaves := hboth.leavesBelow h.limit_le
  have hprogress := inProgress_of_define hready heven hopen hlatest hstart hstop hdefine
  exact ⟨⟨h.of_leavesBelow hleaves, hprogress, h.limit_le, hfirst, hpos, rfl⟩, hleaves,
    hboth.agreeOn_input⟩

end ThreadedForth.Dictionary
