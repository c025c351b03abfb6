import ThreadedForth.Proofs.Dictionary.Linked

/-!
# Where definitions end

A definition has the room from its entry up to the entry of the next newer one, and the newest one up to
`here` (`extents`). These stretches do not overlap (`Chained.disjoint_of_mem_extents`). So a change in the
body of one definition (`Within`) leaves all others as they are, and the chain with them
(`Linked.of_within`).
-/

set_option autoImplicit false

namespace ThreadedForth

/-- The definitions with the addresses where they end, the newest one at `top`. -/
def extents : Nat → List Definition → List (Definition × Nat)
  | _, [] => []
  | top, f :: fs => (f, top) :: extents f.addr.toNat fs

section Extents

variable {top e : Nat} {f : Definition} {fs gs : List Definition}

theorem mem_of_mem_extents (h : (f, e) ∈ extents top fs) : f ∈ fs := by
  induction fs generalizing top with
  | nil => exact absurd h List.not_mem_nil
  | cons g fs ih =>
      rcases List.mem_cons.1 h with heq | h
      · cases heq
        exact List.mem_cons_self
      · exact List.mem_cons_of_mem g (ih h)

theorem exists_mem_extents (h : f ∈ fs) : ∃ e, (f, e) ∈ extents top fs := by
  induction fs generalizing top with
  | nil => exact absurd h List.not_mem_nil
  | cons g fs ih =>
      rcases List.mem_cons.1 h with rfl | h
      · exact ⟨top, List.mem_cons_self⟩
      · obtain ⟨e, he⟩ := ih h
        exact ⟨e, List.mem_cons_of_mem _ he⟩

theorem mem_extents_append (h : (f, e) ∈ extents top fs) : (f, e) ∈ extents top (fs ++ gs) := by
  induction fs generalizing top with
  | nil => exact absurd h List.not_mem_nil
  | cons g fs ih =>
      rcases List.mem_cons.1 h with heq | h
      · rw [heq]
        exact List.mem_cons_self
      · exact List.mem_cons_of_mem _ (ih h)

end Extents

namespace Dictionary

variable {d d' : Dictionary} {fs : List Definition} {f g : Definition} {lo hi top limit e e' : Nat}
  {a : Addr}

namespace Chained

/-- A definition ends above its body, and not above `top`. -/
theorem le_of_mem_extents (h : d.Chained fs) (htop : ∀ g ∈ fs, g.body.toNat ≤ top)
    (hf : (f, e) ∈ extents top fs) : f.body.toNat ≤ e ∧ e ≤ top := by
  induction h generalizing top with
  | nil => exact absurd hf List.not_mem_nil
  | @cons g fs holds link above older ih =>
      have hg := htop g List.mem_cons_self
      rcases List.mem_cons.1 hf with heq | hf
      · cases heq
        exact ⟨hg, Nat.le_refl _⟩
      · have hlt := holds.addr_lt_body
        obtain ⟨hbody, hle⟩ := ih above hf
        exact ⟨hbody, by omega⟩

/-- Of two definitions one lies below the other. -/
theorem disjoint_of_mem_extents (h : d.Chained fs) (hf : (f, e) ∈ extents top fs)
    (hg : (g, e') ∈ extents top fs) (hne : g ≠ f) : e ≤ g.addr.toNat ∨ e' ≤ f.addr.toNat := by
  induction h generalizing top with
  | nil => exact absurd hf List.not_mem_nil
  | @cons x fs holds link above older ih =>
      rcases List.mem_cons.1 hf with heq | hf'
      · cases heq
        rcases List.mem_cons.1 hg with heq | hg'
        · cases heq
          exact absurd rfl hne
        · exact .inr (older.le_of_mem_extents above hg').2
      · rcases List.mem_cons.1 hg with heq | hg'
        · cases heq
          exact .inl (older.le_of_mem_extents above hf').2
        · exact ih hf' hg'

end Chained

/-! ## Changes in one definition -/

/-- The dictionaries differ from `lo` up to `hi` only. -/
structure Within (d d' : Dictionary) (lo hi : Nat) : Prop where
  capacity_eq : d'.capacity = d.capacity
  below : d.AgreeOn d' 0 lo
  above : d.AgreeOn d' hi 65536

theorem within_writeCell (d : Dictionary) (v : Cell) (htop : a.toNat + 1 < 65536) :
    d.Within (d.writeCell a v) a.toNat (a.toNat + 2) :=
  ⟨capacity_writeCell .., d.agreeOn_writeCell v htop (.inr (Nat.le_refl _)),
    d.agreeOn_writeCell v htop (.inl (Nat.le_refl _))⟩

namespace Within

theorem reserved (h : d.Within d' lo hi) (hlo : 16 ≤ lo) (c : SystemCell) :
    d'.reserved c = d.reserved c :=
  h.below.reserved (Nat.zero_le _) (Nat.le_trans c.toNat_addr_add_two_le hlo)

theorem here_eq (h : d.Within d' lo hi) (hlo : 16 ≤ lo) : d'.here = d.here :=
  congrArg Int16.toUInt16 (h.reserved hlo .here)

theorem latest_eq (h : d.Within d' lo hi) (hlo : 16 ≤ lo) : d'.latest = d.latest :=
  congrArg Int16.toUInt16 (h.reserved hlo .latest)

theorem compiling_eq (h : d.Within d' lo hi) (hlo : 16 ≤ lo) : d'.compiling = d.compiling := by
  rw [compiling, compiling, h.reserved hlo]

theorem resting (h : d.Within d' lo hi) (hlo : 16 ≤ lo) (hrest : d.Resting fs) : d'.Resting fs :=
  ⟨(h.compiling_eq hlo).trans hrest.compiling_eq, fun hnil =>
    (h.here_eq hlo).trans (hrest.first hnil)⟩

end Within

/-- What is changed in the body of a definition leaves alone all other definitions. -/
theorem Linked.agreeOn_of_within (h : d.Linked fs limit) (hw : d.Within d' lo hi)
    (hf : (f, e) ∈ extents top fs) (htop : ∀ g ∈ fs, g.body.toNat ≤ top) (hlo : f.body.toNat ≤ lo)
    (hhi : hi ≤ e) (hg : (g, e') ∈ extents top fs) (hne : g ≠ f) (hmax : top ≤ 65536) :
    d.AgreeOn d' g.addr.toNat e' := by
  have hlt := (h.chained.holds_of_mem (mem_of_mem_extents hf)).addr_lt_body
  obtain ⟨-, hle⟩ := h.chained.le_of_mem_extents htop hg
  rcases h.chained.disjoint_of_mem_extents hf hg hne with habove | hbelow
  · exact hw.above.mono (Nat.le_trans hhi habove) (by omega)
  · exact hw.below.mono (Nat.zero_le _) (by omega)

/-- The chain is kept by what is changed in the body of a definition. -/
theorem Linked.of_within (h : d.Linked fs limit) (hw : d.Within d' lo hi)
    (hf : (f, e) ∈ extents top fs) (htop : ∀ g ∈ fs, g.body.toNat ≤ top) (hlo : f.body.toNat ≤ lo)
    (hhi : hi ≤ e) (hmax : top ≤ 65536) : d'.Linked fs limit := by
  have hholds := h.chained.holds_of_mem (mem_of_mem_extents hf)
  have hentry := hholds.hasHeader.le_entry
  have hlt := hholds.addr_lt_body
  have hlow : 16 ≤ lo := by
    rw [toNat_firstEntry] at hentry
    omega
  have hhere := hw.here_eq hlow
  exact {
    chained := by
      refine h.chained.of_forall_agreeOn (fun g hg => ?_) fun g hg => ?_
      · by_cases hne : g = f
        · subst hne
          exact hw.below.mono (Nat.zero_le _) hlo
        · obtain ⟨e', he'⟩ : ∃ e', (g, e') ∈ extents top fs := exists_mem_extents hg
          exact (h.agreeOn_of_within hw hf htop hlo hhi he' hne hmax).mono (Nat.le_refl _)
            (h.chained.le_of_mem_extents htop he').1
      · rw [hhere]
        exact (h.chained.holds_of_mem hg).body_le_here
    latest_eq := (hw.latest_eq hlow).trans h.latest_eq
    rooted := h.rooted
    name_ne_nil := h.name_ne_nil
    body_le := h.body_le
    base_eq := (hw.reserved hlow .base).trans h.base_eq
    le_capacity := by
      rw [hw.capacity_eq]
      exact h.le_capacity
    le_limit := h.le_limit
    limit_le := by
      rw [hhere]
      exact h.limit_le }

end Dictionary

end ThreadedForth
