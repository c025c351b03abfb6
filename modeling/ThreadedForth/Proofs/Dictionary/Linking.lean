import ThreadedForth.Proofs.Dictionary.History
import ThreadedForth.Proofs.Dictionary.Image

/-!
# What a link does to the chain

A link is refused, and then nothing changes, or its entry becomes the latest one. An entry that lies
above the latest one is put in front of the entries there were (`Ends.entries?_of_lt`). The latest
entry itself can be linked once more. It then leads back to itself, at the distance zero that ends
the chain, so that only this one entry is left (`Ends.entries?_of_eq`). The older definitions are
still in memory, where no walk meets them. `entries?_link` says both, for any header in memory.
-/

set_option autoImplicit false

namespace ThreadedForth.Dictionary

variable {d d' : Dictionary} {fs : List Definition} {f : Definition} {entry a : Addr}

/-! ## The chain before the link -/

/-- A walk meets definitions, and at its end the address where the first one goes. -/
theorem eq_firstEntry_or_of_mem_trail (h : a ∈ trail fs) :
    a = Layout.firstEntry ∨ ∃ f ∈ fs, f.addr = a := by
  induction fs with
  | nil => exact .inl (List.mem_singleton.1 h)
  | cons f fs ih =>
      have hcons : a ∈ f.addr :: trail fs := by
        rw [trail] at h
        split at h
        · exact List.mem_cons.2 (.inl (List.mem_singleton.1 h))
        · exact h
      rcases List.mem_cons.1 hcons with rfl | h
      · exact .inr ⟨f, List.mem_cons_self, rfl⟩
      · rcases ih h with hfirst | ⟨g, hg, heq⟩
        · exact .inl hfirst
        · exact .inr ⟨g, List.mem_cons_of_mem f hg, heq⟩

/-- While nothing is compiled, all entries of the chain are seen as soon as `here` has moved. -/
theorem entries?_of_chain?_eq_some {addrs : List Addr} (h : d.chain? = some addrs)
    (hcompiling : d.compiling = false) (hhere : d.here ≠ Layout.firstEntry) :
    d.entries? = some (addrs.map d.entryAt) := by
  have hvisible : ∀ a ∈ addrs, d.isVisible a = true := fun a _ =>
    (isVisible_of_not_compiling hcompiling a).trans (bne_iff_ne.2 hhere)
  rw [entries?, h, Option.map_some, List.filter_eq_self.2 hvisible]

theorem entryAt_eq (h : d'.readCell a = d.readCell a) : d'.entryAt a = d.entryAt a := by
  rw [entryAt, entryAt, entryName_eq h, isImmediate_eq h, entryBody_eq (entryName_eq h)]

theorem Ends.entryAt_eq (h : d.Ends d' entry) : d'.entryAt entry = d.entryAt entry := by
  have hname : d'.entryName entry = d.entryName entry := by
    rw [entryName, entryName, h.isLong_eq, h.nameLength_eq]
  rw [entryAt, entryAt, hname, h.isImmediate_eq, h.entryBody_eq]

theorem HasHeader.here_ne_firstEntry (h : d.HasHeader entry) : d.here ≠ Layout.firstEntry := by
  have hle := h.le_entry
  have hlt := h.lt_body
  have hbody := h.body_le
  intro heq
  rw [heq] at hbody
  omega

/-! ## The entry that is linked -/

/-- A header with its name lies at the address. If it lies after the latest entry, it does not overlap the
header of the latest definition, and lies behind the headers and names of all definitions. -/
structure Placed (d : Dictionary) (fs : List Definition) (entry : Addr) : Prop where
  hasHeader : d.HasHeader entry
  above : d.latest < entry → d.latest.toNat + 2 ≤ entry.toNat ∧ ∀ f ∈ fs, f.body.toNat ≤ entry.toNat

instance (d : Dictionary) (fs : List Definition) (entry : Addr) : Decidable (d.Placed fs entry) :=
  decidable_of_iff (_ ∧ _) ⟨fun ⟨h, h'⟩ => ⟨h, h'⟩, fun ⟨h, h'⟩ => ⟨h, h'⟩⟩

/-- What lies at the address as a definition. -/
def definitionAt (d : Dictionary) (entry : Addr) : Definition :=
  ⟨entry, d.text (d.entryName entry), d.isImmediate entry, d.entryBody entry⟩

theorem HasHeader.holds (h : d.HasHeader entry) : d.Holds (d.definitionAt entry) :=
  ⟨h, rfl, rfl, rfl⟩

section Linked

variable (hchained : d.Chained fs) (hlatest : d.latest = newestAddr fs)

include hchained hlatest

/-- An entry of the chain is not changed by what is linked above it. -/
theorem Placed.entryAt_eq_of_mem_trail (h : d.Placed fs entry) (hlt : d.latest < entry)
    (hends : d.Ends d' entry) (ha : a ∈ trail fs) : d'.entryAt a = d.entryAt a := by
  obtain ⟨hapart, habove⟩ := h.above hlt
  -- a walk may end at the place of the first definition, which need not be an entry
  have hbounds : 96 ≤ a.toNat ∧ a.toNat + 2 ≤ entry.toNat := by
    rcases eq_firstEntry_or_of_mem_trail ha with rfl | ⟨f, hf, rfl⟩
    · have hle := hchained.le_newestAddr
      rw [hlatest] at hapart
      exact ⟨Nat.le_refl _, Nat.le_trans (Nat.add_le_add_right hle 2) hapart⟩
    · have hholds := hchained.holds_of_mem hf
      exact ⟨hholds.hasHeader.le_entry, Nat.le_trans hholds.addr_lt_body (habove f hf)⟩
  have htop := entry.toNat_lt
  exact Dictionary.entryAt_eq
    (hends.agreeOn_below.readCell (by omega) (by omega) (by change _ < 65536 at htop; omega))

/-- An entry above the latest one is put in front of the entries there were. -/
theorem Ends.entries?_of_lt (hends : d.Ends d' entry) (h : d.Placed fs entry)
    (hlt : d.latest < entry) (hcompiling : d.compiling = false) :
    d'.entries? = some (d.entryAt entry :: (trail fs).map d.entryAt) := by
  have hne : entry ≠ Layout.firstEntry := by
    intro heq
    have hle := hchained.le_newestAddr
    rw [hlatest, heq, UInt16.lt_iff_toNat_lt] at hlt
    omega
  have hchained' : d'.Chained (d.definitionAt entry :: fs) :=
    Ends.chained hends h.hasHeader.holds hchained hlatest (h.above hlt).2
  have htrail : trail (d.definitionAt entry :: fs) = entry :: trail fs := if_neg hne
  have hchain := chain?_of_chained hchained' hends.latest_eq
  rw [htrail] at hchain
  have hentries := entries?_of_chain?_eq_some hchain
    ((hends.compiling_eq h.hasHeader).trans hcompiling)
    (by rw [hends.here_eq]; exact h.hasHeader.here_ne_firstEntry)
  rw [hentries, List.map_cons, hends.entryAt_eq]
  refine congrArg (fun es => some (_ :: es)) (List.map_congr_left fun a ha => ?_)
  exact h.entryAt_eq_of_mem_trail hchained hlatest hlt hends ha

omit hchained hlatest in
/-- The latest entry, linked once more, is the only one. -/
theorem Ends.entries?_of_eq (hends : d.Ends d' entry) (h : d.HasHeader entry)
    (heq : entry = d.latest) (hcompiling : d.compiling = false) :
    d'.entries? = some [d.entryAt entry] := by
  -- its distance to the latest entry, which is itself, says that there is no older one
  have hdistance : d'.linkDistance entry = 0 := by
    apply UInt16.toNat_inj.1
    rw [hends.toNat_linkDistance, heq, Nat.sub_self]
    rfl
  have holder : d'.older? entry = none := by
    rw [older?]
    exact if_pos (.inr hdistance)
  have hnot : ¬ entry < Layout.firstEntry := by
    rw [UInt16.lt_iff_toNat_lt]
    exact Nat.not_lt.2 h.le_entry
  have hchain : d'.chain? = some [entry] := by
    rw [chain?, hends.latest_eq]
    show d'.chainFrom? (65535 + 1) entry = _
    rw [chainFrom?, if_neg hnot, holder]
  have hentries := entries?_of_chain?_eq_some hchain ((hends.compiling_eq h).trans hcompiling)
    (by rw [hends.here_eq]; exact h.here_ne_firstEntry)
  rw [hentries, List.map_singleton, hends.entryAt_eq]

/-- What was linked before is still in memory, whatever is linked. -/
theorem Ends.holds_of_mem (hends : d.Ends d' entry) (h : d.Placed fs entry) (hf : f ∈ fs) :
    d'.Holds f := by
  have hholds := hchained.holds_of_mem hf
  have hle := hholds.hasHeader.le_entry
  rw [toNat_firstEntry] at hle
  by_cases heq : f.addr = entry
  · subst heq
    exact hends.holds hholds
  -- the definition ends below the entry, in its place as the latest one or above that
  have hbody : f.body.toNat ≤ entry.toNat := by
    by_cases hlt : d.latest < entry
    · exact (h.above hlt).2 f hf
    · have hlatest' : entry = newestAddr fs := by
        rw [← hlatest]
        apply UInt16.toNat_inj.1
        rw [UInt16.lt_iff_toNat_lt] at hlt
        have hge := hends.latest_le
        omega
      cases hchained with
      | nil => cases hf
      | @cons g fs holds link above older =>
          rcases List.mem_cons.1 hf with rfl | hf
          · exact absurd hlatest'.symm heq
          · rw [hlatest']
            exact above f hf
  refine hholds.of_agreeOn hends.agreeOn_below (by omega) hbody ?_
  rw [hends.here_eq]
  exact hholds.body_le_here

/-- A link of a header in memory fails and changes nothing, or puts the entry in front of all entries
there were, unless it was the latest one already: then all that were older are cut off. -/
theorem entries?_link (hready : d.Ready) (hcompiling : d.compiling = false)
    (h : d.Placed fs entry) : ∃ es, d.entries? = some es ∧
      (¬ d.Linkable entry → link entry d = .error (.badLink entry d.latest) d) ∧
      (d.Linkable entry → ∃ d', link entry d = .ok () d' ∧
        d'.entries? = some (d.entryAt entry :: if entry = d.latest then [] else es) ∧
        d'.latest = entry ∧ ∀ f ∈ fs, d'.Holds f) := by
  refine ⟨(trail fs).map d.entryAt,
    entries?_of_chain?_eq_some (chain?_of_chained hchained hlatest) hcompiling
      h.hasHeader.here_ne_firstEntry,
    link_eq_of_not_linkable, fun hlinkable => ?_⟩
  have hlink := link_eq_of_linkable hlinkable
  have hends := ends_of_link_eq_ok hready h.hasHeader hlink
  refine ⟨_, hlink, ?_, hends.latest_eq, fun f hf => hends.holds_of_mem hchained hlatest h hf⟩
  by_cases heq : entry = d.latest
  · rw [if_pos heq]
    exact hends.entries?_of_eq h.hasHeader heq hcompiling
  · have hlt : d.latest < entry := by
      have hne : d.latest.toNat ≠ entry.toNat := fun hnum => heq (UInt16.toNat_inj.1 hnum.symm)
      have hle := hends.latest_le
      rw [UInt16.lt_iff_toNat_lt]
      omega
    rw [if_neg heq]
    exact hends.entries?_of_lt hchained hlatest h hlt hcompiling

end Linked

/-- The three definitions of `threeDefinitions`, of which the newest is linked once more. -/
theorem entries?_link_threeDefinitions : ∃ d d',
    runSteps [] threeDefinitions (setUp ⟨.sparse (.zeros 2048)⟩) =
      .ok [⟨1214, [97], false, 1218⟩, ⟨1206, [83, 81], true, 1212⟩, ⟨96, [115, 113], false, 100⟩] d ∧
      d.entries?.map (·.map (·.addr)) = some [1214, 1206, 96] ∧
      link 1214 d = .ok () d' ∧ d'.entries?.map (·.map (·.addr)) = some [1214] := by
  have hfacts : let fs : List Definition :=
        [⟨1214, [97], false, 1218⟩, ⟨1206, [83, 81], true, 1212⟩, ⟨96, [115, 113], false, 100⟩]
      let d := lastState (runSteps [] threeDefinitions (setUp ⟨.sparse (.zeros 2048)⟩))
      value? (runSteps [] threeDefinitions (setUp ⟨.sparse (.zeros 2048)⟩)) = some fs ∧
        d.Chained fs ∧ d.latest = newestAddr fs ∧ d.Ready ∧ d.compiling = false ∧
        d.Placed fs 1214 ∧ d.Linkable 1214 ∧
        d.entries?.map (·.map (·.addr)) = some [1214, 1206, 96] := by
    decide +kernel
  obtain ⟨hvalue, hchained, hlatest, hready, hcompiling, hplaced, hlinkable, hbefore⟩ := hfacts
  obtain ⟨es, -, -, hlink⟩ := entries?_link hchained hlatest hready hcompiling hplaced
  obtain ⟨d', hok, hafter, -, -⟩ := hlink hlinkable
  have hsame : (1214 : Addr) = (lastState _ : Dictionary).latest := hlatest.symm
  rw [if_pos hsame] at hafter
  exact ⟨_, d', eq_ok_lastState hvalue, hbefore, hok, by rw [hafter]; rfl⟩

end ThreadedForth.Dictionary
