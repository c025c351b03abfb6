import ThreadedForth.Proofs.Machine.Reset

/-!
# Which definitions are seen

A search for a name goes from the newest definition to the oldest one and ends at the first that
has the name and is visible. While words are compiled, the entry in the cell `openEntry` is hidden.
The cell keeps its entry after that definition was finished, so a finished definition is found by
its name unless `compiling` was set again without a `:` since it was begun, and as long as a
definition is begun and not finished, all finished ones are found. The main result is
`find_unshadowed_iff`.
-/

set_option autoImplicit false

namespace ThreadedForth

namespace Dictionary

variable {d : Dictionary} {f : Definition} {newer older : List Definition} {word : Span}

/-- A walk along the chain meets the newer definitions first. -/
theorem find?_trail_iff {p : Addr → Bool} (h : d.Chained (newer ++ f :: older))
    (hnewer : ∀ g ∈ newer, p g.addr = false) :
    (trail (newer ++ f :: older)).find? p = some f.addr ↔ p f.addr = true := by
  induction newer with
  | nil =>
      have hhead : ∃ rest, trail (f :: older) = f.addr :: rest := by
        by_cases hf : f.addr = Layout.firstEntry
        · exact ⟨[], by rw [trail, if_pos hf]⟩
        · exact ⟨trail older, by rw [trail, if_neg hf]⟩
      rcases hhead with ⟨rest, hrest⟩
      rw [List.nil_append, hrest]
      constructor
      · exact List.find?_some
      · intro hp
        exact List.find?_cons_of_pos hp
  | cons g newer ih =>
      have hne := h.addr_ne_firstEntry (List.mem_append_right newer List.mem_cons_self)
      have hg : ¬ p g.addr = true := by simp [hnewer g List.mem_cons_self]
      rw [List.cons_append, trail, if_neg hne, List.find?_cons_of_neg hg]
      cases h with
      | cons holds link above older =>
          exact ih older fun g hg => hnewer g (List.mem_cons_of_mem _ hg)

/-- A word fits a definition if it is the name and the definition is visible. -/
theorem Holds.fits_eq (h : d.Holds f) :
    d.fits word f.addr = (Text.same (d.text word) f.name && d.isVisible f.addr) := by
  rw [fits, sameText_eq, h.text_eq]

/-- A search for a name ends at the newest definition that has it, if that is visible. -/
theorem Chained.find_eq_found_iff (h : d.Chained (newer ++ f :: older))
    (hlatest : d.latest = newestAddr (newer ++ f :: older)) (hname : f.name ≠ [])
    (hnewer : ∀ g ∈ newer, Text.same g.name f.name = false)
    (hword : Text.same (d.text word) f.name = true) :
    d.find word = .found f.addr ↔ d.isVisible f.addr = true := by
  have hholds : ∀ g ∈ newer ++ f :: older, d.Holds g := fun g hg => h.holds_of_mem hg
  have hf := hholds f (List.mem_append_right newer List.mem_cons_self)
  -- the name is not empty, and so neither is the word
  have hne : word.isEmpty ≠ true := by
    intro hempty
    rw [Span.isEmpty, beq_iff_eq] at hempty
    have hlength := Text.length_eq_of_same hword
    rw [text, Memory.length_bytesFrom, hempty] at hlength
    exact hname (List.length_eq_zero_iff.1 hlength.symm)
  have hmiss : ∀ g ∈ newer, d.fits word g.addr = false := by
    intro g hg
    have hsame : Text.same (d.text word) g.name = false := by
      rw [Bool.eq_false_iff]
      intro htext
      rw [Text.same_comm] at htext
      have hshadow := Text.same_trans htext hword
      rw [hnewer g hg] at hshadow
      cases hshadow
    rw [(hholds g (List.mem_append_left _ hg)).fits_eq, hsame, Bool.false_and]
  have hwalk := chainFrom?_of_chained h (n := walkLimit) (newestAddr _).toNat_lt
  have hhit : d.fits word f.addr = d.isVisible f.addr := by
    rw [hf.fits_eq, hword, Bool.true_and]
  rw [find, if_neg hne, hlatest, searchFrom_of_chainFrom? hwalk, ← hhit,
    ← find?_trail_iff h hmiss]
  cases (trail (newer ++ f :: older)).find? (d.fits word) <;> simp

/-- Once something was defined, only the entry that is said to be open is hidden, and that only
while words are compiled. -/
theorem Holds.isVisible_iff (h : d.Holds f) :
    d.isVisible f.addr = true ↔ ¬ (d.compiling = true ∧ d.openEntry = f.addr) := by
  have hle := h.hasHeader.le_entry
  have hlt := h.addr_lt_body
  have hend := h.body_le_here
  have hhere : d.here ≠ Layout.firstEntry := by
    intro heq
    rw [heq] at hend
    omega
  cases hcompiling : d.compiling <;> simp [isVisible, hcompiling, hhere]

end Dictionary

namespace Machine

variable {H : Type} {hooks : Hooks H} {call : Interpreter H} {m : Machine H}
  {f : Finished} {newer older : List Finished} {opened : Option Addr} {word : Span}

/-- A search for the name of a finished definition, where no newer one has the name, finds the
definition unless words are compiled and it is said to be the open one. While a definition is begun
and not finished, it is not. -/
theorem find_unshadowed_iff (hrefill : QuietRefill hooks call)
    (h : Builds hooks call (newer ++ f :: older) opened m)
    (hnewer : ∀ g ∈ newer, Text.same g.name f.name = false)
    (hword : Text.same (m.dictionary.text word) f.name = true) :
    (m.dictionary.find word = .found f.addr ↔
        ¬ (m.dictionary.compiling = true ∧ m.dictionary.openEntry = f.addr)) ∧
      (opened ≠ none → m.dictionary.openEntry ≠ f.addr) := by
  have hmem : f ∈ newer ++ f :: older := List.mem_append_right newer List.mem_cons_self
  -- there is a definition, so there is memory for it
  rcases filesOrNone_of_builds hrefill h with hfiles | ⟨-, hnone, -⟩
  · have hchained := hfiles.chained
    have hlatest := hfiles.latest_eq
    rw [List.map_append, List.map_cons] at hchained hlatest
    constructor
    · rw [← (hfiles.holds hmem).isVisible_iff]
      refine hchained.find_eq_found_iff hlatest (hfiles.name_ne_nil f hmem) ?_ hword
      intro g hg
      rcases List.mem_map.1 hg with ⟨g', hg', rfl⟩
      exact hnewer g' hg'
    · intro hopened heq
      have hstop := hfiles.stop_le_openEntry hopened f hmem
      have hlt := (hfiles.holds hmem).addr_lt_body
      rw [heq, Finished.stop] at hstop
      omega
  · simp at hnone

/-! ## Two definitions -/

/-- A machine with a definition, after it has read the name of another one. -/
def secondNamed : Machine Unit :=
  lastState (onDictionary (Dictionary.loadInput (Text.encode "b")) finishedMachine)

/-- The machine while the number in the second definition is compiled. -/
def secondBegun : Machine Unit :=
  lastState (interpretLiteral 2 (lastState (colon {} (interpreter {} 0) 1 secondNamed)))

/-- The machine with both definitions, after it was told to compile words again. -/
def pairMachine : Machine Unit := lastState (setCompiling true (lastState (semicolon secondBegun)))

/-- The definition above the first one. -/
def secondDefinition : Finished := ⟨⟨104, [98], false, 108⟩, [39, 0, 25, 0]⟩

/-- Nothing fails, and the names in both headers can be looked up. -/
theorem pairMachine_eq :
    value? (colon {} (interpreter {} 0) 1 secondNamed) = some () ∧
      (lastState (colon {} (interpreter {} 0) 1 secondNamed)).dictionary.openEntry = 104 ∧
      secondBegun.data.pop?.map (·.1) = some 104 ∧ value? (semicolon secondBegun) = some () ∧
      (lastState (semicolon secondBegun)).dictionary.finishedAt 104 = secondDefinition ∧
      pairMachine.dictionary.compiling = true ∧ pairMachine.dictionary.openEntry = 104 ∧
      pairMachine.dictionary.text ⟨98, 99⟩ = [97] ∧
      pairMachine.dictionary.text ⟨106, 107⟩ = [98] := by
  decide +kernel

theorem builds_pairMachine :
    Builds {} (interpreter {} 0) [secondDefinition, onlyDefinition] none pairMachine := by
  rcases pairMachine_eq with ⟨hcolon, hentry, htop, hsemicolon, hfinished, -⟩
  have hread : Builds {} (interpreter {} 0) [onlyDefinition] none secondNamed :=
    .quiet builds_finishedMachine (relates_onDictionary (Dictionary.relates_loadInput _) _)
  have hbegun := (hread.colon (eq_ok_lastState hcolon)).number 2
  rw [hentry] at hbegun
  rcases Option.map_eq_some_iff.1 htop with ⟨⟨v, data⟩, hpop, rfl⟩
  have hends := hbegun.semicolon hpop (eq_ok_lastState hsemicolon)
  rw [← hfinished]
  exact hends.setCompiling true

/-- While words are compiled again, the definition that was finished last is not found, but the one
before it is. -/
theorem find_unshadowed_pairMachine :
    pairMachine.dictionary.find ⟨98, 99⟩ = .found 96 ∧
      pairMachine.dictionary.find ⟨106, 107⟩ ≠ .found 104 := by
  have hrefill : QuietRefill ({} : Hooks Unit) (interpreter {} 0) :=
    ⟨fun m => .refl m, fun m m' h => by cases h⟩
  rcases pairMachine_eq with ⟨-, -, -, -, -, hcompiling, hopen, hfirst, hsecond⟩
  constructor
  · have hbuilds : Builds {} (interpreter {} 0) ([secondDefinition] ++ onlyDefinition :: []) none
        pairMachine := builds_pairMachine
    have hword : Text.same (pairMachine.dictionary.text ⟨98, 99⟩) onlyDefinition.name = true := by
      rw [hfirst]
      decide
    refine (find_unshadowed_iff hrefill hbuilds (by decide) hword).1.2 fun hhidden => ?_
    rw [hopen] at hhidden
    exact absurd hhidden.2 (by decide)
  · intro hfound
    have hbuilds : Builds {} (interpreter {} 0) ([] ++ secondDefinition :: [onlyDefinition]) none
        pairMachine := builds_pairMachine
    have hword : Text.same (pairMachine.dictionary.text ⟨106, 107⟩) secondDefinition.name =
        true := by
      rw [hsecond]
      decide
    have hfind := find_unshadowed_iff hrefill hbuilds (by simp) hword
    exact hfind.1.1 hfound ⟨hcompiling, hopen⟩

end Machine

end ThreadedForth
