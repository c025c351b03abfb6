import ThreadedForth.Dictionary.Chain
import ThreadedForth.Proofs.Dictionary.Definition

/-!
# Definitions in memory

`Definition` is what is known of a finished definition, and `Chained d fs` says that the
dictionary holds the definitions `fs`, newest first: each has its header, its name and its body
where it should, leads back to the one before it, and lies above the body of every older one.
The walk along the chain then meets exactly their addresses (`chainFrom?_of_chained`), and a
search finds the first of them that fits (`searchFrom_of_chained`).

The address where the first definition goes ends every walk. An empty dictionary is a chain of
that one address, and so is the end of a chain whose oldest definition lies higher.
-/

set_option autoImplicit false

namespace ThreadedForth

/-- A finished definition. -/
structure Definition where
  addr : Addr
  name : List UInt8
  immediate : Bool
  body : Addr
deriving DecidableEq

/-- The address of the newest definition. -/
def newestAddr : List Definition → Addr
  | [] => Layout.firstEntry
  | f :: _ => f.addr

namespace Dictionary

variable {d d' : Dictionary} {f : Definition} {fs : List Definition} {lo hi : Nat}

/-- The dictionary holds the definition. -/
structure Holds (d : Dictionary) (f : Definition) : Prop where
  hasHeader : d.HasHeader f.addr
  text_eq : d.text (d.entryName f.addr) = f.name
  isImmediate_eq : d.isImmediate f.addr = f.immediate
  entryBody_eq : d.entryBody f.addr = f.body

instance (d : Dictionary) (f : Definition) : Decidable (d.Holds f) :=
  decidable_of_iff (_ ∧ _ ∧ _ ∧ _)
    ⟨fun ⟨h, h', h'', h'''⟩ => ⟨h, h', h'', h'''⟩, fun ⟨h, h', h'', h'''⟩ => ⟨h, h', h'', h'''⟩⟩

/-- The dictionary holds the definitions, newest first, linked to each other. -/
inductive Chained (d : Dictionary) : List Definition → Prop
  | nil : Chained d []
  | cons {f : Definition} {fs : List Definition} (holds : d.Holds f)
      (link : (d.linkDistance f.addr).toNat = f.addr.toNat - (newestAddr fs).toNat)
      (above : ∀ g ∈ fs, g.body.toNat ≤ f.addr.toNat) (older : Chained d fs) : Chained d (f :: fs)

instance decidableChained (d : Dictionary) : ∀ fs : List Definition, Decidable (d.Chained fs)
  | [] => isTrue .nil
  | f :: fs =>
    have := decidableChained d fs
    decidable_of_iff (d.Holds f ∧
      (d.linkDistance f.addr).toNat = f.addr.toNat - (newestAddr fs).toNat ∧
        (∀ g ∈ fs, g.body.toNat ≤ f.addr.toNat) ∧ d.Chained fs)
      ⟨fun ⟨h, h', h'', h'''⟩ => .cons h h' h'' h''',
        fun h => by cases h with | cons h h' h'' h''' => exact ⟨h, h', h'', h'''⟩⟩

/-! ## One definition -/

/-- A definition is kept with the bytes from its header to its body. -/
theorem Holds.of_agreeOn (h : d.Holds f) (hd : d.AgreeOn d' lo hi) (hlo : lo ≤ f.addr.toNat)
    (hhi : f.body.toNat ≤ hi) (hhere : f.body.toNat ≤ d'.here.toNat) : d'.Holds f := by
  have hbody := h.entryBody_eq
  have hname := h.hasHeader.name_le
  have hsize := Header.size_le (d.readCell f.addr)
  have htop := f.body.toNat_lt
  rw [hbody] at hname
  have hinfo : d'.readCell f.addr = d.readCell f.addr := hd.readCell hlo (by omega) (by omega)
  have hentry : d'.entryName f.addr = d.entryName f.addr := Dictionary.entryName_eq hinfo
  have hstart := d.toNat_start_entryName f.addr (by omega)
  refine ⟨?_, ?_, ?_, ?_⟩
  · exact h.hasHeader.of_agreeOn hd hlo (by rw [hbody]; exact hhi) (by rw [hbody]; exact hhere)
  · rw [hentry, ← h.text_eq, text, text, length_entryName]
    exact hd.bytesFrom (by omega) (by omega) (by omega)
  · rw [← h.isImmediate_eq]
    exact Dictionary.isImmediate_eq hinfo
  · rw [← hbody]
    exact Dictionary.entryBody_eq hentry

theorem Holds.addr_lt_body (h : d.Holds f) : f.addr.toNat + 2 ≤ f.body.toNat := by
  rw [← h.entryBody_eq]
  exact h.hasHeader.lt_body

theorem Holds.body_le_here (h : d.Holds f) : f.body.toNat ≤ d.here.toNat := by
  rw [← h.entryBody_eq]
  exact h.hasHeader.body_le

theorem Holds.size_name_le (h : d.Holds f) :
    f.addr.toNat + Header.size (d.readCell f.addr) ≤ f.body.toNat := by
  have hname := h.hasHeader.name_le
  rw [h.entryBody_eq] at hname
  omega

/-! ## All definitions -/

theorem Chained.holds_of_mem (h : d.Chained fs) (hf : f ∈ fs) : d.Holds f := by
  induction h with
  | nil => cases hf
  | cons holds link above older ih =>
      rcases List.mem_cons.1 hf with rfl | hf
      · exact holds
      · exact ih hf

/-- Definitions are kept with the bytes of their headers and names. -/
theorem Chained.of_forall_agreeOn (h : d.Chained fs)
    (hd : ∀ f ∈ fs, d.AgreeOn d' f.addr.toNat f.body.toNat)
    (hhere : ∀ f ∈ fs, f.body.toNat ≤ d'.here.toNat) : d'.Chained fs := by
  induction h with
  | nil => exact .nil
  | @cons f fs holds link above older ih =>
      have hmem : f ∈ f :: fs := List.mem_cons_self
      have hsize := holds.size_name_le
      have htop := f.body.toNat_lt
      have hf := hd f hmem
      refine .cons (holds.of_agreeOn hf (Nat.le_refl _) (Nat.le_refl _) (hhere f hmem)) ?_ above
        (ih (fun g hg => hd g (List.mem_cons_of_mem f hg))
          (fun g hg => hhere g (List.mem_cons_of_mem f hg)))
      rw [hf.linkDistance (Nat.le_refl _) (by omega) (by omega), link]

/-- Definitions are kept with the bytes that hold them. -/
theorem Chained.of_agreeOn (h : d.Chained fs) (hd : d.AgreeOn d' lo hi)
    (hlo : lo ≤ Layout.firstEntry.toNat) (hhi : ∀ f ∈ fs, f.body.toNat ≤ hi)
    (hhere : ∀ f ∈ fs, f.body.toNat ≤ d'.here.toNat) : d'.Chained fs := by
  refine h.of_forall_agreeOn (fun f hf => hd.mono ?_ (hhi f hf)) hhere
  exact Nat.le_trans hlo (h.holds_of_mem hf).hasHeader.le_entry

/-- The definition before lies lower, unless it is the address that ends the chain. -/
theorem Chained.newestAddr_lt (h : d.Chained (f :: fs)) (hf : f.addr ≠ Layout.firstEntry) :
    (newestAddr fs).toNat < f.addr.toNat := by
  cases h with
  | cons holds link above older =>
      have hle := holds.hasHeader.le_entry
      cases fs with
      | nil =>
          refine Nat.lt_of_le_of_ne hle fun heq => hf ?_
          exact (UInt16.toNat_inj.1 heq).symm
      | cons g gs =>
          have hg := (older.holds_of_mem List.mem_cons_self).addr_lt_body
          have habove := above g List.mem_cons_self
          show g.addr.toNat < f.addr.toNat
          omega

/-- A definition with another one below it is not the first one. -/
theorem Chained.addr_ne_firstEntry {g : Definition} (h : d.Chained (f :: fs)) (hg : g ∈ fs) :
    f.addr ≠ Layout.firstEntry := by
  cases h with
  | cons holds link above older =>
      have hholds := older.holds_of_mem hg
      have hle := hholds.hasHeader.le_entry
      have hlt := hholds.addr_lt_body
      have habove := above g hg
      intro heq
      rw [heq] at habove
      omega

theorem Chained.le_newestAddr (h : d.Chained fs) :
    Layout.firstEntry.toNat ≤ (newestAddr fs).toNat := by
  cases h with
  | nil => exact Nat.le_refl _
  | cons holds => exact holds.hasHeader.le_entry

theorem Grows.chained (h : d.Grows d') (hc : d.Chained fs) : d'.Chained fs :=
  hc.of_agreeOn h.agreeOn (by decide) (fun _ hf => (hc.holds_of_mem hf).body_le_here)
    (fun _ hf => Nat.le_trans (hc.holds_of_mem hf).body_le_here h.here_le)

theorem Grows.holds (h : d.Grows d') (hf : d.Holds f) : d'.Holds f := by
  have hle := hf.hasHeader.le_entry
  rw [toNat_firstEntry] at hle
  exact hf.of_agreeOn h.agreeOn (by omega) hf.body_le_here
    (Nat.le_trans hf.body_le_here h.here_le)

/-! ## A definition is begun and linked -/

/-- What was begun is held before it is linked. -/
theorem Begins.holds {word : Span} {entry : Addr} (h : d.Begins d' word entry)
    (hlo : 4 ≤ word.start.toNat)
    (hhi : word.start.toNat + word.length.toNat ≤ d.here.toNat) :
    d'.Holds ⟨entry, d.text word, false, d'.here⟩ := by
  refine ⟨h.hasHeader, h.text_eq hlo hhi, ?_, h.body_eq⟩
  show d'.isImmediate entry = false
  unfold isImmediate
  rw [h.readCell_entry, newHeader]
  refine Header.isImmediate_make (Nat.lt_succ_of_le h.length_le) ?_
  split <;> decide

/-- A definition keeps its name and its body when the cells of its header are written anew, as
long as the header has the same size and the name the same length. -/
theorem Holds.of_rewritten_header (h : d.Holds f) (hhere : d'.here = d.here)
    (hlong : Header.isLong (d'.readCell f.addr) = Header.isLong (d.readCell f.addr))
    (hlength : Header.nameLength (d'.readCell f.addr) = Header.nameLength (d.readCell f.addr))
    (habove : d.AgreeOn d' (f.addr.toNat + Header.size (d.readCell f.addr)) 65536) :
    d'.Holds { f with immediate := d'.isImmediate f.addr } := by
  have hname := h.hasHeader.name_le
  have hsize := Header.size_le (d.readCell f.addr)
  have htop := (d.entryBody f.addr).toNat_lt
  have hentry : d'.entryName f.addr = d.entryName f.addr := by
    rw [entryName, entryName, hlong, hlength]
  have hbody := Dictionary.entryBody_eq hentry
  have hstart := d.toNat_start_entryName f.addr (by omega)
  refine ⟨⟨h.hasHeader.le_entry, ?_, ?_⟩, ?_, rfl, ?_⟩
  · rw [hbody, Header.size_eq_of_isLong hlong, hlength]
    exact hname
  · rw [hbody, hhere]
    exact h.hasHeader.body_le
  · rw [hentry, ← h.text_eq, text, text, length_entryName]
    exact habove.bytesFrom (by omega) (by omega) (by omega)
  · rw [hbody, h.entryBody_eq]

/-- The distance is in the first cell of a header, or in a cell that lies above it. -/
theorem linkDistance_eq_of_rewritten_header {entry : Addr}
    (htop : entry.toNat + Header.size (d.readCell entry) < 65536)
    (hlong : Header.isLong (d'.readCell entry) = Header.isLong (d.readCell entry))
    (hdistance : Header.distance (d'.readCell entry) = Header.distance (d.readCell entry))
    (habove : d.AgreeOn d' (entry.toNat + 2) 65536) :
    d'.linkDistance entry = d.linkDistance entry := by
  unfold linkDistance
  by_cases h : Header.isLong (d.readCell entry) = true
  · have h4 : Header.size (d.readCell entry) = 4 := if_pos h
    have h2 : (entry + cellSize).toNat = entry.toNat + 2 := toNat_add_cellSize (by omega)
    simp only [hlong, h, if_true, habove.readCell (Nat.le_of_eq h2.symm) (by omega) (by omega)]
  · simp only [hlong, h, hdistance, Bool.false_eq_true, if_false]

theorem Ends.holds (h : d.Ends d' f.addr) (hf : d.Holds f) : d'.Holds f := by
  have hkept := hf.of_rewritten_header h.here_eq h.isLong_eq h.nameLength_eq h.agreeOn_above
  rw [h.isImmediate_eq, hf.isImmediate_eq] at hkept
  exact hkept

/-- To link a definition is to put it in front of the others. -/
theorem Ends.chained (h : d.Ends d' f.addr) (hf : d.Holds f) (hc : d.Chained fs)
    (hlatest : d.latest = newestAddr fs) (habove : ∀ g ∈ fs, g.body.toNat ≤ f.addr.toNat) :
    d'.Chained (f :: fs) := by
  refine .cons (h.holds hf) ?_ habove ?_
  · rw [h.toNat_linkDistance, hlatest]
  · refine hc.of_agreeOn h.agreeOn_below (by decide) habove fun g hg => ?_
    rw [h.here_eq]
    exact (hc.holds_of_mem hg).body_le_here

/-! ## Walking along the chain -/

/-- The addresses that a walk from the newest definition meets. -/
def trail : List Definition → List Addr
  | [] => [Layout.firstEntry]
  | f :: fs => if f.addr = Layout.firstEntry then [f.addr] else f.addr :: trail fs

theorem older?_firstEntry (d : Dictionary) : d.older? Layout.firstEntry = none := by
  simp only [older?, true_or, if_true]

theorem Chained.older?_eq (h : d.Chained (f :: fs)) (hf : f.addr ≠ Layout.firstEntry) :
    d.older? f.addr = some (newestAddr fs) := by
  have hlt := h.newestAddr_lt hf
  cases h with
  | cons holds link above older =>
      have htop := f.addr.toNat_lt
      have hne : ¬(f.addr = Layout.firstEntry ∨ d.linkDistance f.addr = 0) := by
        rintro (heq | hzero)
        · exact hf heq
        · rw [hzero, UInt16.toNat_zero] at link
          omega
      simp only [older?, if_neg hne]
      refine congrArg some (UInt16.toNat_inj.1 ?_)
      rw [UInt16.toNat_sub, link]
      show (65536 - _ + _) % 65536 = _
      omega

/-- A walk that is long enough meets all definitions. -/
theorem chainFrom?_of_chained (h : d.Chained fs) {n : Nat} (hn : (newestAddr fs).toNat < n) :
    d.chainFrom? n (newestAddr fs) = some (trail fs) := by
  induction fs generalizing n with
  | nil =>
      cases n with
      | zero => omega
      | succ n =>
          show d.chainFrom? (n + 1) Layout.firstEntry = _
          rw [chainFrom?, if_neg (by decide), older?_firstEntry]
          rfl
  | cons f fs ih =>
      cases n with
      | zero => omega
      | succ n =>
          have hle := h.le_newestAddr
          have hnot : ¬ f.addr < Layout.firstEntry := by
            rw [UInt16.lt_iff_toNat_lt]
            exact Nat.not_lt.2 hle
          show d.chainFrom? (n + 1) f.addr = _
          rw [chainFrom?, if_neg hnot, trail]
          by_cases hf : f.addr = Layout.firstEntry
          · rw [hf, older?_firstEntry, if_pos rfl]
          · have hlt := h.newestAddr_lt hf
            rw [h.older?_eq hf, if_neg hf]
            cases h with
            | cons holds link above older =>
                change f.addr.toNat < n + 1 at hn
                have hrest := ih older (n := n) (by omega)
                simp only [hrest, Option.map_some]

theorem chain?_of_chained (h : d.Chained fs) (hlatest : d.latest = newestAddr fs) :
    d.chain? = some (trail fs) := by
  rw [chain?, hlatest]
  exact chainFrom?_of_chained h (newestAddr fs).toNat_lt

/-- Whether a search for a name ends at an address. -/
def fits (d : Dictionary) (name : Span) (a : Addr) : Bool :=
  d.sameText name (d.entryName a) && d.isVisible a

/-- A search looks at the addresses of the chain in their order. -/
theorem searchFrom_of_chainFrom? {name : Span} {n : Nat} {a : Addr} {addrs : List Addr}
    (h : d.chainFrom? n a = some addrs) :
    d.searchFrom name n a =
      match addrs.find? (d.fits name) with
      | some b => .found b
      | none => .absent := by
  induction n generalizing a addrs with
  | zero => cases h
  | succ n ih =>
      rw [chainFrom?] at h
      rw [searchFrom]
      by_cases ha : a < Layout.firstEntry
      · rw [if_pos ha] at h ⊢
        cases h
        rfl
      rw [if_neg ha] at h ⊢
      show (if d.fits name a = true then _ else _) = _
      by_cases hfits : d.fits name a = true
      · rw [if_pos hfits]
        cases holder : d.older? a with
        | none =>
            simp only [holder, Option.some.injEq] at h
            rw [← h, List.find?_cons_of_pos hfits]
        | some b =>
            simp only [holder, Option.map_eq_some_iff] at h
            rcases h with ⟨rest, -, rfl⟩
            rw [List.find?_cons_of_pos hfits]
      · rw [if_neg hfits]
        cases holder : d.older? a with
        | none =>
            simp only [holder, Option.some.injEq] at h
            rw [← h, List.find?_cons_of_neg hfits]
            rfl
        | some b =>
            simp only [holder, Option.map_eq_some_iff] at h
            rcases h with ⟨rest, hrest, rfl⟩
            rw [List.find?_cons_of_neg hfits]
            exact ih hrest

/-- Spans hold the same text if their texts are the same. -/
theorem sameText_eq (d : Dictionary) (s t : Span) :
    d.sameText s t = Text.same (d.text s) (d.text t) := by
  by_cases hlen : s.length = t.length
  · unfold sameText
    rw [hlen, beq_self_eq_true, Bool.true_and]
  · unfold sameText
    rw [beq_false_of_ne hlen, Bool.false_and]
    symm
    rw [Bool.eq_false_iff]
    intro hsame
    have hlength := Text.length_eq_of_same hsame
    unfold text at hlength
    rw [Memory.length_bytesFrom, Memory.length_bytesFrom] at hlength
    exact hlen (UInt16.toNat_inj.1 hlength)

/-! ## Chains that begin at the first address

Where the oldest definition lies at the first address, a walk meets the definitions and nothing
else. -/

/-- The oldest definition lies where the first definition goes. -/
def Rooted (fs : List Definition) : Prop := ∃ f, fs.getLast? = some f ∧ f.addr = Layout.firstEntry

instance (fs : List Definition) : Decidable (Rooted fs) :=
  inferInstanceAs (Decidable (∃ f ∈ fs.getLast?, f.addr = Layout.firstEntry))

theorem Rooted.cons (h : Rooted fs) (f : Definition) : Rooted (f :: fs) := by
  rcases h with ⟨g, hlast, hg⟩
  exact ⟨g, by rw [List.getLast?_cons, hlast]; rfl, hg⟩

theorem trail_of_rooted (h : d.Chained fs) (hroot : Rooted fs) : trail fs = fs.map (·.addr) := by
  induction h with
  | nil =>
      rcases hroot with ⟨f, hlast, -⟩
      cases hlast
  | @cons f fs holds link above older ih =>
      rw [trail, List.map_cons]
      cases fs with
      | nil =>
          rcases hroot with ⟨g, hlast, hg⟩
          obtain rfl : f = g := Option.some.inj hlast
          rw [if_pos hg]
          rfl
      | cons g gs =>
          have hne := (Chained.cons holds link above older).addr_ne_firstEntry List.mem_cons_self
          have hroot' : Rooted (g :: gs) := by
            rcases hroot with ⟨r, hlast, hr⟩
            exact ⟨r, by rw [← hlast, List.getLast?_cons_cons], hr⟩
          rw [if_neg hne, ih hroot']

/-- All entries of a rooted chain are the definitions. -/
theorem entries?_of_chained (h : d.Chained fs) (hlatest : d.latest = newestAddr fs)
    (hroot : Rooted fs) (hvisible : ∀ f ∈ fs, d.isVisible f.addr = true) :
    d.entries? = some (fs.map fun f => d.entryAt f.addr) := by
  rw [entries?, chain?_of_chained h hlatest, trail_of_rooted h hroot, Option.map_some,
    List.filter_eq_self.2, List.map_map]
  · rfl
  · intro a ha
    obtain ⟨f, hf, rfl⟩ := List.mem_map.1 ha
    exact hvisible f hf

/-- A search in a rooted chain finds the newest definition with the name. -/
theorem searchFrom_of_chained (h : d.Chained fs) (hroot : Rooted fs)
    (hvisible : ∀ f ∈ fs, d.isVisible f.addr = true) (name : Span) :
    d.searchFrom name walkLimit (newestAddr fs) =
      match fs.find? fun f => Text.same (d.text name) f.name with
      | some f => .found f.addr
      | none => .absent := by
  have hwalk := chainFrom?_of_chained h (n := walkLimit) (newestAddr fs).toNat_lt
  rw [searchFrom_of_chainFrom? hwalk, trail_of_rooted h hroot, List.find?_map]
  have hfits : ∀ f ∈ fs, (d.fits name ∘ (·.addr)) f = Text.same (d.text name) f.name := by
    intro f hf
    rw [Function.comp_apply, fits, hvisible f hf, Bool.and_true, sameText_eq,
      (h.holds_of_mem hf).text_eq]
  rw [← List.head?_filter, List.filter_congr hfits, List.head?_filter]
  cases fs.find? fun f => Text.same (d.text name) f.name <;> rfl

/-- A name is looked up among the definitions. Nothing has the empty name. -/
theorem find_of_chained (h : d.Chained fs) (hlatest : d.latest = newestAddr fs) (hroot : Rooted fs)
    (hvisible : ∀ f ∈ fs, d.isVisible f.addr = true) (hname : ∀ f ∈ fs, f.name ≠ [])
    (word : Span) :
    d.find word =
      match fs.find? fun f => Text.same (d.text word) f.name with
      | some f => .found f.addr
      | none => .absent := by
  rw [find]
  by_cases hempty : word.isEmpty = true
  · have hlength : word.length.toNat = 0 := by
      rw [Span.isEmpty, beq_iff_eq] at hempty
      rw [hempty]
      rfl
    have hnone : (fs.find? fun f => Text.same (d.text word) f.name) = none := by
      rw [List.find?_eq_none]
      intro f hf hsame
      refine hname f hf (List.length_eq_zero_iff.1 ?_)
      rw [← Text.length_eq_of_same hsame, text, Memory.length_bytesFrom, hlength]
    rw [if_pos hempty, hnone]
  · rw [if_neg hempty, hlatest]
    exact searchFrom_of_chained h hroot hvisible word

/-- Also without any definition, if the place for the first one is not seen. -/
theorem find_of_chained_of_hidden (h : d.Chained fs) (hlatest : d.latest = newestAddr fs)
    (hroot : fs ≠ [] → Rooted fs) (hvisible : ∀ f ∈ fs, d.isVisible f.addr = true)
    (hhidden : fs = [] → d.isVisible Layout.firstEntry = false) (hname : ∀ f ∈ fs, f.name ≠ [])
    (word : Span) :
    d.find word =
      match fs.find? fun f => Text.same (d.text word) f.name with
      | some f => .found f.addr
      | none => .absent := by
  by_cases hne : fs = []
  · -- the walk meets the place for the first definition
    subst hne
    have hwalk := chainFrom?_of_chained h (n := walkLimit) (newestAddr []).toNat_lt
    have htrail : trail [] = [Layout.firstEntry] := rfl
    have hunfit : d.fits word Layout.firstEntry = false := by
      rw [fits, hhidden rfl, Bool.and_false]
    rw [List.find?_nil, find]
    split
    · rfl
    · rw [hlatest, searchFrom_of_chainFrom? hwalk, htrail,
        List.find?_cons_of_neg (by rw [hunfit]; decide), List.find?_nil]
  · exact find_of_chained h hlatest (hroot hne) hvisible hname word

end Dictionary

end ThreadedForth
