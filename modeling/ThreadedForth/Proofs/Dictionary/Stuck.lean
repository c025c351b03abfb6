import ThreadedForth.Proofs.Dictionary.Draft
import ThreadedForth.Proofs.Dictionary.Linking

/-!
# Where a header gets stuck

A header, its name and the padding after it are written one after the other, each in room of its
own, and nothing is given back if there is no room for the next one. So a definition that cannot be
begun for lack of room leaves `here` behind the parts that were written (`of_define_eq_error`). All
that was in the dictionary before is still there (`Abandons`) and is seen as before, with one
exception: once `here` has left the place of the first definition, that place is seen as an entry
(`Abandons.entries?_of_moved`).
-/

set_option autoImplicit false

namespace ThreadedForth.Dictionary

variable {d d' r : Dictionary} {s t : Span} {e : Error}

/-! ## Requests that are refused -/

theorem of_allot_eq_error {amount : Cell} (h : allot amount d = .error e d') :
    e = .dictionaryFull d.here amount ∧ d' = d ∧
      ¬ (Layout.firstEntry.toNat ≤ d.here.toNat + amount.toInt ∧
        d.here.toNat + amount.toInt < d.capacity) := by
  simp only [allot] at h
  split at h
  · cases h
  · rename_i hfull
    cases h
    exact ⟨rfl, rfl, hfull⟩

theorem of_append_eq_error {v : Cell} (h : append v d = .error e d') :
    e = .dictionaryFull d.here cellSize.toInt16 ∧ d' = d ∧ ¬ d.HasRoom := by
  by_cases hroom : d.HasRoom
  · obtain ⟨d1, hok⟩ := exists_of_value?_eq_some (value?_append_iff.2 hroom)
    rw [hok] at h
    cases h
  · rw [append_eq_of_not_hasRoom hroom] at h
    cases h
    exact ⟨rfl, rfl, hroom⟩

/-- `here` is left odd if the next address is not in the memory. -/
theorem of_alignHere_eq_error (h : alignHere d = .error e d') :
    (∃ amount, e = .dictionaryFull d.here amount) ∧ d' = d ∧
      ¬ (Layout.firstEntry.toNat ≤ d.here.toNat + d.here.toNat % 2 ∧
        d.here.toNat + d.here.toNat % 2 < d.capacity) := by
  rw [alignHere_eq] at h
  split at h
  · cases h
  · rename_i hallot
    cases h
    obtain ⟨rfl, rfl, hfull⟩ := of_allot_eq_error hallot
    rw [toInt_padding] at hfull
    exact ⟨⟨_, rfl⟩, rfl, fun hfits => hfull (by omega)⟩

/-! ## The parts of a header -/

/-- A header begins in the memory, or its second cell does not fit. -/
theorem of_appendHeader_eq_error {info : Cell} (hd : d.Ready)
    (h : appendHeader info d = .error e d') : (∃ amount, e = .dictionaryFull d'.here amount) ∧
      (d'.here.toNat = d.here.toNat ∧ d.capacity ≤ d.here.toNat + 2 ∨
        d'.here.toNat = d.here.toNat + 2 ∧ d.here.toNat + 2 < d.capacity ∧
          d.capacity ≤ d.here.toNat + Header.size info) := by
  have hle := hd.le_here
  rcases of_bind_eq_error h with hfirst | ⟨_, d1, hfirst, h⟩
  · obtain ⟨rfl, rfl, hroom⟩ := of_append_eq_error hfirst
    unfold HasRoom at hroom
    exact ⟨⟨_, rfl⟩, .inl ⟨rfl, by omega⟩⟩
  · obtain ⟨hgrow, hready, hnum, -⟩ := of_append_eq_ok hfirst
    have hlt := hready.here_lt
    have hcap := hgrow.capacity_eq
    split at h
    · rename_i hlong
      obtain ⟨rfl, rfl, hroom⟩ := of_append_eq_error h
      have h4 : Header.size info = 4 := if_pos hlong
      unfold HasRoom at hroom
      exact ⟨⟨_, rfl⟩, .inr ⟨hnum, by omega, by omega⟩⟩
    · cases h

/-- A name does not fit, or what makes `here` even after it does not. -/
theorem of_appendName_eq_error (hlen : s.length.toNat < 32) (hd : d.Ready)
    (h : appendName s d = .error e d') : (∃ amount, e = .dictionaryFull d'.here amount) ∧
      (d'.here.toNat = d.here.toNat ∧ d.capacity ≤ d.here.toNat + s.length.toNat ∨
        d'.here.toNat = d.here.toNat + s.length.toNat ∧
          d.here.toNat + s.length.toNat < d.capacity) := by
  have hle := hd.le_here
  rcases of_bind_eq_error h with hallot | ⟨target, d1, hallot, h⟩
  · obtain ⟨rfl, rfl, hfull⟩ := of_allot_eq_error hallot
    rw [toInt_toInt16 (by omega)] at hfull
    exact ⟨⟨_, rfl⟩, .inl ⟨rfl, by omega⟩⟩
  · obtain ⟨hgrow, -, hnum⟩ := of_allot_copyBytes hlen hallot
    change (discard alignHere) (d1.copyBytes s.start target s.length.toNat) = _ at h
    rcases of_bind_eq_error h with halign | ⟨_, _, -, h⟩
    · obtain ⟨hfull, rfl, -⟩ := of_alignHere_eq_error halign
      have hlt := hgrow.here_lt
      rw [hgrow.capacity_eq] at hlt
      exact ⟨hfull, .inr ⟨hnum, by omega⟩⟩
    · cases h

/-! ## A header that does not fit -/

/-- The bytes before the name of an entry, if the latest entry is at `latest`. -/
def headerSize (entry latest : Addr) : Nat :=
  if Header.longDistance ≤ entry - latest then 4 else 2

/-- Where `here` stays if the memory ends before the header at `entry` and the name of so many bytes do,
or with the name. -/
def stuckAt (capacity entry size length : Nat) : Nat :=
  if capacity ≤ entry + 2 then entry
  else if capacity ≤ entry + size then entry + 2
  else if capacity ≤ entry + size + length then entry + size
  else entry + size + length

/-- Where a definition cannot be begun, the parts of it that fit are not given back. -/
theorem of_define_eq_error (hd : d.Ready) (heven : d.here.toNat % 2 = 0)
    (hlen : s.length.toNat ≤ Header.maxNameLength) (h : define s d = .error e d') :
    (∃ amount, e = .dictionaryFull d'.here amount) ∧
      d'.here.toNat =
        stuckAt d.capacity d.here.toNat (headerSize d.here d.latest) s.length.toNat := by
  have hlen' : s.length.toNat < 32 := Nat.lt_succ_of_le hlen
  have hle := hd.le_here
  have hlt := hd.here_lt
  rw [define_eq, if_neg (Nat.not_lt.2 hlen)] at h
  rcases of_bind_eq_error h with halign | ⟨entry, d1, halign, h⟩
  · obtain ⟨-, -, hfull⟩ := of_alignHere_eq_error halign
    exact absurd ⟨by omega, by omega⟩ hfull
  obtain ⟨rfl, hgrow1, hready1, hnum1, hagree1⟩ := of_alignHere_eq_ok halign
  have hhere : d1.here = d.here := UInt16.toNat_inj.1 (by omega)
  have hlatest : d1.latest = d.latest := hagree1.reservedAddr (c := .latest) (by decide) (by decide)
  have hsize : Header.size (d1.newHeader d1.here s.length) = headerSize d.here d.latest := by
    rw [d1.size_newHeader d1.here hlen', hlatest, hhere]
    rfl
  have hsize2 := Header.size_le (d1.newHeader d1.here s.length)
  have hcap1 := hgrow1.capacity_eq
  rw [hsize] at hsize2
  -- `here` is even, so what does not fit is one of the two cells of the header, or the name
  change (appendHeader (d1.newHeader d1.here s.length) >>= fun _ => appendName s) d1 = _ at h
  rcases of_bind_eq_error h with hheader | ⟨_, d2, hheader, hname⟩
  · obtain ⟨hfull, hstuck⟩ := of_appendHeader_eq_error hready1 hheader
    rw [hsize, hhere, hcap1] at hstuck
    refine ⟨hfull, ?_⟩
    rcases hstuck with ⟨heq, hcap⟩ | ⟨heq, hfirst, hcap⟩
    · rw [heq, stuckAt, if_pos hcap]
    · rw [heq, stuckAt, if_neg (Nat.not_le.2 hfirst), if_pos hcap]
  · obtain ⟨hgrow2, hready2, hnum2, -⟩ := of_appendHeader_eq_ok hheader
    obtain ⟨hfull, hstuck⟩ := of_appendName_eq_error hlen' hready2 hname
    have hcap2 : d2.capacity = d.capacity := hgrow2.capacity_eq.trans hcap1
    have hlt2 := hready2.here_lt
    rw [hsize, hhere] at hnum2
    rw [hnum2, hcap2] at hlt2 hstuck
    refine ⟨hfull, ?_⟩
    rcases hstuck with ⟨heq, hcap⟩ | ⟨heq, hcap⟩
    · rw [heq, stuckAt, if_neg (by omega), if_neg (by omega), if_pos hcap]
    · rw [heq, stuckAt, if_neg (by omega), if_neg (by omega), if_neg (by omega)]

/-- What was written before there was no more room lies above all that was in the dictionary. -/
theorem grows_lastState_define (s : Span) (hd : d.Ready) : d.Grows (lastState (define s d)) := by
  have hroom : ∀ {amount : Cell}, 0 ≤ amount.toInt →
      Relates (fun d d' => d.Ready → d.Grows d') (allot amount) := fun h0 =>
    .of_ok (fun _ => .refl) eq_of_allot_eq_error fun h _ => grows_of_allot h h0
  have hadd : ∀ v, Relates (fun d d' => d.Ready → d.Grows d') (append v) := fun _ =>
    .of_ok (fun _ => .refl) eq_of_append_eq_error fun h _ => (of_append_eq_ok h).1
  have hrel : Relates (fun d d' => d.Ready → d.Grows d') (define s) := by
    refine relates_define_of (fun _ => .refl) (fun h h' hd => (h hd).trans (h' ((h hd).ready hd)))
      hroom hadd (fun hlen h _ => ?_) s
    exact (of_allot_copyBytes hlen h).1
  exact hrel d hd

/-! ## What is left of the dictionary -/

/-- A definition was given up. All that lay below the place for it is there, nothing is linked or
compiled, and `here` did not go back. -/
structure Abandons (d r : Dictionary) : Prop where
  latest_eq : r.latest = d.latest
  compiling_eq : r.compiling = false
  agreeOn : d.AgreeOn r 96 (d.here.toNat + d.here.toNat % 2)
  here_le : d.here.toNat ≤ r.here.toNat

/-- Nothing is seen before `here` has left the place of the first definition. -/
theorem entries?_of_here_eq {addrs : List Addr} (h : d.chain? = some addrs)
    (hhere : d.here = Layout.firstEntry) : d.entries? = some [] := by
  have hnone : addrs.filter d.isVisible = [] := List.filter_eq_nil_iff.2 fun a _ => by
    rw [isVisible, hhere, bne_self_eq_false, Bool.false_and]
    exact Bool.false_ne_true
  rw [entries?, h, Option.map_some, hnone, List.map_nil]

section Chained

variable {fs : List Definition} (hchained : d.Chained fs) (hlatest : d.latest = newestAddr fs)
  (hcompiling : d.compiling = false) (hle : Layout.firstEntry ≤ d.here)

include hchained

theorem Abandons.chained (h : d.Abandons r) : r.Chained fs :=
  hchained.of_agreeOn h.agreeOn (Nat.le_refl _)
    (fun _ hf => Nat.le_trans (hchained.holds_of_mem hf).body_le_here (Nat.le_add_right _ _))
    fun _ hf => Nat.le_trans (hchained.holds_of_mem hf).body_le_here h.here_le

include hle

/-- An entry that a walk meets is told by bytes that are still there. -/
theorem Abandons.entryAt_eq (h : d.Abandons r) (hhere : d.here ≠ Layout.firstEntry) {a : Addr}
    (ha : a ∈ trail fs) : r.entryAt a = d.entryAt a := by
  have hlo : 96 ≤ d.here.toNat := UInt16.le_iff_toNat_le.1 hle
  have hne : d.here.toNat ≠ 96 := fun heq => hhere (UInt16.toNat_inj.1 heq)
  have htop : d.here.toNat < 65536 := d.here.toNat_lt
  rcases eq_firstEntry_or_of_mem_trail ha with rfl | ⟨f, hf, rfl⟩
  · exact Dictionary.entryAt_eq
      (h.agreeOn.readCell (Nat.le_refl _) (by rw [toNat_firstEntry]; omega) (by decide))
  · have hholds := hchained.holds_of_mem hf
    have hfirst := hholds.hasHeader.le_entry
    have hlt := hholds.addr_lt_body
    have hbody := hholds.body_le_here
    exact Dictionary.entryAt_eq (h.agreeOn.readCell hfirst (by omega) (by omega))

include hlatest hcompiling

/-- The entries are those there were, unless `here` has left the place of the first definition. -/
theorem Abandons.entries?_eq (h : d.Abandons r)
    (hseen : r.here = Layout.firstEntry ↔ d.here = Layout.firstEntry) : r.entries? = d.entries? := by
  have hchain := chain?_of_chained hchained hlatest
  have hchain' := chain?_of_chained (h.chained hchained) (h.latest_eq.trans hlatest)
  by_cases hhere : d.here = Layout.firstEntry
  · rw [entries?_of_here_eq hchain hhere, entries?_of_here_eq hchain' (hseen.2 hhere)]
  · rw [entries?_of_chain?_eq_some hchain hcompiling hhere,
      entries?_of_chain?_eq_some hchain' h.compiling_eq (mt hseen.1 hhere)]
    exact congrArg some (List.map_congr_left fun a ha => h.entryAt_eq hchained hle hhere ha)

omit hcompiling hle in
/-- Where nothing was defined, the place of the first definition is then seen as an entry. -/
theorem Abandons.entries?_of_moved (h : d.Abandons r) (hhere : d.here = Layout.firstEntry)
    (hmoved : r.here ≠ Layout.firstEntry) :
    d.entries? = some [] ∧ r.entries? = some [r.entryAt Layout.firstEntry] := by
  -- a definition would lie below `here`
  obtain rfl : fs = [] := by
    refine List.eq_nil_iff_forall_not_mem.2 fun f hf => ?_
    have hholds := hchained.holds_of_mem hf
    have hfirst := hholds.hasHeader.le_entry
    have hlt := hholds.addr_lt_body
    have hbody := hholds.body_le_here
    rw [hhere] at hbody
    omega
  exact ⟨entries?_of_here_eq (chain?_of_chained hchained hlatest) hhere,
    entries?_of_chain?_eq_some
      (chain?_of_chained (h.chained hchained) (h.latest_eq.trans hlatest)) h.compiling_eq hmoved⟩

omit hle in
/-- A search ends as it did before. Where no definition lies at the first address, this asks that no
name was written over what is seen there. -/
theorem Abandons.find_eq (h : d.Abandons r)
    (hseen : r.here = Layout.firstEntry ↔ d.here = Layout.firstEntry)
    (hfirst : Rooted fs ∨ d.here = Layout.firstEntry ∨
      r.text (r.entryName Layout.firstEntry) = d.text (d.entryName Layout.firstEntry))
    (htext : r.text t = d.text s) : r.find t = d.find s := by
  have hempty : t.isEmpty = s.isEmpty := by
    have hlength := congrArg List.length htext
    rw [text, text, Memory.length_bytesFrom, Memory.length_bytesFrom] at hlength
    rw [Span.isEmpty, Span.isEmpty, UInt16.toNat_inj.1 hlength]
  have hvisible : ∀ a, r.isVisible a = d.isVisible a := by
    intro a
    rw [isVisible_of_not_compiling h.compiling_eq, isVisible_of_not_compiling hcompiling,
      Bool.eq_iff_iff, bne_iff_ne, bne_iff_ne, Ne, Ne, hseen]
  have hfits : ∀ a ∈ trail fs, r.fits t a = d.fits s a := by
    intro a ha
    by_cases hhere : d.here = Layout.firstEntry
    · have hunseen : d.isVisible a = false := by
        rw [isVisible, hhere, bne_self_eq_false, Bool.false_and]
      rw [fits, fits, hvisible, hunseen, Bool.and_false, Bool.and_false]
    · have hname : r.text (r.entryName a) = d.text (d.entryName a) := by
        rcases hfirst with hroot | heq | hkept
        · rw [trail_of_rooted hchained hroot] at ha
          obtain ⟨f, hf, rfl⟩ := List.mem_map.1 ha
          rw [((h.chained hchained).holds_of_mem hf).text_eq, (hchained.holds_of_mem hf).text_eq]
        · exact absurd heq hhere
        · rcases eq_firstEntry_or_of_mem_trail ha with rfl | ⟨f, hf, rfl⟩
          · exact hkept
          · rw [((h.chained hchained).holds_of_mem hf).text_eq, (hchained.holds_of_mem hf).text_eq]
      rw [fits, fits, hvisible, sameText_eq, sameText_eq, htext, hname]
  have hwalk : d.chainFrom? walkLimit d.latest = some (trail fs) :=
    chain?_of_chained hchained hlatest
  have hwalk' : r.chainFrom? walkLimit r.latest = some (trail fs) :=
    chain?_of_chained (h.chained hchained) (h.latest_eq.trans hlatest)
  rw [find, find, hempty, searchFrom_of_chainFrom? hwalk, searchFrom_of_chainFrom? hwalk',
    List.find?_congr hfits]

end Chained

end ThreadedForth.Dictionary
