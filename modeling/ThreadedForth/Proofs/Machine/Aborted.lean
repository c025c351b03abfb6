import ThreadedForth.Proofs.Dictionary.Stuck
import ThreadedForth.Proofs.Machine.Beginning
import ThreadedForth.Proofs.Machine.Underway

/-!
# A definition that could not be begun

`:` sets the cell `compiling` last, and a reset gives room back only where that cell is set. So when
`:` fails, a reset does not move `here`: it stays where the failure left it (`abandonedHere`). This is
the place of the new entry, as long as no cell of its header was written. Otherwise the cells and the
bytes that fit are kept, a header that no chain leads to. The main result,
`reset_of_colon_eq_error`, says where `here` is and what is seen then: the same as before, but for the
place of the first definition if `here` has just left it.
-/

set_option autoImplicit false

namespace ThreadedForth

namespace Dictionary

variable {d d1 d2 : Dictionary}

/-! ## The place that was noted -/

/-- `here` was made even, and nothing was written to it yet. -/
structure Noted (d d1 : Dictionary) : Prop where
  capacity_eq : d1.capacity = d.capacity
  latest_eq : d1.latest = d.latest
  compiling_eq : d1.compiling = d.compiling
  ready : d1.Ready
  toNat_here : d1.here.toNat = d.here.toNat + d.here.toNat % 2
  agreeOn : d.AgreeOn d1 96 65536

namespace Noted

theorem of_alignHere_eq_ok {a : Addr} (h : alignHere d = .ok a d1) : d.Noted d1 := by
  obtain ⟨-, hgrow, hready, hnum, hagree⟩ := Dictionary.of_alignHere_eq_ok h
  refine ⟨hgrow.capacity_eq, hagree.reservedAddr (by decide) (by decide), ?_, hready, hnum,
    hagree.mono (by decide) (Nat.le_refl _)⟩
  rw [compiling, compiling, hagree.reserved (by decide) (by decide)]

theorem setOpenEntry (h : d.Noted d1) (a : Addr) : d.Noted (d1.setReservedAddr .openEntry a) := by
  have hhere : (d1.setReservedAddr .openEntry a).here = d1.here :=
    d1.here_setReserved _ _ (by decide)
  refine ⟨(capacity_setReservedAddr ..).trans h.capacity_eq,
    (d1.latest_setReserved _ _ (by decide)).trans h.latest_eq, ?_,
    h.ready.of_here_eq hhere (capacity_setReservedAddr ..), by rw [hhere, h.toNat_here],
    h.agreeOn.trans (d1.agreeOn_setReserved .openEntry _ (.inl (by decide)))⟩
  rw [← h.compiling_eq, compiling, compiling, setReservedAddr,
    d1.reserved_setReserved_of_ne _ (by decide)]

theorem of_inputOnly (h : d.Noted d1) (hd : d1.InputOnly d2) : d.Noted d2 :=
  ⟨hd.capacity_eq.trans h.capacity_eq, hd.latest_eq.trans h.latest_eq,
    hd.compiling_eq.trans h.compiling_eq, hd.ready h.ready, by rw [hd.here_eq, h.toNat_here],
    h.agreeOn.trans hd.agreeOn_above⟩

end Noted

theorem compiling_setReserved_zero (d : Dictionary) :
    (d.setReserved .compiling 0).compiling = false := by
  have hzero : (d.setReserved .compiling 0).reserved .compiling = 0 := d.readCell_writeCell_zero _
  rw [compiling, hzero]
  rfl

/-- What was written from the place on does not touch what is below it. -/
theorem Noted.abandons (h : d.Noted d1) (hgrow : d1.Grows d2) :
    d.Abandons (d2.setReserved .compiling 0) where
  latest_eq := (d2.latest_setReserved _ _ (by decide)).trans
    ((hgrow.latest_eq h.ready).trans h.latest_eq)
  compiling_eq := d2.compiling_setReserved_zero
  agreeOn := by
    have htop := d1.here.toNat_lt
    rw [← h.toNat_here]
    exact ((h.agreeOn.mono (Nat.le_refl _) (Nat.le_of_lt htop)).trans
      (hgrow.agreeOn.mono (by decide) (Nat.le_refl _))).trans
      (d2.agreeOn_setReserved .compiling _ (.inl (by decide)))
  here_le := by
    have hle := hgrow.here_le
    rw [h.toNat_here] at hle
    rw [d2.here_setReserved _ _ (by decide)]
    omega

/-- Where `here` stays after `:` failed, having read the name if one is given. -/
def abandonedHere (d : Dictionary) (name? : Option Span) : Nat :=
  let entry := d.here.toNat + d.here.toNat % 2
  if d.capacity ≤ entry then d.here.toNat
  else
    match name? with
    | none => entry
    | some name =>
      if Header.maxNameLength < name.length.toNat then entry
      else stuckAt d.capacity entry (headerSize (aligned d.here) d.latest) name.length.toNat

end Dictionary

namespace Machine

open Dictionary

variable {H : Type} {hooks : Hooks H} {call : Interpreter H} {n : Nat} {m m' m1 : Machine H}
  {fs : List Definition} {stop : Stop}

/-! ## Where `:` fails -/

/-- `:` as far as the name of the new definition. -/
def awaitName (hooks : Hooks H) (call : Interpreter H) (n : Nat) : MachineM H Span :=
  noteEntry >>= fun _ => awaitWord hooks call n

theorem colon_eq_awaitName_bind (hooks : Hooks H) (call : Interpreter H) (n : Nat) :
    colon hooks call n = awaitName hooks call n >>= beginWord := by
  rw [colon_eq_bind, awaitName, bind_assoc]

/-- If nothing is compiled, a reset leaves `here` where it is. -/
theorem dictionary_reset_of_not_compiling (h : m.dictionary.compiling = false) :
    m.reset.dictionary = m.dictionary.setReserved .compiling 0 := by
  have hrewinds : m.rewinds = false := by
    rw [rewinds, h]
    rfl
  rw [dictionary_reset, hrewinds]
  rfl

/-- The place of the entry is noted, unless it does not lie in the memory. -/
theorem of_noteEntry_eq_error (hle : Layout.firstEntry ≤ m.dictionary.here)
    (h : noteEntry m = .error stop m1) :
    m1.dictionary = m.dictionary ∧
        m.dictionary.capacity ≤ m.dictionary.here.toNat + m.dictionary.here.toNat % 2 ∨
      m.dictionary.Noted m1.dictionary := by
  have hlo := UInt16.le_iff_toNat_le.1 hle
  rcases of_bind_eq_error h with halign | ⟨entry, m2, halign, h⟩
  · left
    simp only [onDictionary] at halign
    split at halign
    · cases halign
    · rename_i hfails
      cases halign
      obtain ⟨-, rfl, hfull⟩ := of_alignHere_eq_error hfails
      exact ⟨rfl, by omega⟩
  · right
    obtain ⟨d1, hd1, rfl⟩ := exists_of_onDictionary_eq_ok halign
    have hnoted := Noted.of_alignHere_eq_ok hd1
    rcases of_bind_eq_error h with hpush | ⟨_, m3, -, h⟩
    · simp only [push, onData] at hpush
      split at hpush
      · cases hpush
      · cases hpush
        exact hnoted
    · cases h

theorem noted_of_noteEntry_eq_ok (h : noteEntry m = .ok () m1) :
    m.dictionary.Noted m1.dictionary := by
  obtain ⟨entry, d, data, halign, -, rfl⟩ := of_noteEntry_eq_ok h
  exact (Noted.of_alignHere_eq_ok halign).setOpenEntry entry

theorem noted_of_awaitName_eq_ok (hrefill : QuietRefill hooks call) {name : Span}
    (h : awaitName hooks call n m = .ok name m1) : m.dictionary.Noted m1.dictionary := by
  obtain ⟨_, m2, hnote, hawait⟩ := exists_of_bind_eq_ok h
  exact (noted_of_noteEntry_eq_ok hnote).of_inputOnly
    ((relates_awaitWord hrefill n).of_eq_ok hawait).dictionary

theorem of_awaitName_eq_error (hrefill : QuietRefill hooks call)
    (hle : Layout.firstEntry ≤ m.dictionary.here) (h : awaitName hooks call n m = .error stop m1) :
    m1.dictionary = m.dictionary ∧
        m.dictionary.capacity ≤ m.dictionary.here.toNat + m.dictionary.here.toNat % 2 ∨
      m.dictionary.Noted m1.dictionary := by
  rcases of_bind_eq_error h with hnote | ⟨_, m2, hnote, hawait⟩
  · exact of_noteEntry_eq_error hle hnote
  · exact .inr ((noted_of_noteEntry_eq_ok hnote).of_inputOnly
      ((relates_awaitWord hrefill n).of_eq_error hawait).dictionary)

/-! ## What is left -/

theorem Noted.here_eq_abandonedHere {d d1 : Dictionary} (h : d.Noted d1) :
    d1.here.toNat = d.abandonedHere none := by
  have hlt := h.ready.here_lt
  rw [h.capacity_eq, h.toNat_here] at hlt
  simp only [abandonedHere]
  rw [if_neg (Nat.not_le.2 hlt), h.toNat_here]

/-- A header that could not be written leaves `here` behind its parts. -/
theorem Noted.here_of_define_eq_error {d d1 d2 : Dictionary} {name : Span} {e : Error}
    (h : d.Noted d1) (hdefine : define name d1 = .error e d2) :
    d2.here.toNat = d.abandonedHere (some name) := by
  have hlt := h.ready.here_lt
  have hcap := d1.capacity_le
  have hnum := h.toNat_here
  have haligned : aligned d.here = d1.here := by
    apply UInt16.toNat_inj.1
    rw [toNat_aligned (by omega), h.toNat_here]
  rw [h.capacity_eq, h.toNat_here] at hlt
  simp only [abandonedHere]
  rw [if_neg (Nat.not_le.2 hlt)]
  by_cases hlen : Header.maxNameLength < name.length.toNat
  · rw [define_eq_of_long hlen] at hdefine
    cases hdefine
    rw [if_pos hlen, h.toNat_here]
  · obtain ⟨-, hhere⟩ :=
      of_define_eq_error h.ready (by omega) (Nat.not_lt.1 hlen) hdefine
    rw [if_neg hlen, hhere, h.capacity_eq, h.latest_eq, haligned, h.toNat_here]

/-- Where nothing is compiled, a reset keeps what was written from the place on. -/
theorem abandons_reset_of_noted {d d1 : Dictionary} (h : d.Noted d1)
    (hgrow : d1.Grows m.dictionary) (hcompiling : d.compiling = false) :
    d.Abandons m.reset.dictionary ∧ m.reset.dictionary.here = m.dictionary.here := by
  rw [dictionary_reset_of_not_compiling
    ((hgrow.compiling_eq h.ready).trans (h.compiling_eq.trans hcompiling))]
  exact ⟨h.abandons hgrow, m.dictionary.here_setReserved _ _ (by decide)⟩

theorem of_colon_eq_error (hrefill : QuietRefill hooks call)
    (hcompiling : m.dictionary.compiling = false) (hle : Layout.firstEntry ≤ m.dictionary.here)
    (h : colon hooks call n m = .error stop m') :
    m.dictionary.Abandons m'.reset.dictionary ∧ m'.reset.dictionary.here.toNat =
      m.dictionary.abandonedHere (value? (awaitName hooks call n m)) := by
  rw [colon_eq_awaitName_bind] at h
  -- it fails before the name is read, or when the header is written
  rcases of_bind_eq_error h with hname | ⟨name, m1, hname, h⟩
  · rw [hname]
    show _ ∧ _ = m.dictionary.abandonedHere none
    rcases of_awaitName_eq_error hrefill hle hname with ⟨heq, hfull⟩ | hnoted
    · have hreset := dictionary_reset_of_not_compiling (m := m') (by rw [heq, hcompiling])
      have hhere := m.dictionary.here_setReserved .compiling 0 (by decide)
      rw [hreset, heq]
      refine ⟨⟨m.dictionary.latest_setReserved _ _ (by decide),
        m.dictionary.compiling_setReserved_zero,
        m.dictionary.agreeOn_setReserved .compiling _ (.inl (by decide)), ?_⟩, ?_⟩
      · rw [hhere]
      · simp only [abandonedHere]
        rw [hhere, if_pos hfull]
    · obtain ⟨habandons, hhere⟩ := abandons_reset_of_noted hnoted (.refl hnoted.ready) hcompiling
      refine ⟨habandons, ?_⟩
      rw [hhere]
      exact Noted.here_eq_abandonedHere hnoted
  · rw [hname]
    show _ ∧ _ = m.dictionary.abandonedHere (some name)
    have hnoted := noted_of_awaitName_eq_ok hrefill hname
    rcases of_bind_eq_error h with hdefine | ⟨_, m2, -, h⟩
    · simp only [onDictionary] at hdefine
      split at hdefine
      · cases hdefine
      · rename_i e d2 hfails
        cases hdefine
        have hgrow := m1.dictionary.grows_lastState_define name hnoted.ready
        rw [hfails, lastState_error] at hgrow
        obtain ⟨habandons, hhere⟩ := abandons_reset_of_noted
          (m := ⟨d2, m1.data, m1.returns, m1.ip, m1.host⟩) hnoted hgrow hcompiling
        refine ⟨habandons, ?_⟩
        rw [hhere]
        exact Noted.here_of_define_eq_error hnoted hfails
    · cases h

/-- After `:` failed and a reset, the latest entry is the same, `here` is behind what was written of
the header, and all entries are seen and found as before, unless `here` has left the place of the
first definition: then that place is seen as an entry. -/
theorem reset_of_colon_eq_error (hrefill : QuietRefill hooks call)
    (hcompiling : m.dictionary.compiling = false) (hchained : m.dictionary.Chained fs)
    (hlatest : m.dictionary.latest = newestAddr fs) (hle : Layout.firstEntry ≤ m.dictionary.here)
    (h : colon hooks call n m = .error stop m') :
    let d := m.dictionary
    let r := m'.reset.dictionary
    r.here.toNat = d.abandonedHere (value? (awaitName hooks call n m)) ∧ r.latest = d.latest ∧
      r.compiling = false ∧ r.Chained fs ∧
      ((r.here = Layout.firstEntry ↔ d.here = Layout.firstEntry) →
        r.entries? = d.entries? ∧
        ∀ s t, (Rooted fs ∨ d.here = Layout.firstEntry ∨
            r.text (r.entryName Layout.firstEntry) = d.text (d.entryName Layout.firstEntry)) →
          r.text t = d.text s → r.find t = d.find s) ∧
      (d.here = Layout.firstEntry → r.here ≠ Layout.firstEntry →
        d.entries? = some [] ∧ r.entries? = some [r.entryAt Layout.firstEntry]) := by
  obtain ⟨habandons, hhere⟩ := of_colon_eq_error hrefill hcompiling hle h
  refine ⟨hhere, habandons.latest_eq, habandons.compiling_eq, habandons.chained hchained,
    fun hseen => ⟨?_, fun s t hfirst htext => ?_⟩, fun hd hr => ?_⟩
  · exact habandons.entries?_eq hchained hlatest hcompiling hle hseen
  · exact habandons.find_eq hchained hlatest hcompiling hseen hfirst htext
  · exact habandons.entries?_of_moved hchained hlatest hd hr

/-- A machine with a hundred bytes, and the word that is to become its first definition. -/
def tightMachine : Machine Unit :=
  let m : Machine Unit := ofConfig ⟨64, 64, 100⟩ ()
  { m with dictionary := lastState (loadInput [97, 98, 99, 100, 101, 102] m.dictionary) }

/-- The first cell of the header fits and the name does not. The header is not given back, and it is
seen where there was no entry. -/
theorem reset_of_colon_tightMachine : ∃ m', colon {} (interpreter {} 0) 1 tightMachine =
      .error (.error (.dictionaryFull 98 6)) m' ∧
    tightMachine.dictionary.here = 96 ∧ m'.reset.dictionary.here = 98 ∧
    tightMachine.dictionary.entries? = some [] ∧
    m'.reset.dictionary.entries? = some [m'.reset.dictionary.entryAt 96] := by
  have hfacts : error? (colon {} (interpreter {} 0) 1 tightMachine) =
        some (.error (.dictionaryFull 98 6)) ∧
      tightMachine.dictionary.compiling = false ∧ tightMachine.dictionary.latest = newestAddr [] ∧
      tightMachine.dictionary.here = 96 ∧
      tightMachine.dictionary.abandonedHere
        (value? (awaitName {} (interpreter {} 0) 1 tightMachine)) = 98 := by
    decide +kernel
  obtain ⟨herror, hcompiling, hlatest, hhere, hstuck⟩ := hfacts
  have hcolon := eq_error_lastState herror
  obtain ⟨hafter, -, -, -, -, hmoved⟩ := reset_of_colon_eq_error (quietRefill_default _) hcompiling
    .nil hlatest (by rw [hhere]; decide) hcolon
  have hafter' : (lastState (colon {} (interpreter {} 0) 1 tightMachine)).reset.dictionary.here =
      98 := UInt16.toNat_inj.1 (hafter.trans hstuck)
  obtain ⟨hnone, hone⟩ := hmoved hhere (by rw [hafter']; decide)
  exact ⟨_, hcolon, hhere, hafter', hnone, hone⟩

end Machine

end ThreadedForth
