import ThreadedForth.Proofs.Dictionary.Draft

/-!
# Dictionaries that differ in the source

`InputOnly d d'` also relates two dictionaries of which neither came from the other one: they hold the
same but for the source and the input buffer. What adds to a dictionary does not look there, so it does
the same in both, with the same value or the same error, and they differ as before (`Parallel`). Only
the name of a new definition is read in the buffer. It may lie at different places, as long as it is the
same text (`coupled_define`).
-/

set_option autoImplicit false

namespace ThreadedForth

namespace Dictionary

variable {d d' : Dictionary} {α β : Type}

namespace InputOnly

theorem symm (h : d.InputOnly d') : d'.InputOnly d :=
  ⟨h.capacity_eq.symm, h.agreeOn_below.symm, h.agreeOn_above.symm⟩

/-! ## The same writes in both -/

theorem writeCell (h : d.InputOnly d') (a : Addr) (v : Cell) :
    (d.writeCell a v).InputOnly (d'.writeCell a v) where
  capacity_eq := by simp [h.capacity_eq]
  agreeOn_below := h.agreeOn_below.writeCell a v h.capacity_eq
  agreeOn_above := h.agreeOn_above.writeCell a v h.capacity_eq

theorem writeByte (h : d.InputOnly d') (a : Addr) (v : UInt8) :
    (d.writeByte a v).InputOnly (d'.writeByte a v) where
  capacity_eq := by simp [h.capacity_eq]
  agreeOn_below :=
    agreeOn_of_writeByte v h.capacity_eq fun b hlo hhi _ => h.agreeOn_below b hlo hhi
  agreeOn_above :=
    agreeOn_of_writeByte v h.capacity_eq fun b hlo hhi _ => h.agreeOn_above b hlo hhi

theorem writeBytes (h : d.InputOnly d') (a : Addr) (bytes : List UInt8) :
    (d.writeBytes a bytes).InputOnly (d'.writeBytes a bytes) := by
  induction bytes generalizing d d' a with
  | nil => exact h
  | cons b bs ih => exact ih (h.writeByte a b) (a + 1)

theorem setReserved (h : d.InputOnly d') (c : SystemCell) (v : Cell) :
    (d.setReserved c v).InputOnly (d'.setReserved c v) := h.writeCell c.addr v

end InputOnly

/-- Bytes that are copied upwards are those that were there. -/
theorem copyBytes_eq_writeBytes (d : Dictionary) (source target : Addr) (n : Nat)
    (hbelow : source.toNat + n ≤ target.toNat) (htop : target.toNat + n < 65536) :
    d.copyBytes source target n = d.writeBytes target (d.memory.bytesFrom source n) := by
  induction n generalizing d source target with
  | zero => rfl
  | succ n ih =>
      have hsource : (source + 1).toNat = source.toNat + 1 := toNat_add_one (by omega)
      have htarget : (target + 1).toNat = target.toNat + 1 := toNat_add_one (by omega)
      -- the first byte is written above those that are still to be read
      have hbelow' : d.AgreeOn (d.writeByte target (d.readByte source)) 0 target.toNat :=
        d.agreeOn_writeByte _ (Or.inr (Nat.le_refl _))
      have hrest := hbelow'.bytesFrom (a := source + 1) (n := n) (Nat.zero_le _) (by omega) (by omega)
      rw [copyBytes, ih _ _ _ (by omega) (by omega), hrest, Memory.bytesFrom_succ]
      rfl

/-! ## Programs -/

/-- Two programs do the same in dictionaries that differ in the source. -/
def Parallel (x y : DictionaryM α) : Prop :=
  ∀ d d' : Dictionary, d.InputOnly d' → Coupled InputOnly InputOnly (x d) (y d')

namespace Parallel

theorem bind {x y : DictionaryM α} {f g : α → DictionaryM β} (hx : Parallel x y)
    (hf : ∀ a, Parallel (f a) (g a)) : Parallel (x >>= f) (y >>= g) :=
  fun d d' h => (hx d d' h).bind fun a s t hst => hf a s t hst

theorem modify {f g : Dictionary → Dictionary}
    (h : ∀ {d d' : Dictionary}, d.InputOnly d' → (f d).InputOnly (g d')) :
    Parallel (modify f) (modify g) := fun _ _ hd => .ok (h hd)

theorem allot (amount : Cell) : Parallel (allot amount) (allot amount) := by
  intro d d' h
  simp only [Dictionary.allot, h.here_eq, h.capacity_eq]
  split
  · exact .ok (h.setReserved .here _)
  · exact .error h

theorem append (v : Cell) : Parallel (append v) (append v) :=
  (allot _).bind fun a => modify fun h => h.writeCell a v

theorem forM_append (vs : List Cell) :
    Parallel (vs.forM Dictionary.append) (vs.forM Dictionary.append) := by
  induction vs with
  | nil => exact fun _ _ h => .ok h
  | cons v vs ih => exact (append v).bind fun _ => ih

theorem alignHere : Parallel alignHere alignHere := by
  intro d d' h
  have hallot := allot (aligned d.here - d.here).toInt16 d d' h
  rw [alignHere_eq, alignHere_eq, h.here_eq]
  generalize Dictionary.allot (aligned d.here - d.here).toInt16 d = r at hallot ⊢
  generalize Dictionary.allot (aligned d.here - d.here).toInt16 d' = r' at hallot ⊢
  cases hallot with
  | ok h1 =>
      dsimp only
      rw [h1.here_eq]
      exact .ok h1
  | error h1 => exact .error h1

theorem appendHeader (info : Cell) : Parallel (appendHeader info) (appendHeader info) := by
  refine (append info).bind fun _ => ?_
  split
  · exact append 0
  · exact fun _ _ h => .ok h

theorem discard {x y : DictionaryM α} (h : Parallel x y) : Parallel (discard x) (discard y) :=
  h.bind fun _ _ _ hst => .ok hst

/-- To link a definition is to read and write its header. -/
theorem link {entry : Addr} (hle : Layout.firstEntry.toNat ≤ entry.toNat)
    (htop : entry.toNat + 1 < 65536) : Parallel (link entry) (link entry) := by
  intro d d' h
  have hheader : d'.readCell entry = d.readCell entry :=
    h.agreeOn_above.readCell hle (by omega) htop
  unfold Dictionary.link
  rw [hheader, h.latest_eq]
  dsimp only
  split
  · refine .ok (InputOnly.setReserved ?_ .latest _)
    split
    · exact (h.writeCell _ _).writeCell _ _
    · exact h.writeCell _ _
  · exact .error h

end Parallel

/-! ## The name of a definition -/

/-- A name in the input buffer. -/
structure InBuffer (s : Span) : Prop where
  le_start : 16 ≤ s.start.toNat
  stop_le : s.start.toNat + s.length.toNat ≤ 96

variable {s s' : Span}

theorem InBuffer.text_eq (hs : InBuffer s) (h : d.AgreeOn d' 16 96) : d'.text s = d.text s := by
  have hstart := hs.le_start
  have hstop := hs.stop_le
  exact h.bytesFrom hstart hstop (by omega)

/-- The same name is added to both. -/
theorem coupled_appendName (hs : InBuffer s) (hs' : InBuffer s') (hd : d.Ready)
    (hlen : s'.length = s.length) (hshort : s.length.toNat < 32) (htext : d'.text s' = d.text s)
    (h : d.InputOnly d') :
    Coupled InputOnly InputOnly (appendName s d) (appendName s' d') := by
  unfold appendName
  rw [hlen]
  have hallot := Parallel.allot s.length.toInt16 d d' h
  cases hr : allot s.length.toInt16 d with
  | error e d1 =>
      rw [hr] at hallot
      generalize hr' : allot s.length.toInt16 d' = r' at hallot
      cases hallot with
      | error h1 =>
          rw [bind_eq_of_error hr, bind_eq_of_error hr']
          exact .error h1
  | ok target d1 =>
      rw [hr] at hallot
      generalize hr' : allot s.length.toInt16 d' = r' at hallot
      cases hallot with
      | @ok _ _ d1' h1 =>
          rw [bind_eq_of_ok hr, bind_eq_of_ok hr']
          refine Coupled.bind (R := InputOnly) (.ok ?_) fun _ t t' hst =>
            Parallel.alignHere.discard t t' hst
          obtain ⟨htarget, hd1, hge, hlt⟩ := of_allot_eq_ok hr
          obtain ⟨-, hd1', -, -⟩ := of_allot_eq_ok hr'
          have hle := hd.le_here
          have hcap := d.capacity_le
          have hstop := hs.stop_le
          have hstop' := hs'.stop_le
          rw [hlen] at hstop'
          rw [toNat_firstEntry] at hle
          rw [toInt_toInt16 (by omega)] at hlt
          -- neither name is touched by moving `here`
          have hkept : d1.text s = d.text s := by
            rw [hd1]
            exact hs.text_eq ((d.agreeOn_setHere _).mono (by decide) (by decide))
          have hkept' : d1'.text s' = d'.text s' := by
            rw [hd1']
            exact hs'.text_eq ((d'.agreeOn_setHere _).mono (by decide) (by decide))
          have hbytes : d1'.memory.bytesFrom s'.start s.length.toNat =
              d1.memory.bytesFrom s.start s.length.toNat := by
            rw [text, text, hlen] at htext
            rw [text, text] at hkept
            rw [text, text, hlen] at hkept'
            rw [hkept, hkept', htext]
          subst htarget
          dsimp only
          rw [copyBytes_eq_writeBytes _ _ _ _ (by omega) (by omega),
            copyBytes_eq_writeBytes _ _ _ _ (by omega) (by omega), hbytes]
          exact h1.writeBytes _ _

/-- A definition of the same name is begun in both. -/
theorem coupled_define (hs : InBuffer s) (hs' : InBuffer s') (hlen : s'.length = s.length)
    (htext : d'.text s' = d.text s) (h : d.InputOnly d') :
    Coupled InputOnly InputOnly (define s d) (define s' d') := by
  rw [define_eq, define_eq, hlen]
  by_cases hlong : Header.maxNameLength < s.length.toNat
  · rw [if_pos hlong, if_pos hlong]
    exact .error h
  have hshort : s.length.toNat < 32 := Nat.lt_succ_of_le (Nat.le_of_not_lt hlong)
  rw [if_neg hlong, if_neg hlong]
  -- the buffer stays as it is until the name is copied
  have halign : Coupled (fun d1 d1' => d1.InputOnly d1' ∧ (d1.Ready ∧ d.AgreeOn d1 16 96) ∧
      d'.AgreeOn d1' 16 96) InputOnly (alignHere d) (alignHere d') := by
    refine (Parallel.alignHere d d' h).and (fun a d1 hd1 => ?_) fun a d1' hd1' => ?_
    · obtain ⟨-, -, hready, -, hagree⟩ := of_alignHere_eq_ok hd1
      exact ⟨hready, hagree.mono (by decide) (by decide)⟩
    · obtain ⟨-, -, -, -, hagree⟩ := of_alignHere_eq_ok hd1'
      exact hagree.mono (by decide) (by decide)
  refine halign.bind fun entry d1 d1' hd1 => ?_
  obtain ⟨h1, ⟨hready, hagree⟩, hagree'⟩ := hd1
  have hinfo : d1'.newHeader entry s.length = d1.newHeader entry s.length := by
    rw [newHeader, newHeader, h1.latest_eq]
  rw [bind_eq_of_ok (get_apply d1), bind_eq_of_ok (get_apply d1'), hinfo]
  have hheader : Coupled (fun d2 d2' => d2.InputOnly d2' ∧ (d2.Ready ∧ d1.AgreeOn d2 16 96) ∧
      d1'.AgreeOn d2' 16 96) InputOnly (appendHeader (d1.newHeader entry s.length) d1)
      (appendHeader (d1.newHeader entry s.length) d1') := by
    refine (Parallel.appendHeader _ d1 d1' h1).and (fun _ d2 hd2 => ?_) fun _ d2' hd2' => ?_
    · have hdrafts := drafts_appendHeader hready hd2
      exact ⟨hdrafts.ext.ready hready, hdrafts.agreeOn_input.mono (by decide) (by decide)⟩
    · exact (drafts_appendHeader (h1.ready hready) hd2').agreeOn_input.mono (by decide) (by decide)
  refine hheader.bind fun _ d2 d2' hd2 => ?_
  obtain ⟨h2, ⟨hready2, hagree2⟩, hagree2'⟩ := hd2
  refine coupled_appendName hs hs' hready2 hlen hshort ?_ h2
  rw [hs.text_eq (hagree.trans hagree2), hs'.text_eq (hagree'.trans hagree2'), htext]

end Dictionary

end ThreadedForth
