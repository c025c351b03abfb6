import ThreadedForth.Dictionary.Code
import ThreadedForth.Proofs.Dictionary.Chained
import ThreadedForth.Proofs.Walks

/-!
# Walks over code

The list of words reads the code of each entry from its body up to where the next newer entry lies, the
code of the newest one up to `here`, and it reads whatever the cells hold. Each round leads two or
four bytes on, and the address after the last one is zero. `listing_reads_up` says which of these walks
read up to the end of the code: all but the one over the newest entry, and that one as well
unless `here` is so close to the last address that a round leads over it.
-/

set_option autoImplicit false

namespace ThreadedForth.Dictionary

variable {d : Dictionary} {a b body stop : Addr} {as : List Addr} {n : Nat} {items : List CodeItem}
  {e : Entry} {es : List Entry} {fs : List Definition}

/-! ## One item -/

/-- Whether the item at an address is a token with its operand. -/
def hasOperandAt (d : Dictionary) (a : Addr) : Bool :=
  match (d.codeItemAt a).1 with
  | .operand _ _ => true
  | .token _ => false

/-- The addresses of the cells that belong to the item at an address. -/
def cellsOfItem (d : Dictionary) (a : Addr) : List Addr :=
  if d.hasOperandAt a then [a, a + cellSize] else [a]

/-- The length of the item at an address in bytes. -/
def itemSize (d : Dictionary) (a : Addr) : Nat := if d.hasOperandAt a then 4 else 2

/-- The address after the item at an address. -/
def afterItem (d : Dictionary) (a : Addr) : Addr := (d.codeItemAt a).2

theorem afterItem_eq (d : Dictionary) (a : Addr) :
    d.afterItem a = if d.hasOperandAt a then a + cellSize + cellSize else a + cellSize := by
  unfold afterItem hasOperandAt codeItemAt
  cases Token.decode (d.readCell a).toUInt16 with
  | primitive p => cases hp : p.takesOperand <;> simp [hp]
  | literal v => simp
  | call body => simp

theorem itemSize_eq_two_or_four (d : Dictionary) (a : Addr) : d.itemSize a = 2 ∨ d.itemSize a = 4 := by
  unfold itemSize
  split
  · exact Or.inr rfl
  · exact Or.inl rfl

theorem toNat_afterItem (d : Dictionary) (a : Addr) :
    (d.afterItem a).toNat = (a.toNat + d.itemSize a) % 65536 := by
  have h2 : cellSize.toNat = 2 := rfl
  rw [afterItem_eq, itemSize]
  split
  · simp only [UInt16.toNat_add, h2]
    omega
  · simp only [UInt16.toNat_add, h2]

/-- The cells of an item lie between its address and the address after it. -/
theorem mem_cellsOfItem (hsize : a.toNat + d.itemSize a < 65536) (hb : b ∈ d.cellsOfItem a) :
    a.toNat ≤ b.toNat ∧ b.toNat < a.toNat + d.itemSize a := by
  unfold cellsOfItem at hb
  unfold itemSize at hsize ⊢
  cases hop : d.hasOperandAt a with
  | false =>
      simp only [hop, Bool.false_eq_true, if_false, List.mem_singleton] at hb ⊢
      subst hb
      omega
  | true =>
      simp only [hop, if_true, List.mem_cons, List.not_mem_nil, or_false] at hb hsize ⊢
      rcases hb with rfl | rfl
      · omega
      · rw [toNat_add_cellSize (by omega)]
        omega

/-! ## The walk over a body -/

/-- The walk over code from an address up to `stop` ends after it has read items at these addresses. -/
def ReadsCode (d : Dictionary) (body stop : Addr) (as : List Addr) : Prop :=
  Walks (· < stop) d.afterItem body as

/-- The walk over code from an address up to `stop` comes to an address. -/
def CodeLeadsTo (d : Dictionary) (body stop a : Addr) : Prop := ComesTo (· < stop) d.afterItem body a

/-- The walk over code from an address up to `stop` comes back to where it was. -/
def CodeGoesRound (d : Dictionary) (body stop : Addr) : Prop := GoesRound (· < stop) d.afterItem body

/-- The walk over code ends, and has then read cells at greater and greater addresses. -/
def ReadsUp (d : Dictionary) (body stop : Addr) : Prop :=
  ∃ as, d.ReadsCode body stop as ∧ (as.flatMap d.cellsOfItem).Pairwise (· < ·)

theorem readsCode_of_codeItemsFrom? (h : d.codeItemsFrom? stop n a = some items) :
    ∃ as, d.ReadsCode a stop as ∧ items = as.map fun b => (d.codeItemAt b).1 := by
  induction n generalizing a items with
  | zero => cases h
  | succ n ih =>
      rw [codeItemsFrom?] at h
      by_cases ha : a < stop
      · rw [if_pos ha, Option.map_eq_some_iff] at h
        obtain ⟨rest, hrest, rfl⟩ := h
        obtain ⟨as, has, rfl⟩ := ih hrest
        exact ⟨a :: as, .visits ha has, rfl⟩
      · rw [if_neg ha] at h
        cases h
        exact ⟨[], .ended ha, rfl⟩

theorem codeItemsFrom?_of_readsCode (h : d.ReadsCode a stop as) (hn : as.length < n) :
    d.codeItemsFrom? stop n a = some (as.map fun b => (d.codeItemAt b).1) := by
  induction h generalizing n with
  | ended hends =>
      obtain ⟨k, rfl⟩ : ∃ k, n = k + 1 := ⟨n - 1, by omega⟩
      rw [codeItemsFrom?, if_neg hends]
      rfl
  | @visits a as hgoes rest ih =>
      rw [List.length_cons] at hn
      obtain ⟨k, rfl⟩ : ∃ k, n = k + 1 := ⟨n - 1, by omega⟩
      have hrest : d.codeItemsFrom? stop k (d.codeItemAt a).2 = _ := ih (n := k) (by omega)
      rw [codeItemsFrom?, if_pos hgoes]
      simp only [hrest, Option.map_some, List.map_cons]

/-- The bound on the list of items is none: a walk that ends is shorter. -/
theorem codeItems?_eq_some_iff : d.codeItems? body stop = some items ↔
    ∃ as, d.ReadsCode body stop as ∧ items = as.map fun b => (d.codeItemAt b).1 := by
  constructor
  · exact readsCode_of_codeItemsFrom?
  · rintro ⟨as, has, rfl⟩
    exact codeItemsFrom?_of_readsCode has (Nat.lt_succ_of_lt has.length_lt)

theorem codeItems?_eq_none_iff : d.codeItems? body stop = none ↔ d.CodeGoesRound body stop := by
  rw [Option.eq_none_iff_forall_ne_some]
  constructor
  · intro h
    by_contra hround
    obtain ⟨as, has⟩ := exists_walks_iff.2 hround
    exact h _ (codeItems?_eq_some_iff.2 ⟨as, has, rfl⟩)
  · intro hround items hitems
    obtain ⟨as, has, -⟩ := codeItems?_eq_some_iff.1 hitems
    exact exists_walks_iff.1 ⟨as, has⟩ hround

/-! ## Rounds that lead over the last address -/

/-- No round of the walk leads over the last address. -/
def NeverWraps (d : Dictionary) (body stop : Addr) : Prop :=
  ∀ a, d.CodeLeadsTo body stop a → a < stop → a.toNat + d.itemSize a < 65536

theorem NeverWraps.toNat_afterItem (h : d.NeverWraps body stop) (ha : d.CodeLeadsTo body stop a)
    (hgoes : a < stop) : (d.afterItem a).toNat = a.toNat + d.itemSize a := by
  rw [Dictionary.toNat_afterItem, Nat.mod_eq_of_lt (h a ha hgoes)]

theorem NeverWraps.not_codeGoesRound (h : d.NeverWraps body stop) : ¬ d.CodeGoesRound body stop := by
  intro hround
  obtain ⟨a, ha, hgoes, hle⟩ := GoesRound.exists_le (f := fun a => 65536 - a.toNat) hround
  have hnext := h.toNat_afterItem ha hgoes
  have htop := (d.afterItem a).toNat_lt
  have hsize := d.itemSize_eq_two_or_four a
  omega

theorem NeverWraps.readsUp (h : d.NeverWraps body stop) : d.ReadsUp body stop := by
  obtain ⟨as, has⟩ := exists_walks_iff.2 h.not_codeGoesRound
  have hmem : ∀ a ∈ as, a.toNat + d.itemSize a < 65536 := by
    intro a ha
    obtain ⟨hcomes, hgoes⟩ := has.mem_iff.1 ha
    exact h a hcomes hgoes
  -- each item lies behind all items before it
  have hapart : as.Pairwise fun a b => a.toNat + d.itemSize a ≤ b.toNat := by
    refine Walks.pairwise has (fun a b c hab hbc => by omega) ?_
    intro b hb hgoes
    exact (h.toNat_afterItem hb hgoes).ge
  refine ⟨as, has, List.pairwise_flatMap.2 ⟨?_, ?_⟩⟩
  · intro a ha
    unfold cellsOfItem
    split
    · refine List.pairwise_pair.2 (UInt16.lt_iff_toNat_lt.2 ?_)
      have hsize := d.itemSize_eq_two_or_four a
      have hlt := hmem a ha
      rw [toNat_add_cellSize (by omega)]
      omega
    · exact List.pairwise_singleton _ _
  · refine hapart.imp_of_mem ?_
    intro a b ha hb hab x hx y hy
    have hxa := mem_cellsOfItem (hmem a ha) hx
    have hyb := mem_cellsOfItem (hmem b hb) hy
    rw [UInt16.lt_iff_toNat_lt]
    omega

theorem mem_cellsOfItem_self (d : Dictionary) (a : Addr) : a ∈ d.cellsOfItem a := by
  unfold cellsOfItem
  split <;> exact List.mem_cons_self

theorem ReadsUp.neverWraps (h : d.ReadsUp body stop) : d.NeverWraps body stop := by
  obtain ⟨as, has, hup⟩ := h
  intro a ha hgoes
  by_contra hover
  have hsize := d.itemSize_eq_two_or_four a
  have htop := a.toNat_lt
  have hnext := d.toNat_afterItem a
  have hlt := UInt16.lt_iff_toNat_lt.1 hgoes
  -- the round leads to an address below, at which the walk goes on
  have hgoes' : d.afterItem a < stop := UInt16.lt_iff_toNat_lt.2 (by omega)
  obtain ⟨bs, hbs, before, rfl⟩ := has.exists_of_comesTo ha
  have hpair : bs.Pairwise fun a b => ∀ x ∈ d.cellsOfItem a, ∀ y ∈ d.cellsOfItem b, x < y := by
    rw [List.flatMap_append] at hup
    exact (List.pairwise_flatMap.1 (List.pairwise_append.1 hup).2.1).2
  cases hbs with
  | ended hends => exact hends hgoes
  | visits _ rest =>
      have hmem := rest.mem_iff.2 ⟨.refl, hgoes'⟩
      have hless := (List.pairwise_cons.1 hpair).1 _ hmem a (d.mem_cellsOfItem_self a) _
        (d.mem_cellsOfItem_self _)
      rw [UInt16.lt_iff_toNat_lt] at hless
      omega

theorem readsUp_iff_neverWraps : d.ReadsUp body stop ↔ d.NeverWraps body stop :=
  ⟨ReadsUp.neverWraps, NeverWraps.readsUp⟩

/-! ## Bodies

The body of an entry is at an even address, and so are all items of its code. -/

theorem toNat_entryBody_mod (d : Dictionary) (a : Addr) : (d.entryBody a).toNat % 2 = 0 := by
  have h2 : (2 : UInt16).toNat = 2 := rfl
  have hlt := (d.entryName a).stop.toNat_lt
  unfold entryBody aligned
  rw [UInt16.toNat_mul, UInt16.toNat_div, h2]
  omega

theorem CodeLeadsTo.toNat_mod (h : d.CodeLeadsTo body stop a) (hbody : body.toNat % 2 = 0) :
    a.toNat % 2 = 0 := by
  induction h with
  | refl => exact hbody
  | @tail b c _ hmoves ih =>
      have hsize := d.itemSize_eq_two_or_four b
      rw [← hmoves.2, toNat_afterItem]
      omega

/-- A walk leads over the last address if its end is the last one of all, or one of the two before it and there
is an item of two cells before the end. -/
def RunsOver (d : Dictionary) (body stop : Addr) : Prop :=
  65532 < stop ∧ (stop = 65535 ∨ d.CodeLeadsTo body stop 65532 ∧ d.hasOperandAt 65532 = true)

/-- No even address is the last one, so a walk to there does not end. -/
theorem codeGoesRound_last (hbody : body.toNat % 2 = 0) : d.CodeGoesRound body 65535 := by
  have hlast : (65535 : UInt16).toNat = 65535 := rfl
  by_contra hround
  obtain ⟨as, has⟩ := exists_walks_iff.2 hround
  -- the walk would end at an even address that is not below the last one
  obtain ⟨a, ha, hends⟩ := has.exists_end
  have heven := CodeLeadsTo.toNat_mod ha hbody
  have htop := a.toNat_lt
  rw [UInt16.lt_iff_toNat_lt, hlast] at hends
  omega

theorem neverWraps_iff (hbody : body.toNat % 2 = 0) : d.NeverWraps body stop ↔ ¬ d.RunsOver body stop := by
  have htop : (65532 : UInt16).toNat = 65532 := rfl
  constructor
  · rintro hnever ⟨hstop, rfl | ⟨hleads, hop⟩⟩
    · exact hnever.not_codeGoesRound (codeGoesRound_last hbody)
    · have hlt := hnever 65532 hleads hstop
      rw [htop, itemSize, if_pos hop] at hlt
      exact Nat.lt_irrefl _ hlt
  · intro hnot a ha hgoes
    have heven := CodeLeadsTo.toNat_mod ha hbody
    have hlt := UInt16.lt_iff_toNat_lt.1 hgoes
    have hsize := d.itemSize_eq_two_or_four a
    by_contra hover
    -- only the last two even addresses are so close to the end
    have hstop : 65532 < stop := UInt16.lt_iff_toNat_lt.2 (by omega)
    by_cases hat : a.toNat = 65532
    · have haddr : a = 65532 := UInt16.toNat_inj.1 hat
      subst haddr
      refine hnot ⟨hstop, Or.inr ⟨ha, ?_⟩⟩
      by_contra hop
      rw [itemSize, if_neg hop, htop] at hover
      omega
    · refine hnot ⟨hstop, Or.inl (UInt16.toNat_inj.1 ?_)⟩
      have hlast := stop.toNat_lt
      show stop.toNat = 65535
      omega

/-! ## All entries -/

/-- Entries, newest first, with where the code of each ends; that of the first one ends at `stop`. -/
def codeEnds (stop : Addr) : List Entry → List (Entry × Addr)
  | [] => []
  | e :: es => (e, stop) :: codeEnds e.addr es

theorem mem_codeEnds {p : Entry × Addr} (h : p ∈ codeEnds stop es) :
    p.1 ∈ es ∧ (p.2 = stop ∨ ∃ e ∈ es, p.2 = e.addr) := by
  induction es generalizing stop with
  | nil => cases h
  | cons e es ih =>
      rcases List.mem_cons.1 h with rfl | h
      · exact ⟨List.mem_cons_self, Or.inl rfl⟩
      · obtain ⟨hmem, hstop⟩ := ih h
        refine ⟨List.mem_cons_of_mem e hmem, Or.inr ?_⟩
        rcases hstop with heq | ⟨g, hg, heq⟩
        · exact ⟨e, List.mem_cons_self, heq⟩
        · exact ⟨g, List.mem_cons_of_mem e hg, heq⟩

/-- An entry is listed with the items that the walk over its code reads. -/
def Lists (d : Dictionary) (p : Entry × Addr) (l : Entry × List CodeItem) : Prop :=
  l.1 = p.1 ∧ ∃ as, d.ReadsCode p.1.body p.2 as ∧ l.2 = as.map fun b => (d.codeItemAt b).1

theorem withCode?_eq_some_iff {listed : List (Entry × List CodeItem)} :
    d.withCode? stop es = some listed ↔ List.Forall₂ d.Lists (codeEnds stop es) listed := by
  induction es generalizing stop listed with
  | nil => simp [withCode?, codeEnds, eq_comm]
  | cons e es ih =>
      rw [withCode?, codeEnds, List.forall₂_cons_left_iff]
      constructor
      · intro h
        cases hitems : d.codeItems? e.body stop with
        | none => simp [hitems] at h
        | some items =>
            cases hrest : d.withCode? e.addr es with
            | none => simp [hitems, hrest] at h
            | some rest =>
                simp only [hitems, hrest, Option.some.injEq] at h
                exact ⟨(e, items), rest, ⟨rfl, codeItems?_eq_some_iff.1 hitems⟩, ih.1 hrest, h.symm⟩
      · rintro ⟨⟨e', items⟩, rest, ⟨rfl, hreads⟩, hrest, rfl⟩
        simp only [codeItems?_eq_some_iff.2 hreads, ih.2 hrest]

theorem withCode?_eq_none_iff :
    d.withCode? stop es = none ↔ ∃ p ∈ codeEnds stop es, d.CodeGoesRound p.1.body p.2 := by
  induction es generalizing stop with
  | nil => simp [withCode?, codeEnds]
  | cons e es ih =>
      rw [withCode?, codeEnds, List.exists_mem_cons_iff, ← ih, ← codeItems?_eq_none_iff]
      cases d.codeItems? e.body stop <;> cases d.withCode? e.addr es <;> simp

/-- An entry has room for its header below its body. -/
theorem toNat_le_of_mem_trail (h : d.Chained fs) (ha : a ∈ trail fs) : a.toNat ≤ 65532 := by
  have hfirst : Layout.firstEntry.toNat ≤ 65532 := by decide
  -- the trail stops early where a distance is zero, so it is followed along the definitions
  induction h with
  | nil =>
      rw [List.mem_singleton.1 ha]
      exact hfirst
  | @cons f fs holds link above older ih =>
      have haddr : f.addr.toNat ≤ 65532 := by
        have hlt := holds.addr_lt_body
        have heven := d.toNat_entryBody_mod f.addr
        rw [holds.entryBody_eq] at heven
        have htop := f.body.toNat_lt
        omega
      unfold trail at ha
      split at ha
      · rw [List.mem_singleton.1 ha]
        exact haddr
      · rcases List.mem_cons.1 ha with rfl | ha
        · exact haddr
        · exact ih ha

/-- What the entries of a well-linked dictionary have in common. -/
def HasPlace (e : Entry) : Prop := e.body.toNat % 2 = 0 ∧ e.addr.toNat ≤ 65532

theorem exists_entries? (hc : d.Chained fs) (hlatest : d.latest = newestAddr fs) :
    ∃ es, d.entries? = some es ∧ ∀ e ∈ es, HasPlace e := by
  refine ⟨((trail fs).filter d.isVisible).map d.entryAt, ?_, ?_⟩
  · rw [entries?, chain?_of_chained hc hlatest, Option.map_some]
  · intro e he
    obtain ⟨a, ha, rfl⟩ := List.mem_map.1 he
    exact ⟨d.toNat_entryBody_mod a, toNat_le_of_mem_trail hc (List.mem_filter.1 ha).1⟩

/-- All code is read up if the end of the first one is not close to the last address. -/
theorem readsUp_of_mem_codeEnds (hes : ∀ e ∈ es, HasPlace e) (hle : stop.toNat ≤ 65532)
    {p : Entry × Addr} (hp : p ∈ codeEnds stop es) : d.ReadsUp p.1.body p.2 := by
  obtain ⟨hmem, hstop⟩ := mem_codeEnds hp
  have hend : p.2.toNat ≤ 65532 := by
    rcases hstop with heq | ⟨g, hg, heq⟩
    · exact heq ▸ hle
    · exact heq ▸ (hes g hg).2
  rw [readsUp_iff_neverWraps, neverWraps_iff (hes p.1 hmem).1]
  exact fun hover => absurd (UInt16.lt_iff_toNat_lt.1 hover.1) (Nat.not_lt.2 hend)

/-- The code of an entry that is not the first one ends at an entry. -/
theorem readsUp_of_mem_tail (hes : ∀ e ∈ es, HasPlace e) {p : Entry × Addr}
    (hp : p ∈ (codeEnds stop es).tail) : d.ReadsUp p.1.body p.2 := by
  cases es with
  | nil => cases hp
  | cons e es =>
      exact readsUp_of_mem_codeEnds (fun g hg => hes g (List.mem_cons_of_mem e hg))
        (hes e List.mem_cons_self).2 hp

/-- So only the first walk can go on for ever. -/
theorem withCode?_eq_none_iff_head (hes : ∀ e ∈ es, HasPlace e) :
    d.withCode? stop es = none ↔ ∃ e ∈ es.head?, d.CodeGoesRound e.body stop := by
  rw [withCode?_eq_none_iff]
  cases es with
  | nil => simp [codeEnds]
  | cons e es =>
      simp only [List.head?_cons, Option.mem_some_iff, exists_eq_left']
      constructor
      · rintro ⟨p, hp, hround⟩
        rcases List.mem_cons.1 hp with rfl | htail
        · exact hround
        · have hmem : p ∈ (codeEnds stop (e :: es)).tail := htail
          exact absurd hround (readsUp_of_mem_tail hes hmem).neverWraps.not_codeGoesRound
      · intro hround
        exact ⟨(e, stop), List.mem_cons_self, hround⟩

/-! ## The main result -/

/-- A dictionary whose entries are linked as they should be has a list of them. The walk over the code of
each of them reads up to its end unless it leads over the last address, which can only happen
with the newest one, the only one whose code ends at `here`. The list of words has no value exactly
if that walk comes back to where it was, as it always does if `here` is the last address. -/
theorem listing_reads_up (hc : d.Chained fs) (hlatest : d.latest = newestAddr fs) :
    ∃ es, d.entries? = some es ∧
      (∀ p ∈ codeEnds d.here es, d.ReadsUp p.1.body p.2 ↔ ¬ d.RunsOver p.1.body p.2) ∧
      (∀ p ∈ (codeEnds d.here es).tail, d.ReadsUp p.1.body p.2) ∧
      (∀ listed, d.listing? = some listed ↔ List.Forall₂ d.Lists (codeEnds d.here es) listed) ∧
      (d.listing? = none ↔ ∃ e ∈ es.head?, d.CodeGoesRound e.body d.here) ∧
      (d.here = 65535 → es ≠ [] → d.listing? = none) := by
  obtain ⟨es, hentries, hplaced⟩ := exists_entries? hc hlatest
  have hlisting : d.listing? = d.withCode? d.here es := by
    rw [listing?, hentries, Option.bind_some]
  refine ⟨es, hentries, ?_, ?_, ?_, ?_, ?_⟩
  · intro p hp
    rw [readsUp_iff_neverWraps, neverWraps_iff (hplaced p.1 (mem_codeEnds hp).1).1]
  · intro p hp
    exact readsUp_of_mem_tail hplaced hp
  · intro listed
    rw [hlisting, withCode?_eq_some_iff]
  · rw [hlisting, withCode?_eq_none_iff_head hplaced]
  · intro hhere hne
    rw [hlisting, withCode?_eq_none_iff_head hplaced, hhere]
    cases es with
    | nil => exact absurd rfl hne
    | cons e es => exact ⟨e, rfl, codeGoesRound_last (hplaced e List.mem_cons_self).1⟩

/-- One definition without code, and `here` at the last address. -/
def brimfulDictionary : Dictionary :=
  ((((setUp ⟨.sparse (.zeros 65536)⟩).writeCell 96 1).writeCell 98 97).setReservedAddr .latest
    96).setReservedAddr .here 65535

/-- The list of words has no value, though the entry is linked as it should be. -/
theorem listing_brimfulDictionary :
    brimfulDictionary.Chained [⟨96, [97], false, 100⟩] ∧ brimfulDictionary.latest = 96 ∧
      brimfulDictionary.here = 65535 ∧ brimfulDictionary.here.toNat < brimfulDictionary.capacity ∧
      brimfulDictionary.entries? = some [⟨96, .ofLength 98 1, false, 100⟩] ∧
      brimfulDictionary.listing? = none ∧ ¬ brimfulDictionary.ReadsUp 100 65535 := by
  have hchained : brimfulDictionary.Chained [⟨96, [97], false, 100⟩] := by decide +kernel
  have hentry : brimfulDictionary.entries? = some [⟨96, .ofLength 98 1, false, 100⟩] := by decide +kernel
  have hhere : brimfulDictionary.here = 65535 := by decide +kernel
  obtain ⟨es, hentries, hup, -, -, -, hnone⟩ := listing_reads_up hchained (by decide +kernel)
  obtain rfl : [⟨96, .ofLength 98 1, false, 100⟩] = es := Option.some.inj (hentry.symm.trans hentries)
  refine ⟨hchained, by decide +kernel, hhere, by decide +kernel, hentry,
    hnone hhere (List.cons_ne_nil _ _), fun hreads => ?_⟩
  rw [hhere] at hup
  exact (hup _ List.mem_cons_self).1 hreads ⟨by decide, Or.inl rfl⟩

end ThreadedForth.Dictionary
