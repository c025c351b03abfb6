import ThreadedForth.Dictionary.Code
import ThreadedForth.Proofs.Dictionary.Chained
import ThreadedForth.Proofs.Walks

/-!
# Looking up in any memory

The way back from the latest entry is made of distances that are read from memory, and a memory can
hold anything. `lookup_ends_iff` says for every memory when the entries are listed and when a search
ends: both follow the walk from entry to entry, which nothing bounds, and have no value exactly if
this walk comes back to an entry where it was. For that one of the entries on the way must hold a distance
greater than its own address (`Circular.exists_wraps`).
-/

set_option autoImplicit false

namespace ThreadedForth.Dictionary

variable {d : Dictionary} {a b : Addr} {as : List Addr} {n : Nat} {s : Span}

/-! ## The walk from entry to entry -/

/-- Where there may be an entry. -/
def MayHold (a : Addr) : Prop := Layout.firstEntry ≤ a

instance (a : Addr) : Decidable (MayHold a) := inferInstanceAs (Decidable (_ ≤ _))

/-- Where the walk goes on after an address. The last entry of the chain leads to zero, where there is none. -/
def before (d : Dictionary) (a : Addr) : Addr := (d.older? a).getD 0

/-- The walk from the latest entry ends after it has met entries at these addresses. -/
def Traverses (d : Dictionary) (as : List Addr) : Prop := Walks MayHold d.before d.latest as

/-- The walk from the latest entry comes to an address. -/
def LeadsTo (d : Dictionary) (a : Addr) : Prop := ComesTo MayHold d.before d.latest a

/-- The walk from the latest entry comes back to where it was. -/
def Circular (d : Dictionary) : Prop := GoesRound MayHold d.before d.latest

theorem not_mayHold_zero : ¬ MayHold 0 := by decide

theorem not_mayHold_iff : ¬ MayHold a ↔ a < Layout.firstEntry := UInt16.not_le

theorem before_of_older?_eq_none (h : d.older? a = none) : d.before a = 0 := by
  rw [before, h]
  rfl

theorem before_of_older?_eq_some (h : d.older? a = some b) : d.before a = b := by
  rw [before, h]
  rfl

/-- The last entry of the chain. -/
theorem walks_of_older?_eq_none (ha : MayHold a) (h : d.older? a = none) :
    Walks MayHold d.before a [a] := by
  refine .visits ha ?_
  rw [before_of_older?_eq_none h]
  exact .ended not_mayHold_zero

/-! ## The list of entries -/

theorem walks_of_chainFrom? (h : d.chainFrom? n a = some as) : Walks MayHold d.before a as := by
  induction n generalizing a as with
  | zero => cases h
  | succ n ih =>
      rw [chainFrom?] at h
      by_cases ha : a < Layout.firstEntry
      · rw [if_pos ha] at h
        cases h
        exact .ended (not_mayHold_iff.2 ha)
      · rw [if_neg ha] at h
        have hgoes : MayHold a := UInt16.not_lt.1 ha
        cases holder : d.older? a with
        | none =>
            simp only [holder, Option.some.injEq] at h
            rw [← h]
            exact walks_of_older?_eq_none hgoes holder
        | some b =>
            simp only [holder, Option.map_eq_some_iff] at h
            obtain ⟨rest, hrest, rfl⟩ := h
            refine .visits hgoes ?_
            rw [before_of_older?_eq_some holder]
            exact ih hrest

theorem chainFrom?_of_walks (h : Walks MayHold d.before a as) (hn : as.length < n) :
    d.chainFrom? n a = some as := by
  induction h generalizing n with
  | @ended a hends =>
      obtain ⟨k, rfl⟩ : ∃ k, n = k + 1 := ⟨n - 1, by omega⟩
      rw [chainFrom?, if_pos (not_mayHold_iff.1 hends)]
  | @visits a as hgoes rest ih =>
      rw [List.length_cons] at hn
      obtain ⟨k, rfl⟩ : ∃ k, n = k + 1 := ⟨n - 1, by omega⟩
      rw [chainFrom?, if_neg (UInt16.not_lt.2 hgoes)]
      cases holder : d.older? a with
      | none =>
          rw [before_of_older?_eq_none holder] at rest
          cases rest with
          | ended => rfl
          | visits hzero => exact absurd hzero not_mayHold_zero
      | some b =>
          have hrest := ih (n := k) (by omega)
          rw [before_of_older?_eq_some holder] at hrest
          simp only [hrest, Option.map_some]

/-- The bound on the list of addresses is none: a walk that ends is shorter. -/
theorem chain?_eq_some_iff : d.chain? = some as ↔ d.Traverses as :=
  ⟨walks_of_chainFrom?, fun h => chainFrom?_of_walks h h.length_lt⟩

theorem chain?_eq_none_iff : d.chain? = none ↔ d.Circular := by
  rw [Option.eq_none_iff_forall_ne_some]
  constructor
  · intro h
    by_contra hround
    obtain ⟨as, has⟩ := exists_walks_iff.2 hround
    exact h as (chain?_eq_some_iff.2 has)
  · intro hround as has
    exact exists_walks_iff.1 ⟨as, chain?_eq_some_iff.1 has⟩ hround

/-! ## Searches -/

/-- A search goes on for so many steps if all of them lead to entries, and none of these is it. -/
theorem searchFrom_eq_endless_iff : d.searchFrom s n a = .endless ↔
    ∀ i < n, MayHold (d.before^[i] a) ∧ d.fits s (d.before^[i] a) = false ∧
      (d.older? (d.before^[i] a)).isSome := by
  induction n generalizing a with
  | zero => exact ⟨fun _ i hi => absurd hi (Nat.not_lt_zero i), fun _ => rfl⟩
  | succ n ih =>
      have hfits : (d.sameText s (d.entryName a) && d.isVisible a) = d.fits s a := rfl
      rw [searchFrom, hfits]
      constructor
      · intro h
        -- the first step ends the search unless it is at an entry that is not it, with one before
        by_cases ha : a < Layout.firstEntry
        · rw [if_pos ha] at h
          cases h
        rw [if_neg ha] at h
        cases hfit : d.fits s a with
        | true =>
            rw [hfit, if_pos rfl] at h
            cases h
        | false =>
            rw [hfit, if_neg Bool.false_ne_true] at h
            cases holder : d.older? a with
            | none =>
                rw [holder] at h
                cases h
            | some b =>
                rw [holder] at h
                intro i hi
                cases i with
                | zero => exact ⟨UInt16.not_lt.1 ha, hfit, by rw [Function.iterate_zero_apply, holder]; rfl⟩
                | succ i =>
                    rw [Function.iterate_succ_apply, before_of_older?_eq_some holder]
                    exact ih.1 h i (by omega)
      · intro h
        obtain ⟨hgoes, hfit, hsome⟩ := h 0 (Nat.succ_pos n)
        rw [Function.iterate_zero_apply] at hgoes hfit hsome
        obtain ⟨b, holder⟩ := Option.isSome_iff_exists.1 hsome
        rw [if_neg (UInt16.not_lt.2 hgoes), hfit, if_neg Bool.false_ne_true, holder]
        refine ih.2 fun i hi => ?_
        have hstep := h (i + 1) (by omega)
        rw [Function.iterate_succ_apply, before_of_older?_eq_some holder] at hstep
        exact hstep

/-- On a way round each entry has one before it. -/
theorem Circular.isSome_older? (h : d.Circular) (ha : d.LeadsTo a) : (d.older? a).isSome := by
  cases holder : d.older? a with
  | some b => rfl
  | none =>
      have hgoes := GoesRound.goes_of_comesTo h ha
      have hzero : d.LeadsTo 0 := ha.tail ⟨hgoes, before_of_older?_eq_none holder⟩
      exact absurd (GoesRound.goes_of_comesTo h hzero) not_mayHold_zero

/-- A search goes on for ever if the walk does, and comes to nothing that is seen and has the name. -/
theorem find_eq_endless_iff : d.find s = .endless ↔
    s.isEmpty = false ∧ d.Circular ∧ ∀ a, d.LeadsTo a → d.fits s a = false := by
  rw [find]
  cases hempty : s.isEmpty with
  | true =>
      rw [if_pos rfl]
      constructor
      · intro h
        cases h
      · rintro ⟨hfalse, -⟩
        cases hfalse
  | false =>
      rw [if_neg Bool.false_ne_true, searchFrom_eq_endless_iff]
      constructor
      · intro h
        -- in as many steps as there are addresses a walk comes to all that it ever comes to
        refine ⟨rfl, ?_, fun a ha => ?_⟩
        · by_contra hround
          obtain ⟨as, has⟩ := exists_walks_iff.2 hround
          have hall : ∀ b, d.LeadsTo b → MayHold b := fun b hb => by
            obtain ⟨i, hi, rfl⟩ := hb.exists_iterate
            exact (h i hi).1
          obtain ⟨b, hb, hends⟩ := has.exists_end
          exact hends (hall b hb)
        · obtain ⟨i, hi, rfl⟩ := ha.exists_iterate
          exact (h i hi).2.1
      · rintro ⟨-, hround, hfit⟩ i -
        have hcomes : d.LeadsTo (d.before^[i] d.latest) :=
          comesTo_iterate fun j _ => goes_iterate (fun hwalks => exists_walks_iff.1 hwalks hround) j
        exact ⟨GoesRound.goes_of_comesTo hround hcomes, hfit _ hcomes, hround.isSome_older? hcomes⟩

/-! ## The main result -/

/-- An entry whose distance is no greater than its address leads down. -/
theorem before_lt (ha : MayHold a) (h : (d.linkDistance a).toNat ≤ a.toNat) : (d.before a).toNat < a.toNat := by
  have hpos : 96 ≤ a.toNat := UInt16.le_iff_toNat_le.1 ha
  cases holder : d.older? a with
  | none =>
      rw [before_of_older?_eq_none holder, UInt16.toNat_zero]
      omega
  | some b =>
      rw [before_of_older?_eq_some holder]
      simp only [older?, Option.ite_none_left_eq_some, not_or, Option.some.injEq] at holder
      obtain ⟨⟨-, hdistance⟩, rfl⟩ := holder
      have hzero : (d.linkDistance a).toNat ≠ 0 := fun hz => hdistance (UInt16.toNat_inj.1 hz)
      rw [UInt16.toNat_sub_of_le _ _ (UInt16.le_iff_toNat_le.2 h)]
      omega

/-- A way round leads up somewhere, from an entry that is closer to zero than its distance says. -/
theorem Circular.exists_wraps (h : d.Circular) :
    ∃ a, d.LeadsTo a ∧ MayHold a ∧ a.toNat < (d.linkDistance a).toNat := by
  obtain ⟨a, hcomes, hgoes, hle⟩ := GoesRound.exists_le (f := UInt16.toNat) h
  refine ⟨a, hcomes, hgoes, ?_⟩
  by_contra hdown
  have hlt := before_lt hgoes (Nat.not_lt.1 hdown)
  omega

/-- The entries are listed unless the walk from the latest one comes back to where it was, and are then those
on the walk that are seen. A search does not end if the walk comes back without having met what is
sought. No walk comes back that goes down at each entry. -/
theorem lookup_ends_iff (d : Dictionary) :
    (∀ es, d.entries? = some es ↔
      ∃ as, d.Traverses as ∧ es = (as.filter d.isVisible).map d.entryAt) ∧
    (d.entries? = none ↔ d.Circular) ∧
    (∀ s, d.find s = .endless ↔
      s.isEmpty = false ∧ d.Circular ∧ ∀ a, d.LeadsTo a → d.fits s a = false) ∧
    (d.Circular → d.listing? = none ∧
      ∃ a, d.LeadsTo a ∧ MayHold a ∧ a.toNat < (d.linkDistance a).toNat) := by
  have hnone : d.entries? = none ↔ d.Circular := by
    rw [entries?, Option.map_eq_none_iff, chain?_eq_none_iff]
  refine ⟨fun es => ?_, hnone, fun s => find_eq_endless_iff, fun h => ⟨?_, h.exists_wraps⟩⟩
  · rw [entries?, Option.map_eq_some_iff]
    constructor
    · rintro ⟨as, has, rfl⟩
      exact ⟨as, chain?_eq_some_iff.1 has, rfl⟩
    · rintro ⟨as, has, rfl⟩
      exact ⟨as, chain?_eq_some_iff.2 has, rfl⟩
  · rw [listing?, hnone.2 h]
    rfl

/-- Two entries lead to each other, the one at 200 up to the one at 300. -/
def ringDictionary : Dictionary :=
  (((((setUp ⟨.sparse (.zeros 1024)⟩).setReservedAddr .here 400).setReservedAddr .latest 200).writeCell
    200 (-64)).writeCell 202 (-100)).writeCell 300 6400

theorem before_ringDictionary :
    ringDictionary.latest = 200 ∧ ringDictionary.before 200 = 300 ∧ ringDictionary.before 300 = 200 := by
  decide +kernel

theorem circular_ringDictionary : ringDictionary.Circular := by
  obtain ⟨hlatest, hup, hdown⟩ := before_ringDictionary
  refine ⟨200, ?_, .tail (.single ⟨by decide, hup⟩) ⟨by decide, hdown⟩⟩
  rw [hlatest]
  exact .refl

theorem eq_of_leadsTo_ringDictionary (h : ringDictionary.LeadsTo a) : a = 200 ∨ a = 300 := by
  obtain ⟨hlatest, hup, hdown⟩ := before_ringDictionary
  induction h with
  | refl => exact Or.inl hlatest
  | tail _ hmoves ih =>
      rw [← hmoves.2]
      rcases ih with rfl | rfl
      · exact Or.inr hup
      · exact Or.inl hdown

/-- The entries can not be listed, and the search for a name that neither of them has does not end. -/
theorem lookup_ringDictionary :
    ringDictionary.Circular ∧ ringDictionary.entries? = none ∧ ringDictionary.listing? = none ∧
      ringDictionary.find (.ofLength 16 1) = .endless := by
  obtain ⟨-, hentries, hfind, hlisting⟩ := lookup_ends_iff ringDictionary
  have hround := circular_ringDictionary
  refine ⟨hround, hentries.2 hround, (hlisting hround).1, (hfind _).2 ⟨rfl, hround, fun a ha => ?_⟩⟩
  have hunfit : ringDictionary.fits (.ofLength 16 1) 200 = false ∧
      ringDictionary.fits (.ofLength 16 1) 300 = false := by
    decide +kernel
  rcases eq_of_leadsTo_ringDictionary ha with rfl | rfl
  · exact hunfit.1
  · exact hunfit.2

end ThreadedForth.Dictionary
