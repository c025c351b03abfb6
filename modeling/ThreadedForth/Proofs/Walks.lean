import Mathlib.Data.Fintype.Pigeonhole
import Mathlib.Logic.Function.Iterate
import Mathlib.Logic.Relation
import ThreadedForth.Cell

/-!
# Walks over addresses

A loop that visits an address and goes on at the next one, as long as the address is one where it goes on.
Nothing bounds it from outside. There are finitely many addresses, so a walk either ends, and has
then visited no address twice (`Walks.nodup`), or comes back to where it was
(`exists_walks_iff`).
-/

set_option autoImplicit false

namespace ThreadedForth

/-- There are so many addresses. -/
theorem length_le_of_nodup {as : List Addr} (h : as.Nodup) : as.length ≤ 65536 := by
  have hnodup : (as.map UInt16.toNat).Nodup := h.map fun _ _ heq => UInt16.toNat_inj.1 heq
  have hsub : as.map UInt16.toNat ⊆ List.range 65536 := by
    intro n hn
    obtain ⟨b, -, rfl⟩ := List.mem_map.1 hn
    exact List.mem_range.2 b.toNat_lt
  calc as.length = (as.map UInt16.toNat).length := by rw [List.length_map]
    _ ≤ (List.range 65536).length := (hnodup.subperm hsub).length_le
    _ = 65536 := List.length_range

section Walks

variable {goes : Addr → Prop} {next : Addr → Addr} {a b : Addr} {as bs : List Addr}

variable (goes next) in
/-- The walk from an address ends after it has visited these addresses. -/
inductive Walks : Addr → List Addr → Prop
  | ended {a : Addr} (h : ¬ goes a) : Walks a []
  | visits {a : Addr} {as : List Addr} (h : goes a) (rest : Walks (next a) as) : Walks a (a :: as)

variable (goes next) in
/-- One round of the walk. -/
def Moves (a b : Addr) : Prop := goes a ∧ next a = b

variable (goes next) in
/-- The walk comes from the one address to the other one. -/
def ComesTo (a b : Addr) : Prop := Relation.ReflTransGen (Moves goes next) a b

variable (goes next) in
/-- The walk comes to an address from which it comes back to it. -/
def GoesRound (a : Addr) : Prop :=
  ∃ b, ComesTo goes next a b ∧ Relation.TransGen (Moves goes next) b b

namespace Walks

/-- There is only one such list. -/
theorem eq (h : Walks goes next a as) (h' : Walks goes next a bs) : as = bs := by
  induction h generalizing bs with
  | ended h =>
      cases h' with
      | ended => rfl
      | visits hgoes => exact absurd hgoes h
  | visits h rest ih =>
      cases h' with
      | ended hends => exact absurd h hends
      | visits _ rest' => rw [ih rest']

/-- What follows an address that the walk comes to is the walk from there. -/
theorem exists_of_comesTo (h : Walks goes next a as) (hb : ComesTo goes next a b) :
    ∃ bs, Walks goes next b bs ∧ bs <:+ as := by
  induction hb with
  | refl => exact ⟨as, h, List.suffix_refl as⟩
  | tail _ hmoves ih =>
      obtain ⟨bs, hwalks, hsuffix⟩ := ih
      cases hwalks with
      | ended hends => exact absurd hmoves.1 hends
      | visits _ rest =>
          rw [hmoves.2] at rest
          exact ⟨_, rest, (List.suffix_cons _ _).trans hsuffix⟩

/-- A walk that ends does not come back. -/
theorem not_transGen (h : Walks goes next a as) : ¬ Relation.TransGen (Moves goes next) a a := by
  intro hround
  obtain ⟨b, hmoves, hb⟩ := Relation.TransGen.head'_iff.1 hround
  cases h with
  | ended hends => exact hends hmoves.1
  | @visits _ rest _ hwalks =>
      rw [hmoves.2] at hwalks
      -- the walk from `a` would be a part of what follows `a`
      obtain ⟨bs, hwalks', hsuffix⟩ := hwalks.exists_of_comesTo hb
      have hwhole : bs = a :: rest := hwalks'.eq (.visits hmoves.1 (hmoves.2 ▸ hwalks))
      have hlength := hsuffix.length_le
      rw [hwhole, List.length_cons] at hlength
      omega

/-- The walk visits the addresses that it comes to and goes on from. -/
theorem mem_iff (h : Walks goes next a as) : b ∈ as ↔ ComesTo goes next a b ∧ goes b := by
  constructor
  · intro hb
    induction h with
    | ended => cases hb
    | @visits a as hgoes rest ih =>
        rcases List.mem_cons.1 hb with rfl | hb
        · exact ⟨.refl, hgoes⟩
        · exact ⟨.head ⟨hgoes, rfl⟩ (ih hb).1, (ih hb).2⟩
  · rintro ⟨hcomes, hgoes⟩
    obtain ⟨bs, hwalks, hsuffix⟩ := h.exists_of_comesTo hcomes
    cases hwalks with
    | ended hends => exact absurd hgoes hends
    | visits _ rest => exact hsuffix.subset List.mem_cons_self

/-- No address is visited twice. -/
theorem nodup (h : Walks goes next a as) : as.Nodup := by
  induction h with
  | ended => exact List.nodup_nil
  | @visits a as hgoes rest ih =>
      refine List.nodup_cons.2 ⟨fun hmem => ?_, ih⟩
      have hback := (rest.mem_iff.1 hmem).1
      exact (Walks.visits hgoes rest).not_transGen (.head' ⟨hgoes, rfl⟩ hback)

/-- A walk ends at an address where it does not go on. -/
theorem exists_end (h : Walks goes next a as) : ∃ b, ComesTo goes next a b ∧ ¬ goes b := by
  induction h with
  | ended hends => exact ⟨_, .refl, hends⟩
  | visits hgoes _ ih =>
      obtain ⟨b, hcomes, hends⟩ := ih
      exact ⟨b, .head ⟨hgoes, rfl⟩ hcomes, hends⟩

/-- There are fewer visits than addresses: the one at which the walk ends is not visited. -/
theorem length_lt (h : Walks goes next a as) : as.length < 65536 := by
  obtain ⟨b, -, hends⟩ := h.exists_end
  have hb : b ∉ as := fun hmem => hends (h.mem_iff.1 hmem).2
  exact length_le_of_nodup (List.nodup_cons.2 ⟨hb, h.nodup⟩)

/-- If each round leads to a greater one, the addresses are in this order. -/
theorem pairwise (h : Walks goes next a as) {R : Addr → Addr → Prop} (htrans : ∀ a b c, R a b → R b c → R a c)
    (hround : ∀ b, ComesTo goes next a b → goes b → R b (next b)) : as.Pairwise R := by
  induction h with
  | ended => exact List.Pairwise.nil
  | @visits a as hgoes rest ih =>
      refine List.pairwise_cons.2 ⟨fun b hb => ?_, ih fun b hb =>
        hround b (.head ⟨hgoes, rfl⟩ hb)⟩
      -- on the way from the next address to the visited one
      have hcomes := (rest.mem_iff.1 hb).1
      induction hcomes with
      | refl => exact hround a .refl hgoes
      | tail hbefore hmoves ih' =>
          have hvisited := rest.mem_iff.2 ⟨hbefore, hmoves.1⟩
          refine htrans _ _ _ (ih' hvisited) ?_
          rw [← hmoves.2]
          exact hround _ (.head ⟨hgoes, rfl⟩ hbefore) hmoves.1

end Walks

/-! ## Walks that do not end -/

theorem comesTo_iterate {n : Nat} (h : ∀ i < n, goes (next^[i] a)) :
    ComesTo goes next a (next^[n] a) := by
  induction n with
  | zero => exact .refl
  | succ n ih =>
      rw [Function.iterate_succ_apply']
      exact .tail (ih fun i hi => h i (by omega)) ⟨h n (by omega), rfl⟩

/-- The walk comes to an address in fewer rounds than there are addresses. -/
theorem ComesTo.exists_iterate (h : ComesTo goes next a b) : ∃ n < 65536, next^[n] a = b := by
  have hsome : ∃ n, next^[n] a = b := by
    induction h with
    | refl => exact ⟨0, rfl⟩
    | tail _ hmoves ih =>
        obtain ⟨n, hn⟩ := ih
        exact ⟨n + 1, by rw [Function.iterate_succ_apply', hn, hmoves.2]⟩
  -- on the shortest way no address is met twice
  let k := Nat.find hsome
  have hk : next^[k] a = b := Nat.find_spec hsome
  have hmin : ∀ n < k, next^[n] a ≠ b := fun n hn => Nat.find_min hsome hn
  refine ⟨k, ?_, hk⟩
  have hnodup : ((List.range (k + 1)).map fun i => next^[i] a).Nodup := by
    refine List.nodup_range.map_on fun i hi j hj heq => ?_
    have hi := List.mem_range.1 hi
    have hj := List.mem_range.1 hj
    have hcut : ∀ i j, i < j → j ≤ k → next^[i] a ≠ next^[j] a := by
      intro i j hlt hle heq
      refine hmin (k - j + i) (by omega) ?_
      rw [Function.iterate_add_apply, heq, ← Function.iterate_add_apply, Nat.sub_add_cancel hle, hk]
    rcases Nat.lt_trichotomy i j with hlt | heq' | hlt
    · exact absurd heq (hcut i j hlt (by omega))
    · exact heq'
    · exact absurd heq.symm (hcut j i hlt (by omega))
  have hle := length_le_of_nodup hnodup
  rw [List.length_map, List.length_range] at hle
  omega

/-- If the walk comes to where it does not go on, it ends. -/
theorem exists_walks_of_comesTo (h : ComesTo goes next a b) (hends : ¬ goes b) :
    ∃ as, Walks goes next a as := by
  induction h using Relation.ReflTransGen.head_induction_on with
  | refl => exact ⟨[], .ended hends⟩
  | head hmoves _ ih =>
      obtain ⟨as, hwalks⟩ := ih
      exact ⟨_, .visits hmoves.1 (hmoves.2 ▸ hwalks)⟩

/-- A walk that does not end goes on for ever. -/
theorem goes_iterate (h : ¬ ∃ as, Walks goes next a as) (n : Nat) : goes (next^[n] a) := by
  induction n using Nat.strongRecOn with
  | ind n ih =>
      by_contra hends
      exact h (exists_walks_of_comesTo (comesTo_iterate ih) hends)

/-- There are finitely many addresses. -/
theorem exists_iterate_eq (next : Addr → Addr) (a : Addr) :
    ∃ i j, i < j ∧ next^[i] a = next^[j] a := by
  have hfinite : Finite Addr :=
    Finite.of_injective UInt16.toFin fun b c h => UInt16.toNat_inj.1 (congrArg Fin.val h)
  obtain ⟨i, j, hne, heq⟩ := Finite.exists_ne_map_eq_of_infinite fun n : Nat => next^[n] a
  rcases Nat.lt_or_gt_of_ne hne with hlt | hlt
  · exact ⟨i, j, hlt, heq⟩
  · exact ⟨j, i, hlt, heq.symm⟩

/-- A walk ends unless it comes back to where it was. -/
theorem exists_walks_iff : (∃ as, Walks goes next a as) ↔ ¬ GoesRound goes next a := by
  constructor
  · rintro ⟨as, hwalks⟩ ⟨b, hcomes, hround⟩
    obtain ⟨bs, hwalks', -⟩ := hwalks.exists_of_comesTo hcomes
    exact hwalks'.not_transGen hround
  · intro hround
    by_contra hnever
    have hgoes := goes_iterate hnever
    -- two rounds come to the same address, and the walk from there comes back
    obtain ⟨i, j, hlt, heq⟩ := exists_iterate_eq next a
    obtain ⟨k, rfl⟩ : ∃ k, j = k + 1 + i := ⟨j - i - 1, by omega⟩
    rw [Function.iterate_add_apply, Function.iterate_succ_apply'] at heq
    refine hround ⟨next^[i] a, comesTo_iterate fun n _ => hgoes n, ?_⟩
    have hback : ComesTo goes next (next^[i] a) (next^[k] (next^[i] a)) :=
      comesTo_iterate fun n _ => by
        rw [← Function.iterate_add_apply]
        exact hgoes _
    refine .tail' hback ⟨?_, heq.symm⟩
    rw [← Function.iterate_add_apply]
    exact hgoes _

/-- A walk that comes back goes on at every address that it comes to. -/
theorem GoesRound.goes_of_comesTo (h : GoesRound goes next a) (hb : ComesTo goes next a b) : goes b := by
  by_contra hends
  exact exists_walks_iff.1 (exists_walks_of_comesTo hb hends) h

/-- Somewhere on a way round a measure does not become smaller. -/
theorem GoesRound.exists_le {f : Addr → Nat} (h : GoesRound goes next a) :
    ∃ b, ComesTo goes next a b ∧ goes b ∧ f b ≤ f (next b) := by
  obtain ⟨b, hcomes, hround⟩ := h
  by_contra hnone
  have hless : ∀ c, ComesTo goes next a c → goes c → f (next c) < f c := fun c hc hgoes => by
    by_contra hle
    exact hnone ⟨c, hc, hgoes, by omega⟩
  have hdown : ∀ c, Relation.TransGen (Moves goes next) b c → f c < f b := by
    intro c hc
    induction hc with
    | single hmoves => exact hmoves.2 ▸ hless b hcomes hmoves.1
    | tail hbefore hmoves ih =>
        have hstep := hless _ (hcomes.trans hbefore.to_reflTransGen) hmoves.1
        rw [hmoves.2] at hstep
        omega
  exact absurd (hdown b hround) (Nat.lt_irrefl _)

end Walks

end ThreadedForth
