/-!
# Programs with a state and errors

All programs of this library are of the type `EStateM`: they go on with a value or stop with an
error, and the state is kept either way. This module takes them apart at a bind
(`exists_of_bind_eq_ok`) and says when a relation between the first and the last state of a
program follows from its parts (`Relates.bind`). A relation that every operation keeps, whether
it fails or not, is shown so once for each operation and then for every program made of them.
Two runs are compared in the same way (`Coupled.bind`).
-/

set_option autoImplicit false

namespace ThreadedForth

variable {ε σ α β : Type}

/-- The state in which a program ended, with an error or without. -/
def lastState : EStateM.Result ε σ α → σ
  | .ok _ s => s
  | .error _ s => s

@[simp] theorem lastState_ok (a : α) (s : σ) :
    lastState (EStateM.Result.ok a s : EStateM.Result ε σ α) = s := rfl

@[simp] theorem lastState_error (e : ε) (s : σ) :
    lastState (EStateM.Result.error e s : EStateM.Result ε σ α) = s := rfl

theorem get_apply (s : σ) : (get : EStateM ε σ σ) s = .ok s s := rfl

theorem modify_apply (f : σ → σ) (s : σ) :
    (modify f : EStateM ε σ PUnit) s = .ok ⟨⟩ (f s) := rfl

theorem throw_apply (e : ε) (s : σ) : (throw e : EStateM ε σ α) s = .error e s := rfl

/-- The value with which a program ended, if it ended without an error. -/
def value? : EStateM.Result ε σ α → Option α
  | .ok a _ => some a
  | .error _ _ => none

theorem exists_of_value?_eq_some {r : EStateM.Result ε σ α} {a : α} (h : value? r = some a) :
    ∃ s, r = .ok a s := by
  cases r with
  | ok b s =>
      cases h
      exact ⟨s, rfl⟩
  | error e s => cases h

theorem eq_ok_lastState {r : EStateM.Result ε σ α} {a : α} (h : value? r = some a) :
    r = .ok a (lastState r) := by
  obtain ⟨s, rfl⟩ := exists_of_value?_eq_some h
  rfl

/-- The error with which a program ended, if it ended with one. -/
def error? : EStateM.Result ε σ α → Option ε
  | .ok _ _ => none
  | .error e _ => some e

theorem eq_error_lastState {r : EStateM.Result ε σ α} {e : ε} (h : error? r = some e) :
    r = .error e (lastState r) := by
  cases r with
  | ok a s => cases h
  | error e' s =>
      cases h
      rfl

/-! ## Programs one after the other -/

theorem bind_eq_of_ok {x : EStateM ε σ α} {s t : σ} {a : α} (h : x s = .ok a t)
    (f : α → EStateM ε σ β) : (x >>= f) s = f a t := by
  show EStateM.bind x f s = _
  simp only [EStateM.bind, h]

theorem bind_eq_of_error {x : EStateM ε σ α} {s t : σ} {e : ε} (h : x s = .error e t)
    (f : α → EStateM ε σ β) : (x >>= f) s = .error e t := by
  show EStateM.bind x f s = _
  simp only [EStateM.bind, h]

/-- Programs with the same result go on in the same way. -/
theorem bind_eq_bind_of_eq {x y : EStateM ε σ α} {s t : σ} (h : x s = y t)
    (f : α → EStateM ε σ β) : (x >>= f) s = (y >>= f) t := by
  show EStateM.bind x f s = EStateM.bind y f t
  simp only [EStateM.bind, h]

/-- Programs go on alike if they do after the first one succeeded. -/
theorem bind_congr_of_ok {x : EStateM ε σ α} {f g : α → EStateM ε σ β} {s : σ}
    (h : ∀ a t, x s = .ok a t → f a t = g a t) : (x >>= f) s = (x >>= g) s := by
  cases hx : x s with
  | ok a t => rw [bind_eq_of_ok hx, bind_eq_of_ok hx, h a t hx]
  | error e t => rw [bind_eq_of_error hx, bind_eq_of_error hx]

/-- What is done for the first elements of a list, and then for the others. -/
theorem forM_append_eq_of_ok {x : α → EStateM ε σ PUnit} {as : List α} (as' : List α) {s t : σ}
    (h : as.forM x s = .ok ⟨⟩ t) : (as ++ as').forM x s = as'.forM x t :=
  (congrFun (List.forM_append (m := EStateM ε σ)) s).trans (bind_eq_of_ok h _)

/-- If two programs succeed one after the other, each of them does. -/
theorem exists_of_bind_eq_ok {x : EStateM ε σ α} {f : α → EStateM ε σ β} {s u : σ} {b : β}
    (h : (x >>= f) s = .ok b u) : ∃ a t, x s = .ok a t ∧ f a t = .ok b u := by
  cases hx : x s with
  | ok a t => exact ⟨a, t, rfl, by rw [← bind_eq_of_ok hx f, h]⟩
  | error e t =>
      rw [bind_eq_of_error hx f] at h
      cases h

/-- If two programs fail one after the other, one of them does. -/
theorem of_bind_eq_error {x : EStateM ε σ α} {f : α → EStateM ε σ β} {s u : σ} {e : ε}
    (h : (x >>= f) s = .error e u) :
    x s = .error e u ∨ ∃ a t, x s = .ok a t ∧ f a t = .error e u := by
  cases hx : x s with
  | ok a t => exact Or.inr ⟨a, t, rfl, by rw [← bind_eq_of_ok hx f, h]⟩
  | error e' t =>
      rw [bind_eq_of_error hx f] at h
      cases h
      exact Or.inl rfl

/-- A program whose value is thrown away succeeds if it does. -/
theorem exists_of_discard_eq_ok {x : EStateM ε σ α} {s t : σ} {u : PUnit}
    (h : (discard x) s = .ok u t) : ∃ a, x s = .ok a t := by
  obtain ⟨a, t', hx, ht⟩ := exists_of_bind_eq_ok (f := fun _ => pure PUnit.unit) h
  cases ht
  exact ⟨a, hx⟩

/-! ## From the first state to the last one -/

/-- Every run of a program relates the state in which it begins to the one in which it ends. -/
def Relates (R : σ → σ → Prop) (x : EStateM ε σ α) : Prop := ∀ s, R s (lastState (x s))

namespace Relates

variable {R : σ → σ → Prop}

theorem of_eq_ok {x : EStateM ε σ α} {s t : σ} {a : α} (h : Relates R x) (hx : x s = .ok a t) :
    R s t := by
  have hs := h s
  rw [hx] at hs
  exact hs

theorem of_eq_error {x : EStateM ε σ α} {s t : σ} {e : ε} (h : Relates R x)
    (hx : x s = .error e t) : R s t := by
  have hs := h s
  rw [hx] at hs
  exact hs

theorem bind {x : EStateM ε σ α} {f : α → EStateM ε σ β}
    (trans : ∀ {s t u}, R s t → R t u → R s u) (hx : Relates R x) (hf : ∀ a, Relates R (f a)) :
    Relates R (x >>= f) := by
  intro s
  have hs := hx s
  cases h : x s with
  | ok a t =>
      rw [h] at hs
      rw [bind_eq_of_ok h f]
      exact trans hs (hf a t)
  | error e t =>
      rw [h] at hs
      rw [bind_eq_of_error h f]
      exact hs

/-- A program that changes nothing where it fails is looked at where it succeeds. -/
theorem of_ok {x : EStateM ε σ α} (refl : ∀ s, R s s)
    (herror : ∀ {s t e}, x s = .error e t → t = s) (hok : ∀ {s t a}, x s = .ok a t → R s t) :
    Relates R x := by
  intro s
  cases h : x s with
  | ok a t => exact hok h
  | error e t =>
      rw [lastState_error, herror h]
      exact refl s

theorem discard {x : EStateM ε σ α} (hx : Relates R x) (refl : ∀ s, R s s)
    (trans : ∀ {s t u}, R s t → R t u → R s u) : Relates R (Functor.discard x) :=
  .bind trans hx fun _ => refl

end Relates

/-! ## Two runs side by side -/

/-- Two programs ended alike: with the same value in states related by `R`, or with the same error in
states related by `E`. -/
inductive Coupled (R E : σ → σ → Prop) :
    EStateM.Result ε σ α → EStateM.Result ε σ α → Prop
  | ok {a : α} {s t : σ} (h : R s t) : Coupled R E (.ok a s) (.ok a t)
  | error {e : ε} {s t : σ} (h : E s t) : Coupled R E (.error e s) (.error e t)

namespace Coupled

variable {R S E : σ → σ → Prop}

theorem bind {x y : EStateM ε σ α} {f g : α → EStateM ε σ β} {s t : σ} (h : Coupled R E (x s) (y t))
    (hf : ∀ a s' t', R s' t' → Coupled S E (f a s') (g a t')) :
    Coupled S E ((x >>= f) s) ((y >>= g) t) := by
  generalize hx : x s = r at h
  generalize hy : y t = r' at h
  cases h with
  | ok hst =>
      rw [bind_eq_of_ok hx, bind_eq_of_ok hy]
      exact hf _ _ _ hst
  | error hst =>
      rw [bind_eq_of_error hx, bind_eq_of_error hy]
      exact .error hst

/-- The states in which they ended are related, with an error or without. -/
theorem lastState {r r' : EStateM.Result ε σ α} (h : Coupled R R r r') :
    R (ThreadedForth.lastState r) (ThreadedForth.lastState r') := by
  cases h with
  | ok h => exact h
  | error h => exact h

theorem imp {r r' : EStateM.Result ε σ α} (h : Coupled R E r r')
    (hR : ∀ s t, R s t → S s t) : Coupled S E r r' := by
  cases h with
  | ok hst => exact .ok (hR _ _ hst)
  | error hst => exact .error hst

/-- What follows from the success of each of two runs. -/
theorem and {P P' : σ → Prop} {r r' : EStateM.Result ε σ α} (h : Coupled R E r r')
    (hok : ∀ a s, r = .ok a s → P s) (hok' : ∀ a s, r' = .ok a s → P' s) :
    Coupled (fun s t => R s t ∧ P s ∧ P' t) E r r' := by
  cases h with
  | ok hst => exact .ok ⟨hst, hok _ _ rfl, hok' _ _ rfl⟩
  | error hst => exact .error hst

end Coupled

end ThreadedForth
