import ThreadedForth.Proofs.Dictionary.Draft
import ThreadedForth.Proofs.Machine.Compile

/-!
# How programs fail

To take cells, to make room, to read and to write: all of this can fail, but not as if a definition
returned, and not for a word that is not known. Only some primitives can stop in these ways: the one that
returns, those that have the machine run something else, and those that ask the host, as it pleases
(`failsOnly_perform`).
-/

set_option autoImplicit false

namespace ThreadedForth

section

variable {ε σ α β : Type} {P : ε → Prop}

/-- Where the program fails, it does with an error of this kind. -/
def FailsOnly (P : ε → Prop) (x : EStateM ε σ α) : Prop := ∀ s e t, x s = .error e t → P e

namespace FailsOnly

theorem bind {x : EStateM ε σ α} {f : α → EStateM ε σ β} (hx : FailsOnly P x)
    (hf : ∀ a, FailsOnly P (f a)) : FailsOnly P (x >>= f) := by
  intro s e t h
  rcases of_bind_eq_error h with hfail | ⟨a, u, -, hrest⟩
  · exact hx s e t hfail
  · exact hf a u e t hrest

theorem pure (a : α) : FailsOnly P (pure a : EStateM ε σ α) := by
  intro s e t h
  cases h

theorem throw {e : ε} (h : P e) : FailsOnly P (throw e : EStateM ε σ α) := by
  intro s e' t hthrow
  cases hthrow
  exact h

theorem get : FailsOnly P (get : EStateM ε σ σ) := by
  intro s e t h
  cases h

theorem imp {Q : ε → Prop} {x : EStateM ε σ α} (hx : FailsOnly P x) (h : ∀ e, P e → Q e) :
    FailsOnly Q x := fun s e t hfail => h e (hx s e t hfail)

/-- A program whose value is thrown away. -/
theorem discard {x : EStateM ε σ α} (hx : FailsOnly P x) : FailsOnly P (discard x) :=
  hx.bind fun _ => pure _

end FailsOnly

end

/-- The error has nothing to do with a word that is not known. -/
def Error.IsPlain (e : Error) : Prop := ∀ name, e ≠ .wordNotFound name

/-! ## Programs of the data stack -/

namespace StackM

theorem failsOnly_push (v : Cell) : FailsOnly Error.IsPlain (push v) := by
  intro s e t h
  unfold push at h
  split at h
  · cases h
  · cases h
    exact nofun

theorem failsOnly_pop : FailsOnly Error.IsPlain pop := by
  intro s e t h
  unfold pop at h
  split at h
  · cases h
  · cases h
    exact nofun

theorem failsOnly_pick (n : Nat) : FailsOnly Error.IsPlain (pick n) := by
  intro s e t h
  unfold pick at h
  split at h
  · cases h
  · cases h
    exact nofun

theorem failsOnly_setTop (v : Cell) : FailsOnly Error.IsPlain (setTop v) := by
  intro s e t h
  unfold setTop at h
  split at h
  · cases h
  · cases h
    exact nofun

theorem failsOnly_pop2 : FailsOnly Error.IsPlain pop2 := by
  intro s e t h
  unfold pop2 at h
  split at h
  · cases h
  · cases h
    exact nofun

theorem failsOnly_pop3 : FailsOnly Error.IsPlain pop3 := by
  intro s e t h
  unfold pop3 at h
  split at h
  · cases h
  · cases h
    exact nofun

theorem failsOnly_pop4 : FailsOnly Error.IsPlain pop4 := by
  intro s e t h
  unfold pop4 at h
  split at h
  · cases h
  · cases h
    exact nofun

theorem failsOnly_pushDouble (d : DoubleCell) : FailsOnly Error.IsPlain (pushDouble d) :=
  (failsOnly_push _).bind fun _ => failsOnly_push _

theorem failsOnly_binary (f : Cell → Cell → Cell) : FailsOnly Error.IsPlain (binary f) :=
  failsOnly_pop2.bind fun _ => failsOnly_push _

theorem failsOnly_divide {f : DoubleCell → Cell → StackM Unit}
    (hf : ∀ d n, FailsOnly Error.IsPlain (f d n)) : FailsOnly Error.IsPlain (Operator.divide f) := by
  refine failsOnly_pop3.bind fun p => ?_
  dsimp only
  split
  · exact (FailsOnly.throw nofun).bind fun _ => hf _ _
  · exact hf _ _

theorem failsOnly_apply (op : Operator) : FailsOnly Error.IsPlain op.apply := by
  cases op with
  | drop => exact failsOnly_pop.discard
  | dup => exact (failsOnly_pick 0).bind fun v => failsOnly_push v
  | swap => exact failsOnly_pop2.bind fun _ => (failsOnly_push _).bind fun _ => failsOnly_push _
  | pick =>
      exact (failsOnly_pick 0).bind fun _ => (failsOnly_pick _).bind fun _ => failsOnly_setTop _
  | mul => exact failsOnly_pop2.bind fun _ => failsOnly_pushDouble _
  | div => exact failsOnly_divide fun _ _ => failsOnly_push _
  | mod => exact failsOnly_divide fun _ _ => failsOnly_push _
  | depth => exact fun s => failsOnly_push _ s
  | mulAdd => exact failsOnly_pop4.bind fun _ => failsOnly_pushDouble _
  | equal => exact failsOnly_binary fun a b => flag (a == b)
  | less => exact failsOnly_binary fun a b => flag (a < b)
  | unsignedLess => exact failsOnly_binary fun a b => flag (a.toUInt16 < b.toUInt16)
  | unsignedDivMod =>
      unfold Operator.apply
      exact failsOnly_divide fun d n => (failsOnly_push _).bind fun _ => failsOnly_push _
  | _ => exact failsOnly_binary _

end StackM

/-! ## Programs of the dictionary -/

namespace Dictionary

/-- To lack room is a plain failure. -/
theorem FailsFull.failsOnly {α : Type} {x : DictionaryM α} (h : FailsFull x) :
    FailsOnly Error.IsPlain x := by
  intro d e d' hfail
  obtain ⟨a, amount, rfl⟩ := h d e d' hfail
  exact nofun

theorem failsOnly_define (name : Span) : FailsOnly Error.IsPlain (define name) := by
  intro d e d' h
  by_cases hlen : name.length.toNat ≤ Header.maxNameLength
  · obtain ⟨a, amount, rfl⟩ := exists_of_define_eq_error hlen h
    exact nofun
  · rw [define_eq_of_long (Nat.not_le.1 hlen)] at h
    cases h
    exact nofun

theorem failsOnly_link (entry : Addr) : FailsOnly Error.IsPlain (link entry) := by
  intro d e d' h
  by_cases hlinkable : d.Linkable entry
  · rw [link_eq_of_linkable hlinkable] at h
    cases h
  · rw [link_eq_of_not_linkable hlinkable] at h
    cases h
    exact nofun

theorem failsOnly_loadInput (line : List UInt8) : FailsOnly Error.IsPlain (loadInput line) := by
  intro d e d' h
  unfold loadInput at h
  split at h
  · cases h
  · cases h
    exact nofun

end Dictionary

/-! ## Programs of the machine -/

/-- A definition did not return, and no word was not known. -/
structure Stop.IsPlain (stop : Stop) : Prop where
  ne_exit : stop ≠ .exit
  ne_wordNotFound : ∀ name, stop ≠ .error (.wordNotFound name)

theorem Error.IsPlain.stop {e : Error} (h : e.IsPlain) : (Stop.error e).IsPlain :=
  ⟨nofun, fun name heq => h name (by cases heq; rfl)⟩

theorem Stop.isPlain_outOfFuel : Stop.outOfFuel.IsPlain := ⟨nofun, nofun⟩

/-- The primitive returns from a definition, or it has the machine run something else. -/
def Primitive.handsOver : Primitive → Bool
  | exit | execute | evaluate => true
  | _ => false

namespace Machine

variable {H α : Type} {hooks : Hooks H} {call : Interpreter H} {n : Nat} {P : Stop → Prop}

theorem failsOnly_onData {x : StackM α} (h : FailsOnly Error.IsPlain x) :
    FailsOnly Stop.IsPlain (onData x : MachineM H α) := by
  intro m stop m' hfail
  simp only [onData] at hfail
  split at hfail
  · cases hfail
  · rename_i e s hx
    cases hfail
    exact (h _ e s hx).stop

theorem failsOnly_onDictionary {x : DictionaryM α} (h : FailsOnly Error.IsPlain x) :
    FailsOnly Stop.IsPlain (onDictionary x : MachineM H α) := by
  intro m stop m' hfail
  simp only [onDictionary] at hfail
  split at hfail
  · cases hfail
  · rename_i e d hx
    cases hfail
    exact (h _ e d hx).stop

theorem failsOnly_modifyDictionary (f : Dictionary → Dictionary) :
    FailsOnly P (modifyDictionary f : MachineM H Unit) := by
  intro m stop m' h
  cases h

theorem failsOnly_getDictionary (f : Dictionary → α) :
    FailsOnly P (getDictionary f : MachineM H α) := by
  intro m stop m' h
  cases h

theorem failsOnly_modifyHost (f : H → H) : FailsOnly P (modifyHost f : MachineM H Unit) := by
  intro m stop m' h
  cases h

theorem failsOnly_nextWord :
    FailsOnly P (onDictionary (fun d => .ok d.nextWord.1 d.nextWord.2) : MachineM H Span) := by
  intro m stop m' h
  cases h

theorem failsOnly_setIp (ip : Addr) : FailsOnly P (setIp ip : MachineM H Unit) := by
  intro m stop m' h
  cases h

theorem failsOnly_advance : FailsOnly P (advance : MachineM H Unit) := by
  intro m stop m' h
  cases h

theorem failsOnly_nextCell : FailsOnly P (nextCell : MachineM H Cell) := by
  intro m stop m' h
  cases h

theorem failsOnly_push (v : Cell) : FailsOnly Stop.IsPlain (push v : MachineM H Unit) :=
  failsOnly_onData (StackM.failsOnly_push v)

theorem failsOnly_pop : FailsOnly Stop.IsPlain (pop : MachineM H Cell) :=
  failsOnly_onData StackM.failsOnly_pop

theorem failsOnly_pushReturn (v : Cell) : FailsOnly Stop.IsPlain (pushReturn v : MachineM H Unit) := by
  intro m stop m' h
  unfold pushReturn at h
  split at h
  · cases h
  · cases h
    exact ⟨nofun, nofun⟩

theorem failsOnly_popReturn : FailsOnly Stop.IsPlain (popReturn : MachineM H Cell) := by
  intro m stop m' h
  unfold popReturn at h
  split at h
  · cases h
  · cases h
    exact ⟨nofun, nofun⟩

theorem failsOnly_jump : FailsOnly P (jump : MachineM H Unit) := by
  intro m stop m' h
  cases h

theorem failsOnly_pushMeaning (name : Span) :
    FailsOnly Stop.IsPlain (pushMeaning name : MachineM H Unit) := by
  refine (failsOnly_getDictionary _).bind fun meaning => ?_
  cases meaning with
  | known xt immediate => exact (failsOnly_push _).bind fun _ => failsOnly_push _
  | unknown => exact (failsOnly_push _).bind fun _ => failsOnly_push _
  | endless => exact .throw Stop.isPlain_outOfFuel

theorem failsOnly_fetch : FailsOnly Stop.IsPlain (fetch : MachineM H Unit) :=
  (failsOnly_onData StackM.failsOnly_pop2).bind fun _ =>
    (failsOnly_getDictionary _).bind fun _ => failsOnly_push _

theorem failsOnly_store : FailsOnly Stop.IsPlain (store : MachineM H Unit) := by
  refine (failsOnly_onData StackM.failsOnly_pop3).bind fun p => ?_
  dsimp only
  split
  · exact failsOnly_modifyDictionary _
  · split
    · exact failsOnly_onDictionary fun d e d' h =>
        (Dictionary.FailsFull.allot _).failsOnly.discard d e d' h
    · exact failsOnly_modifyDictionary _

theorem failsOnly_semicolon : FailsOnly Stop.IsPlain (semicolon : MachineM H Unit) :=
  (failsOnly_onData (StackM.failsOnly_pick 0)).bind fun _ =>
    (failsOnly_onDictionary (Dictionary.FailsFull.append _).failsOnly).bind fun _ =>
      failsOnly_pop.discard.bind fun _ => (failsOnly_modifyDictionary _).bind fun _ =>
        failsOnly_onDictionary (Dictionary.failsOnly_link _)

section Host

variable (hP : ∀ stop : Stop, stop.IsPlain → P stop)

include hP

/-- A word is awaited in vain as the host fails to bring a line. -/
theorem failsOnly_awaitWord (hrefill : FailsOnly P (hooks.refill call)) (n : Nat) :
    FailsOnly P (awaitWord hooks call n) := by
  induction n with
  | zero => exact .throw (hP _ Stop.isPlain_outOfFuel)
  | succ n ih =>
      rw [awaitWord]
      refine (failsOnly_getDictionary _).bind fun hasInput => ?_
      cases hasInput with
      | true => exact failsOnly_nextWord
      | false => exact hrefill.bind fun _ => ih

theorem failsOnly_colon (hrefill : FailsOnly P (hooks.refill call)) (n : Nat) :
    FailsOnly P (colon hooks call n) :=
  ((failsOnly_onDictionary Dictionary.FailsFull.alignHere.failsOnly).imp hP).bind fun _ =>
    ((failsOnly_push _).imp hP).bind fun _ => (failsOnly_modifyDictionary _).bind fun _ =>
      (failsOnly_awaitWord hP hrefill n).bind fun name =>
        ((failsOnly_onDictionary (Dictionary.failsOnly_define name)).imp hP).bind fun _ =>
          failsOnly_modifyDictionary _

/-- A primitive fails plainly, or as the host does, unless it hands over to something else. -/
theorem failsOnly_perform (hsys : ∀ selector, FailsOnly P (hooks.sys call selector))
    (hrefill : FailsOnly P (hooks.refill call)) {p : Primitive} (hp : p.handsOver = false) :
    FailsOnly P (perform hooks call n p) := by
  cases p with
  | operator op =>
      exact ((failsOnly_onData (StackM.failsOnly_apply op)).imp hP).bind fun _ => .pure _
  | literal =>
      exact failsOnly_nextCell.bind fun v =>
        ((failsOnly_push v).imp hP).bind fun _ => .pure _
  | sys => exact (failsOnly_pop.imp hP).bind fun selector => (hsys selector).bind fun _ => .pure _
  | fetch => exact (failsOnly_fetch.imp hP).bind fun _ => .pure _
  | store => exact (failsOnly_store.imp hP).bind fun _ => .pure _
  | toReturn =>
      exact ((failsOnly_onData (StackM.failsOnly_pick 0)).imp hP).bind fun v =>
        ((failsOnly_pushReturn v).imp hP).bind fun _ =>
          ((failsOnly_pop.discard).imp hP).bind fun _ => .pure _
  | fromReturn =>
      exact (failsOnly_popReturn.imp hP).bind fun v =>
        ((failsOnly_push v).imp hP).bind fun _ => .pure _
  | colon => exact (failsOnly_colon hP hrefill n).bind fun _ => .pure _
  | tick =>
      exact (failsOnly_awaitWord hP hrefill n).bind fun name =>
        ((failsOnly_pushMeaning name).imp hP).bind fun _ => .pure _
  | execute => cases hp
  | exit => cases hp
  | semicolon => exact (failsOnly_semicolon.imp hP).bind fun _ => .pure _
  | branchIfZero =>
      refine (failsOnly_pop.imp hP).bind fun v => ?_
      split
      · exact failsOnly_jump.bind fun _ => .pure _
      · exact failsOnly_nextCell.discard.bind fun _ => .pure _
  | branch => exact failsOnly_jump.bind fun _ => .pure _
  | returnDepth =>
      exact FailsOnly.get.bind fun m => ((failsOnly_push _).imp hP).bind fun _ => .pure _
  | refill => exact hrefill.bind fun _ => .pure _
  | evaluate => cases hp
  | find =>
      exact ((failsOnly_onData StackM.failsOnly_pop2).imp hP).bind fun _ =>
        ((failsOnly_pushMeaning _).imp hP).bind fun _ => .pure _

/-- So it is with tokens: numbers and calls fail for the stacks alone. -/
theorem failsOnly_runToken (hsys : ∀ selector, FailsOnly P (hooks.sys call selector))
    (hrefill : FailsOnly P (hooks.refill call)) {xt : Addr}
    (hxt : ∀ p, Token.decode xt = .primitive p → p.handsOver = false) :
    FailsOnly P (runToken hooks call n xt) := by
  unfold runToken
  cases hdecode : Token.decode xt with
  | call body =>
      exact FailsOnly.get.bind fun m => ((failsOnly_pushReturn _).imp hP).bind fun _ =>
        failsOnly_setIp body
  | literal v => exact ((failsOnly_push v).imp hP).bind fun _ => failsOnly_advance
  | primitive p =>
      refine (failsOnly_perform hP hsys hrefill (hxt p hdecode)).bind fun flow => ?_
      cases flow with
      | advance => exact failsOnly_advance
      | stay => exact .pure _

end Host

end Machine

end ThreadedForth
