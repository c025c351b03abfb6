import Mathlib.Logic.Relation
import ThreadedForth.Proofs.Dictionary.Missed
import ThreadedForth.Proofs.Machine.Failing
import ThreadedForth.Proofs.Machine.Fuel

/-!
# In the course of a run

To interpret a source is to interpret its words, to interpret a word may be to run a token and the code that
this calls, and tokens can lead to further tokens and sources in their turn (`Includes`). What is done in the
course of a run comes down to what includes nothing else: a primitive, a number, a call, or a word that is
compiled.

If of all this nothing writes to the source (`Spares`), and the host does not fail for a word, then a run
ends with nothing else done to the source than that words were read, or with an error for a word that was
read and missed (`Follows`). Runs are nested, so this is shown for tokens and sources together, by induction
on the depth (`follows_interpreter`).
-/

set_option autoImplicit false

namespace ThreadedForth

/-- What a machine is at. -/
inductive Work where
  /-- It interprets the source. -/
  | source
  /-- It interprets a word that was read. -/
  | word (name : Span)
  /-- It runs the code at the instruction pointer. -/
  | code
  /-- It runs a token. -/
  | token (xt : Addr)

namespace Work

variable {H : Type}

/-- To be at it. -/
def run (hooks : Hooks H) (N n : Nat) : Work → MachineM H Unit
  | source => Machine.interpretSource hooks (Machine.interpreter hooks N) n
  | word name => Machine.interpretWord hooks (Machine.interpreter hooks N) n name
  | code => Machine.runCode hooks (Machine.interpreter hooks N) n
  | token xt => Machine.runToken hooks (Machine.interpreter hooks N) n xt

/-- It is done, given steps enough. -/
def Ends (hooks : Hooks H) (w : Work) (m m' : Machine H) : Prop := ∃ N n, w.run hooks N n m = .ok () m'

end Work

/-- The hooks can fail, but neither as if a definition returned nor for a word, and the host has no words
of its own. -/
structure Hooks.FailPlainly {H : Type} (hooks : Hooks H) : Prop where
  sys : ∀ N selector, FailsOnly Stop.IsPlain (hooks.sys (Machine.interpreter hooks N) selector)
  refill : ∀ N, FailsOnly Stop.IsPlain (hooks.refill (Machine.interpreter hooks N))
  unknownWord : hooks.unknownWord? = none

namespace Machine

open Dictionary

variable {H α β : Type} {hooks : Hooks H} {N n : Nat} {m m' : Machine H} {d d' : Dictionary}
  {name : Span} {xt : Addr}

/-! ## Coming to an end -/

theorem growing_run (hs : hooks.Steady) (w : Work) : Growing (w.run hooks) := by
  intro N N' n n' hN hn
  cases w with
  | source => exact below_interpretSource hs (below_interpreter hs hN) hn
  | word name => exact below_interpretWord hs (below_interpreter hs hN) hn name
  | code => exact below_runCode hs (below_interpreter hs hN) hn
  | token xt => exact below_runToken hs (below_interpreter hs hN) hn xt

/-- What is done ends in one way only. -/
theorem eq_of_ends {w : Work} {m₁ : Machine H} (hs : hooks.Steady) (h : w.Ends hooks m m')
    (hrun : w.run hooks N n m = .ok () m₁) : m' = m₁ := by
  have heq := EndsIn.eq (growing_run hs w) ⟨fun _ => by simp, h⟩ ⟨fun _ => by simp, N, n, hrun⟩
  cases heq
  rfl

/-- What fails does not come to its end. -/
theorem not_ends_of_run_eq_error {w : Work} {m₁ : Machine H} {e : Error} (hs : hooks.Steady)
    (hrun : w.run hooks N n m = .error (.error e) m₁) : ¬ w.Ends hooks m m' := by
  intro h
  have heq := EndsIn.eq (growing_run hs w) ⟨fun _ => by simp, h⟩ ⟨fun _ => by simp, N, n, hrun⟩
  cases heq

/-! ## What a run includes -/

/-- The name stands for a token that is run now. -/
def Executes (m : Machine H) (name : Span) (xt : Addr) : Prop :=
  ∃ immediate, m.dictionary.meaning name = .known xt immediate ∧
    (m.dictionary.compiling = false ∨ immediate = true)

/-- To do one thing is, among others, to do another one. -/
inductive Includes (hooks : Hooks H) : Work × Machine H → Work × Machine H → Prop
  /-- The next word is read. -/
  | word {m : Machine H} (hinput : m.dictionary.hasInput = true) :
      Includes hooks (.source, m) (.word m.dictionary.nextWord.1, m.afterWord)
  /-- After it comes the rest of the source. -/
  | rest {m m' : Machine H} (hinput : m.dictionary.hasInput = true)
      (hend : (Work.word m.dictionary.nextWord.1).Ends hooks m.afterWord m') :
      Includes hooks (.source, m) (.source, m')
  /-- The token of a word is run. -/
  | token {m : Machine H} {name : Span} {xt : Addr} (hexecutes : m.Executes name xt) :
      Includes hooks (.word name, m) (.token xt, m)
  /-- Then the code that it called runs. -/
  | called {m m' : Machine H} {name : Span} {xt : Addr} (hexecutes : m.Executes name xt)
      (hend : (Work.token xt).Ends hooks m m') (hcode : Layout.firstEntry ≤ m'.ip) :
      Includes hooks (.word name, m) (.code, m')
  /-- The next token of the code is run. -/
  | next {m : Machine H} : Includes hooks (.code, m) (.token m.nextToken, m)
  /-- After it comes the rest of the code. -/
  | on {m m' : Machine H} (hend : (Work.token m.nextToken).Ends hooks m m') :
      Includes hooks (.code, m) (.code, m')
  /-- The token on the stack is run instead of one that executes it. -/
  | execute {m : Machine H} {xt : Addr} {v : Cell} {data : Stack}
      (hxt : Token.decode xt = .primitive .execute) (hpop : m.data.pop? = some (v, data)) :
      Includes hooks (.token xt, m) (.token v.toUInt16, { m with data })
  /-- The source is interpreted in the middle of a run. -/
  | evaluate {m : Machine H} {xt : Addr} (hxt : Token.decode xt = .primitive .evaluate) :
      Includes hooks (.token xt, m) (.source, { m with ip := 0 })

/-- Nothing else is done in the course of it. -/
def Elementary (hooks : Hooks H) (s : Work × Machine H) : Prop := ∀ s', ¬ Includes hooks s s'

/-- Whatever is done in the course of it, nothing is written to the source: words are read, and for the
rest the input buffer and the cells about the source are left alone. -/
def Spares (hooks : Hooks H) (s : Work × Machine H) : Prop :=
  ∀ w m m', Relation.ReflTransGen (Includes hooks) s (w, m) → Elementary hooks (w, m) →
    w.Ends hooks m m' → m.dictionary.OnlyReads m'.dictionary

/-- What is spared by all is spared by each part. -/
theorem Spares.part {s s' : Work × Machine H} (h : Spares hooks s) (hs' : Includes hooks s s') :
    Spares hooks s' :=
  fun w m m' hpart => h w m m' (Relation.ReflTransGen.head hs' hpart)

theorem Spares.onlyReads {w : Work} (h : Spares hooks (w, m)) (helementary : Elementary hooks (w, m))
    (hrun : w.run hooks N n m = .ok () m') : m.dictionary.OnlyReads m'.dictionary :=
  h w m m' .refl helementary ⟨N, n, hrun⟩

/-- A token is elementary unless it stands for another token or for a source. -/
theorem elementary_token (hexecute : Token.decode xt ≠ .primitive .execute)
    (hevaluate : Token.decode xt ≠ .primitive .evaluate) : Elementary hooks (.token xt, m) := by
  intro s' hs'
  cases hs' with
  | execute hxt hpop => exact hexecute hxt
  | evaluate hxt => exact hevaluate hxt

/-- A word is elementary if no token is run for it. -/
theorem elementary_word (h : ∀ xt, ¬ m.Executes name xt) : Elementary hooks (.word name, m) := by
  intro s' hs'
  cases hs' with
  | token hexecutes => exact h _ hexecutes
  | called hexecutes hend hcode => exact h _ hexecutes

/-! ## What spares the source -/

theorem spares_of_elementary {w : Work} (h : Elementary hooks (w, m))
    (hreads : ∀ m', w.Ends hooks m m' → m.dictionary.OnlyReads m'.dictionary) :
    Spares hooks (w, m) := by
  intro w' m₁ m' hpart _ hend
  rcases Relation.ReflTransGen.cases_head hpart with heq | ⟨s', hs', -⟩
  · cases heq
    exact hreads m' hend
  · exact absurd hs' (h s')

theorem spares_of_parts {s : Work × Machine H} (h : ¬ Elementary hooks s)
    (hparts : ∀ s', Includes hooks s s' → Spares hooks s') : Spares hooks s := by
  intro w m m' hpart helementary hend
  rcases Relation.ReflTransGen.cases_head hpart with heq | ⟨s', hs', hrest⟩
  · exact absurd (heq ▸ helementary) h
  · exact hparts s' hs' w m m' hrest helementary hend

/-- A source is spared if the next word spares it and, where that comes to its end, the rest does. -/
theorem spares_source (hinput : m.dictionary.hasInput = true)
    (hword : Spares hooks (.word m.dictionary.nextWord.1, m.afterWord))
    (hrest : ∀ m', (Work.word m.dictionary.nextWord.1).Ends hooks m.afterWord m' →
      Spares hooks (.source, m')) : Spares hooks (.source, m) := by
  refine spares_of_parts (fun h => h _ (.word hinput)) fun s' hs' => ?_
  cases hs' with
  | word _ => exact hword
  | rest _ hend => exact hrest _ hend

/-- A word that is executed spares the source if its token does, and so does the code that this calls. -/
theorem spares_word (hexecutes : m.Executes name xt) (htoken : Spares hooks (.token xt, m))
    (hcode : ∀ m', (Work.token xt).Ends hooks m m' → Layout.firstEntry ≤ m'.ip →
      Spares hooks (.code, m')) : Spares hooks (.word name, m) := by
  have hsame : ∀ {xt'}, m.Executes name xt' → xt' = xt := by
    rintro xt' ⟨immediate', hmeaning', -⟩
    obtain ⟨immediate, hmeaning, -⟩ := hexecutes
    cases hmeaning.symm.trans hmeaning'
    rfl
  refine spares_of_parts (fun h => h _ (.token hexecutes)) fun s' hs' => ?_
  cases hs' with
  | token hexecutes' =>
      obtain rfl := hsame hexecutes'
      exact htoken
  | called hexecutes' hend hip =>
      obtain rfl := hsame hexecutes'
      exact hcode _ hend hip

/-! ## How runs follow reading -/

/-- A definition returned after words were only read, or the stop is for a word that was missed; nothing is
said of other stops. -/
def StopFollows (d d' : Dictionary) : Stop → Prop
  | .exit => d.OnlyReads d'
  | .error (.wordNotFound name) => d.Misses name d'
  | _ => True

/-- A run came to its end and since `d` words were only read, or it stopped in such a way. -/
def Follows (d : Dictionary) : EStateM.Result Stop (Machine H) α → Prop
  | .ok _ m => d.OnlyReads m.dictionary
  | .error stop m => StopFollows d m.dictionary stop

theorem StopFollows.of_onlyReads {d'' : Dictionary} {stop : Stop} (hreads : d.OnlyReads d')
    (h : StopFollows d' d'' stop) : StopFollows d d'' stop := by
  unfold StopFollows at h ⊢
  split
  · exact hreads.trans h
  · exact hreads.misses h
  · trivial

theorem stopFollows_of_isPlain {stop : Stop} (h : stop.IsPlain) : StopFollows d d' stop := by
  unfold StopFollows
  split
  · exact absurd rfl h.ne_exit
  · exact absurd rfl (h.ne_wordNotFound _)
  · trivial

namespace Follows

theorem of_onlyReads {r : EStateM.Result Stop (Machine H) α} (hreads : d.OnlyReads d')
    (h : Follows d' r) : Follows d r := by
  cases r with
  | ok a m => exact hreads.trans h
  | error stop m => exact StopFollows.of_onlyReads hreads h

/-- A program that fails plainly follows if it does in the good case. -/
theorem of_failsOnly {x : MachineM H α} (hx : FailsOnly Stop.IsPlain x)
    (hok : ∀ a m', x m = .ok a m' → d.OnlyReads m'.dictionary) : Follows d (x m) := by
  cases hrun : x m with
  | ok a m' => exact hok a m' hrun
  | error stop m' => exact stopFollows_of_isPlain (hx m stop m' hrun)

theorem bind {x : MachineM H α} {f : α → MachineM H β} (hx : Follows d (x m))
    (hf : ∀ a m', x m = .ok a m' → d.OnlyReads m'.dictionary → Follows d (f a m')) :
    Follows d ((x >>= f) m) := by
  cases hrun : x m with
  | ok a m' =>
      rw [bind_eq_of_ok hrun]
      rw [hrun] at hx
      exact hf a m' hrun hx
  | error stop m' =>
      rw [bind_eq_of_error hrun]
      rw [hrun] at hx
      exact hx

/-- The instruction pointer is no part of what is read. -/
theorem withIp {ip : Addr} {x : MachineM H Unit} (h : Follows d (x { m with ip })) :
    Follows d (withIp ip x m) := by
  unfold Machine.withIp
  cases hrun : x { m with ip } with
  | ok a m' =>
      rw [hrun] at h
      exact h
  | error stop m' =>
      rw [hrun] at h
      exact h

end Follows

/-! ## Words that are not executed -/

theorem failsOnly_interpretLiteral (v : Cell) :
    FailsOnly Stop.IsPlain (interpretLiteral v : MachineM H Unit) := by
  refine (failsOnly_getDictionary _).bind fun compiling => ?_
  split
  · split
    · exact failsOnly_onDictionary (FailsFull.append _).failsOnly
    · exact (failsOnly_onDictionary (FailsFull.append _).failsOnly).bind fun _ =>
        failsOnly_onDictionary (FailsFull.append _).failsOnly
  · exact failsOnly_push v

/-- A word that nothing knows is an error with its name. -/
theorem interpretWord_of_missed {call : Interpreter H} (hwords : hooks.unknownWord? = none)
    (hmeaning : m.dictionary.meaning name = .unknown)
    (hread : Numeral.read? m.dictionary.base (m.dictionary.text name) = none) :
    interpretWord hooks call n name m = .error (.error (.wordNotFound name)) m := by
  unfold interpretWord
  rw [bind_eq_of_ok (getDictionary_apply _ m), hmeaning]
  dsimp only
  rw [bind_eq_of_ok (getDictionary_apply _ m), hread, hwords]
  rfl

/-- A word that is not executed fails plainly, or else it is neither known nor a number. -/
theorem of_interpretWord_eq_error {call : Interpreter H} {stop : Stop}
    (hwords : hooks.unknownWord? = none) (hexecutes : ∀ xt, ¬ m.Executes name xt)
    (h : interpretWord hooks call n name m = .error stop m') :
    stop.IsPlain ∨ stop = .error (.wordNotFound name) ∧ m' = m ∧
      m.dictionary.meaning name = .unknown ∧
      Numeral.read? m.dictionary.base (m.dictionary.text name) = none := by
  cases hmeaning : m.dictionary.meaning name with
  | known xt immediate =>
      have hcompiling : m.dictionary.compiling = true :=
        Bool.not_eq_false _ ▸ fun hoff => hexecutes xt ⟨immediate, hmeaning, .inl hoff⟩
      obtain rfl : immediate = false :=
        Bool.eq_false_iff.2 fun himmediate => hexecutes xt ⟨immediate, hmeaning, .inr himmediate⟩
      rw [interpretWord_of_compiling hmeaning hcompiling, forM_append_singleton] at h
      exact .inl (failsOnly_onDictionary (FailsFull.append _).failsOnly m stop m' h)
  | endless =>
      unfold interpretWord at h
      rw [bind_eq_of_ok (getDictionary_apply _ m), hmeaning] at h
      cases h
      exact .inl Stop.isPlain_outOfFuel
  | unknown =>
      cases hread : Numeral.read? m.dictionary.base (m.dictionary.text name) with
      | some v =>
          rw [interpretWord_eq_interpretLiteral hmeaning hread] at h
          exact .inl (failsOnly_interpretLiteral v m stop m' h)
      | none =>
          rw [interpretWord_of_missed hwords hmeaning hread] at h
          cases h
          exact .inr ⟨rfl, rfl, rfl, rfl⟩

/-! ## Tokens and code -/

/-- To return from a definition changes nothing about the dictionary. -/
theorem follows_exit {call : Interpreter H} (hxt : Token.decode xt = .primitive .exit) :
    Follows m.dictionary (runToken hooks call n xt m) := by
  have hpop : Follows m.dictionary (popReturn m) := by
    refine .of_failsOnly failsOnly_popReturn fun v m' hok => ?_
    unfold popReturn at hok
    split at hok
    · cases hok
      exact .refl _
    · cases hok
  unfold runToken
  rw [hxt]
  refine Follows.bind (Follows.bind hpop fun v m1 _ hreads => ?_) fun flow m1 _ hreads => ?_
  · refine Follows.bind (show Follows _ (setIp v.toUInt16 m1) from hreads) fun _ m2 _ hreads' => ?_
    split
    · exact hreads'
    · exact hreads'
  · cases flow with
    | advance => exact hreads
    | stay => exact hreads

section Step

variable (hplain : hooks.FailPlainly)
  (hrun : ∀ xt (m : Machine H), Spares hooks (.token xt, m) →
    Follows m.dictionary (interpreter hooks N (.run xt) m))
  (hsource : ∀ m : Machine H, Spares hooks (.source, m) →
    Follows m.dictionary (interpreter hooks N .interpretSource m))

include hplain hrun hsource

theorem follows_runToken (n : Nat) (h : Spares hooks (.token xt, m)) :
    Follows m.dictionary (runToken hooks (interpreter hooks N) n xt m) := by
  by_cases hover : ∃ p, Token.decode xt = .primitive p ∧ p.handsOver = true
  · obtain ⟨p, hxt, hp⟩ := hover
    cases p with
    | exit => exact follows_exit hxt
    | execute =>
        unfold runToken
        rw [hxt]
        refine Follows.bind (Follows.bind ?_ fun v m1 hpop hreads => ?_) fun flow m1 _ hreads => ?_
        · refine .of_failsOnly failsOnly_pop fun v m1 hpop => ?_
          obtain ⟨data, -, rfl⟩ := of_pop_eq_ok hpop
          exact .refl _
        · obtain ⟨data, hdata, rfl⟩ := of_pop_eq_ok hpop
          exact Follows.bind (hrun v.toUInt16 _ (h.part (.execute hxt hdata))) fun _ m2 _ hreads' =>
            hreads'
        · cases flow with
          | advance => exact hreads
          | stay => exact hreads
    | evaluate =>
        unfold runToken
        rw [hxt]
        refine Follows.bind (Follows.bind ?_ fun _ m1 _ hreads => hreads) fun flow m1 _ hreads => ?_
        · exact (hsource _ (h.part (.evaluate hxt))).withIp
        · cases flow with
          | advance => exact hreads
          | stay => exact hreads
    | _ => cases hp
  · -- what hands over to nothing is elementary
    have hxt : ∀ p, Token.decode xt = .primitive p → p.handsOver = false := by
      intro p hp
      exact Bool.eq_false_iff.2 fun htrue => hover ⟨p, hp, htrue⟩
    have helementary : Elementary hooks (.token xt, m) :=
      elementary_token (fun heq => by cases hxt _ heq) fun heq => by cases hxt _ heq
    exact .of_failsOnly (failsOnly_runToken (fun _ h => h) (hplain.sys N) (hplain.refill N) hxt)
      fun _ m' hok => h.onlyReads (w := .token xt) helementary hok

theorem follows_runCode (n : Nat) (h : Spares hooks (.code, m)) :
    Follows m.dictionary (runCode hooks (interpreter hooks N) n m) := by
  induction n generalizing m with
  | zero => trivial
  | succ n ih =>
      rw [runCode_succ]
      refine Follows.bind (follows_runToken hplain hrun hsource n (h.part .next)) fun _ m1 hok hreads => ?_
      exact .of_onlyReads hreads (ih (h.part (.on ⟨N, n, hok⟩)))

/-- A definition that returned is a good end. -/
theorem follows_execute (n : Nat) (hexecutes : m.Executes name xt) (h : Spares hooks (.word name, m)) :
    Follows m.dictionary (execute hooks (interpreter hooks N) n xt m) := by
  have hfrom : Follows m.dictionary (runFrom hooks (interpreter hooks N) n xt m) := by
    refine Follows.bind (follows_runToken hplain hrun hsource n (h.part (.token hexecutes)))
      fun _ m1 hok hreads => ?_
    show Follows _ ((if m1.ip < Layout.firstEntry then setIp 0 else
      runCode hooks (interpreter hooks N) n : MachineM H Unit) m1)
    split
    · exact hreads
    · rename_i hip
      exact .of_onlyReads hreads (follows_runCode hplain hrun hsource n
        (h.part (.called hexecutes ⟨N, n, hok⟩ (UInt16.not_lt.1 hip))))
  unfold execute
  split
  · rename_i heq
    rw [heq] at hfrom
    exact hfrom
  · rename_i heq
    rw [heq] at hfrom
    exact hfrom
  · rename_i heq
    rw [heq] at hfrom
    exact hfrom

/-- The word that was read is missed itself, or its execution ends like any other run. -/
theorem follows_interpretWord (n : Nat) (hinput : m.dictionary.hasInput = true)
    (h : Spares hooks (.word m.dictionary.nextWord.1, m.afterWord)) :
    Follows m.dictionary
      (interpretWord hooks (interpreter hooks N) n m.dictionary.nextWord.1 m.afterWord) := by
  have hread : m.dictionary.OnlyReads m.afterWord.dictionary := onlyReads_nextWord hinput
  by_cases hexecutes : ∃ xt, m.afterWord.Executes m.dictionary.nextWord.1 xt
  · obtain ⟨xt, hxt⟩ := hexecutes
    obtain ⟨immediate, hmeaning, hnow⟩ := hxt
    rw [interpretWord_eq_execute hmeaning hnow]
    exact .of_onlyReads hread (follows_execute hplain hrun hsource n ⟨immediate, hmeaning, hnow⟩ h)
  · have hnot : ∀ xt, ¬ m.afterWord.Executes m.dictionary.nextWord.1 xt := not_exists.1 hexecutes
    cases hword : interpretWord hooks (interpreter hooks N) n m.dictionary.nextWord.1 m.afterWord with
    | ok u m1 =>
        exact hread.trans (h.onlyReads (w := .word m.dictionary.nextWord.1) (elementary_word hnot) hword)
    | error stop m1 =>
        rcases of_interpretWord_eq_error hplain.unknownWord hnot hword with
          hstop | ⟨rfl, rfl, hmeaning, hnumber⟩
        · exact stopFollows_of_isPlain hstop
        · exact ⟨m.dictionary, .refl _, hinput, rfl, hmeaning, hnumber⟩

theorem follows_interpretSource (n : Nat) (h : Spares hooks (.source, m)) :
    Follows m.dictionary (interpretSource hooks (interpreter hooks N) n m) := by
  induction n generalizing m with
  | zero => trivial
  | succ n ih =>
      cases hinput : m.dictionary.hasInput with
      | false =>
          have hend : interpretSource hooks (interpreter hooks N) (n + 1) m = .ok () m := by
            rw [interpretSource, bind_eq_of_ok (getDictionary_apply _ m), hinput]
            rfl
          rw [hend]
          exact .refl _
      | true =>
          have hword : interpretSource hooks (interpreter hooks N) (n + 1) m =
              (interpretWord hooks (interpreter hooks N) n m.dictionary.nextWord.1 >>= fun _ =>
                interpretSource hooks (interpreter hooks N) n) m.afterWord := source_succ hinput
          rw [hword]
          refine Follows.bind (follows_interpretWord hplain hrun hsource n hinput (h.part (.word hinput)))
            fun _ m1 hok hreads => ?_
          exact .of_onlyReads hreads (ih (h.part (.rest hinput ⟨N, n, hok⟩)))

end Step

/-! ## The interpreter -/

/-- However deep runs are nested, tokens and sources that spare the source follow. -/
theorem follows_interpreter (hplain : hooks.FailPlainly) (N : Nat) :
    (∀ xt (m : Machine H), Spares hooks (.token xt, m) →
      Follows m.dictionary (interpreter hooks N (.run xt) m)) ∧
      ∀ m : Machine H, Spares hooks (.source, m) →
        Follows m.dictionary (interpreter hooks N .interpretSource m) := by
  induction N with
  | zero => exact ⟨fun _ _ _ => trivial, fun _ _ => trivial⟩
  | succ N ih =>
      exact ⟨fun xt m h => follows_runToken hplain ih.1 ih.2 N h,
        fun m h => follows_interpretSource hplain ih.1 ih.2 N h⟩

end Machine

end ThreadedForth
