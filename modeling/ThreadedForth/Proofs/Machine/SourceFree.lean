import ThreadedForth.Proofs.Dictionary.Uncommented
import ThreadedForth.Proofs.Machine.Phrases

/-!
# Words that have nothing to do with the source

A word is read from the source, and it may take the words after it as names. Many words do nothing else
with the source: whatever text is behind them, they do the same, and they leave the text to be read that is
behind them (`SourceFree`). It is so with numbers and all words that are added to a definition
(`sourceFree_of_effect?`), with words of the stacks and definitions of them, whether they are executed or
added to a definition, with `;` and with `:`, which takes one name (`sourceFree_of_after?`), and with words
that are not known (`sourceFree_of_unknown`).
-/

set_option autoImplicit false

namespace ThreadedForth

namespace Dictionary

variable {d d' : Dictionary} {fs : List Definition} {limit : Nat} {vs : List Cell} {s : Span}

/-- The definitions are seen. Nothing is compiled, or another definition after them is. -/
inductive Offers (d : Dictionary) (fs : List Definition) (limit : Nat) : Prop
  | resting (linked : d.Linked fs limit) (resting : d.Resting fs)
  | compiling {f : Definition} {code : List Cell} (unfinished : d.Unfinished fs limit f code)

namespace Offers

theorem linked (h : d.Offers fs limit) : d.Linked fs limit := by
  cases h with
  | resting linked _ => exact linked
  | compiling unfinished => exact unfinished.linked

theorem meaning_eq (h : d.Offers fs limit) (s : Span) :
    d.meaning s = match fs.find? fun f => Text.same (d.text s) f.name with
      | some f => .known f.body f.immediate
      | none => match Primitive.ofName? (d.text s) with
        | some p => .known p.token p.isImmediate
        | none => .unknown := by
  cases h with
  | resting linked resting => exact linked.meaning_eq (linked.shows_of_resting resting) s
  | compiling unfinished => exact unfinished.linked.meaning_eq unfinished.shows s

theorem of_inputOnly (h : d.Offers fs limit) (hd : d.InputOnly d') : d'.Offers fs limit := by
  cases h with
  | resting linked resting => exact .resting (linked.of_inputOnly hd) (resting.of_inputOnly hd)
  | compiling unfinished => exact .compiling (unfinished.of_inputOnly hd)

/-- Code is added to the definition that is compiled. -/
theorem append (h : d.Offers fs limit) (hcompiling : d.compiling = true)
    (hd : vs.forM append d = .ok () d') :
    d'.Offers fs limit ∧ d'.compiling = true ∧ d.AgreeOn d' 10 96 ∧ d.AgreeOn d' 96 limit := by
  cases h with
  | resting linked resting =>
      rw [resting.compiling_eq] at hcompiling
      cases hcompiling
  | compiling unfinished =>
      have hdrafts := drafts_forM_append unfinished.progress.ready hd
      have hnext := unfinished.append hd
      exact ⟨.compiling hnext, hnext.progress.compiling_eq, hdrafts.agreeOn_input,
        (unfinished.leavesBelow_of_append hd).agreeOn⟩

end Offers

end Dictionary

namespace Machine

open Dictionary

variable {H : Type} {hooks : Hooks H} {call : Interpreter H} {n : Nat} {m m' m1 : Machine H}
  {text : List UInt8} {l : Library} {o o1 : Outline} {phrase : Phrase} {fs : List Definition}
  {limit : Nat} {R S : Machine H → Machine H → Prop}
  {r r' : EStateM.Result Stop (Machine H) Unit} {stop stop' : Stop}

/-! ## Results -/

/-- Two programs stopped for the same reason. A name that was not found may lie at different places. -/
inductive SameStop (m m' : Machine H) : Stop → Stop → Prop
  | same (stop : Stop) : SameStop m m' stop stop
  | wordNotFound {name name' : Span} (h : m'.dictionary.text name' = m.dictionary.text name) :
      SameStop m m' (.error (.wordNotFound name)) (.error (.wordNotFound name'))

theorem SameStop.symm (h : SameStop m m' stop stop') : SameStop m' m stop' stop := by
  cases h with
  | same stop => exact .same stop
  | wordNotFound h => exact .wordNotFound h.symm

/-- Two results are alike: both are successes in machines that are related by `R`, or both are failures in
twins and for the same reason. -/
inductive SameEnd (R : Machine H → Machine H → Prop) :
    EStateM.Result Stop (Machine H) Unit → EStateM.Result Stop (Machine H) Unit → Prop
  | ok {m m' : Machine H} (h : R m m') : SameEnd R (.ok () m) (.ok () m')
  | error {stop stop' : Stop} {m m' : Machine H} (h : m.Twins m') (hstop : SameStop m m' stop stop') :
      SameEnd R (.error stop m) (.error stop' m')

namespace SameEnd

theorem symm (h : SameEnd R r r') (hR : ∀ m m', R m m' → S m' m) : SameEnd S r' r := by
  cases h with
  | ok h => exact .ok (hR _ _ h)
  | error h hstop => exact .error h.symm hstop.symm

/-- What follows from the success of each of two runs. -/
theorem imp (h : SameEnd R r r')
    (hR : ∀ m1 m1', r = .ok () m1 → r' = .ok () m1' → R m1 m1' → S m1 m1') : SameEnd S r r' := by
  cases h with
  | ok h => exact .ok (hR _ _ rfl rfl h)
  | error h hstop => exact .error h hstop

theorem of_coupled (h : Coupled R Twins r r') : SameEnd R r r' := by
  cases h with
  | ok h => exact .ok h
  | error h => exact .error h (.same _)

end SameEnd

/-- If one of two programs ends, the other one ends as well, with a result that is alike. -/
structure EndAlike (R : Machine H → Machine H → Prop) (x : Nat → Nat → MachineM H Unit) (m : Machine H)
    (x' : Nat → Nat → MachineM H Unit) (m' : Machine H) : Prop where
  forth : ∀ r, EndsIn x m r → ∃ r', EndsIn x' m' r' ∧ SameEnd R r r'
  back : ∀ r', EndsIn x' m' r' → ∃ r, EndsIn x m r ∧ SameEnd R r r'

section Sequence

variable {x x' y y' : Nat → Nat → MachineM H Unit}

theorem EndAlike.exists_ok {m1' : Machine H} (h : EndAlike R x m x' m') (hend : EndsIn x' m' (.ok () m1')) :
    ∃ m1, EndsIn x m (.ok () m1) ∧ R m1 m1' := by
  obtain ⟨_, hend', halike⟩ := h.back _ hend
  cases halike with
  | ok hboth => exact ⟨_, hend', hboth⟩

theorem EndAlike.exists_error {m1' : Machine H} (h : EndAlike R x m x' m')
    (hend : EndsIn x' m' (.error stop' m1')) :
    ∃ stop m1, EndsIn x m (.error stop m1) ∧ m1.Twins m1' ∧ SameStop m1 m1' stop stop' := by
  obtain ⟨_, hend', halike⟩ := h.back _ hend
  cases halike with
  | error htwins hstop => exact ⟨_, _, hend', htwins, hstop⟩

/-- Programs whose first parts have results that are alike, and whose second parts do where the first parts
succeed. -/
theorem EndsIn.exists_bind_of_sameEnd (hx : Growing x) (hx' : Growing x') (hy : Growing y)
    (hy' : Growing y') (hfirst : ∀ r, EndsIn x m r → ∃ r', EndsIn x' m' r' ∧ SameEnd R r r')
    (hsecond : ∀ m1 m1' r, R m1 m1' → EndsIn y m1 r → ∃ r', EndsIn y' m1' r' ∧ SameEnd S r r')
    (h : EndsIn (fun N n => x N n >>= fun _ => y N n) m r) :
    ∃ r', EndsIn (fun N n => x' N n >>= fun _ => y' N n) m' r' ∧ SameEnd S r r' := by
  rcases (bind_iff hx hy).1 h with ⟨m1, hm1, hr⟩ | ⟨stop, m1, hm1, rfl⟩
  · obtain ⟨_, hm1', halike⟩ := hfirst _ hm1
    cases halike with
    | @ok _ m1' hboth =>
        obtain ⟨r', hr', hend⟩ := hsecond m1 m1' r hboth hr
        exact ⟨r', (bind_iff hx' hy').2 (.inl ⟨m1', hm1', hr'⟩), hend⟩
  · obtain ⟨_, hm1', halike⟩ := hfirst _ hm1
    cases halike with
    | @error _ stop' _ m1' hboth hstop =>
        exact ⟨_, (bind_iff hx' hy').2 (.inr ⟨stop', m1', hm1', rfl⟩), .error hboth hstop⟩

/-- Programs end alike if their first parts do and then their second parts. -/
theorem EndAlike.bind (hx : Growing x) (hx' : Growing x') (hy : Growing y) (hy' : Growing y')
    (hfirst : EndAlike R x m x' m') (hsecond : ∀ m1 m1', R m1 m1' → EndAlike S y m1 y' m1') :
    EndAlike S (fun N n => x N n >>= fun _ => y N n) m (fun N n => x' N n >>= fun _ => y' N n) m' where
  forth r h := h.exists_bind_of_sameEnd hx hx' hy hy' hfirst.forth
    fun m1 m1' r hboth => (hsecond m1 m1' hboth).forth r
  back r' h := by
    -- from the second program to the first one all relations are turned round
    obtain ⟨r, hr, halike⟩ := h.exists_bind_of_sameEnd (R := fun m1' m1 => R m1 m1')
      (S := fun m1' m1 => S m1 m1') hx' hx hy' hy (fun r' hr' => by
        obtain ⟨r, hr, halike⟩ := hfirst.back r' hr'
        exact ⟨r, hr, halike.symm fun _ _ h => h⟩) fun m1' m1 r' hboth hr' => by
        obtain ⟨r, hr, halike⟩ := (hsecond m1 m1' hboth).back r' hr'
        exact ⟨r, hr, halike.symm fun _ _ h => h⟩
    exact ⟨r, hr, halike.symm fun _ _ h => h⟩

end Sequence

/-! ## The next word -/

/-- The next word of the source is read and interpreted. -/
def NextEndsIn (hooks : Hooks H) (m : Machine H) (r : EStateM.Result Stop (Machine H) Unit) : Prop :=
  EndsIn (spelled hooks m.dictionary.nextWord.1) m.afterWord r

/-- The next word has nothing to do with the source, but that it takes the words `ns` after it, and looks
for more than these only at the end of the source. Whatever else is in the source, the word does the
same, and it leaves the source as it was. -/
structure SourceFree (hooks : Hooks H) (m : Machine H) (ns : List (List UInt8)) (last : Bool) : Prop where
  names : ∀ n ∈ ns, n ∉ Text.commentWords
  reading : ∃ ws, m.dictionary.Reading (m.dictionary.nextText :: (ns ++ ws)) ∧ (last = true → ws = [])
  alike : ∀ m1 m2 ws1 ws2 r, m.Twins m1 → m.Twins m2 →
    m1.dictionary.Reading (m.dictionary.nextText :: (ns ++ ws1)) →
    m2.dictionary.Reading (m.dictionary.nextText :: (ns ++ ws2)) →
    (last = true → ws1 = [] ∧ ws2 = []) → NextEndsIn hooks m1 r →
      ∃ r', NextEndsIn hooks m2 r' ∧ SameEnd Twins r r'
  kept : ∀ m1 ws1 m2, m.Twins m1 → m1.dictionary.Reading (m.dictionary.nextText :: (ns ++ ws1)) →
    (last = true → ws1 = []) → NextEndsIn hooks m1 (.ok () m2) →
      (m1.dictionary.afterWords (ns.length + 1)).AgreeOn m2.dictionary 10 96

theorem NextEndsIn.eq (hs : hooks.Steady) (h : NextEndsIn hooks m r) (h' : NextEndsIn hooks m r') :
    r = r' := EndsIn.eq (growing_spelled hs _) h h'

/-- A word that does the same in all twins, and leaves what is behind it and its names. -/
theorem sourceFree_of_coupled {ns ws : List (List UInt8)} (hs : hooks.Steady)
    (hcap : 16 ≤ m.dictionary.capacity) (hreading : m.dictionary.Reading (text :: (ns ++ ws)))
    (hnames : ∀ n ∈ ns, n ∉ Text.commentWords)
    (hboth : ∀ m1 m2 ws1 ws2, m.Twins m1 → m.Twins m2 →
      m1.dictionary.Reading (text :: (ns ++ ws1)) → m2.dictionary.Reading (text :: (ns ++ ws2)) →
      ∀ N n, Coupled (fun m1' m2' => m1'.Twins m2' ∧
          (m1.dictionary.afterWords (ns.length + 1)).AgreeOn m1'.dictionary 10 96) Twins
        (spelled hooks m1.dictionary.nextWord.1 N (n + 1) m1.afterWord)
        (spelled hooks m2.dictionary.nextWord.1 N (n + 1) m2.afterWord)) :
    m.SourceFree hooks ns false := by
  have hnext : m.dictionary.nextText = text := (hreading.cons hcap).2.1
  refine ⟨hnames, ⟨ws, by rw [hnext]; exact hreading, by simp⟩, ?_, ?_⟩
  · intro m1 m2 ws1 ws2 r hm1 hm2 hreading1 hreading2 _ hend
    rw [hnext] at hreading1 hreading2
    obtain ⟨r', hr', hcoupled⟩ := hend.exists_of_coupled (growing_spelled hs _)
      (hboth m1 m2 ws1 ws2 hm1 hm2 hreading1 hreading2)
    exact ⟨r', hr', .of_coupled (hcoupled.imp fun _ _ h => h.1)⟩
  · intro m1 ws1 m2 hm1 hreading1 _ hend
    rw [hnext] at hreading1
    obtain ⟨r', -, hcoupled⟩ := hend.exists_of_coupled (growing_spelled hs _)
      (hboth m1 m1 ws1 ws1 hm1 hm1 hreading1 hreading1)
    cases hcoupled with
    | ok h => exact h.2

/-! ## Numbers and words that are compiled -/

/-- What becomes of a word without looking at the source. -/
inductive Effect where
  | push (v : Cell)
  | compile (vs : List Cell)

namespace Effect

def run : Effect → MachineM H Unit
  | push v => Machine.push v
  | compile vs => onDictionary (vs.forM append)

/-- The effect of a number, or of a word that is added to a definition. -/
def of? (fs : List Definition) (compiling : Bool) (text : List UInt8) : Option Effect :=
  match fs.find? fun f => Text.same text f.name with
  | some f => if compiling && !f.immediate then some (.compile [f.body.toInt16]) else none
  | none =>
    match Primitive.ofName? text with
    | some p => if compiling && !p.isImmediate then some (.compile [p.token.toInt16]) else none
    | none =>
      (Numeral.read? 10 text).map fun v => if compiling then .compile (literalCells v) else .push v

/-- The effect is the same in twins. -/
theorem coupled_run (e : Effect) (h : m.Twins m') : Coupled Twins Twins (e.run m) (e.run m') := by
  cases e with
  | push v => exact h.coupled_onData _
  | compile vs => exact h.coupled_onDictionary (Parallel.forM_append vs _ _ h.dictionary)

end Effect

theorem interpretWord_eq_run {e : Effect} {name : Span} (h : m.dictionary.Offers fs limit)
    (he : Effect.of? fs m.dictionary.compiling (m.dictionary.text name) = some e) :
    interpretWord hooks call n name m = e.run m := by
  have hmeaning := h.meaning_eq name
  have hbase := h.linked.base_eq
  unfold Effect.of? at he
  cases hfind : fs.find? fun f => Text.same (m.dictionary.text name) f.name with
  | some f =>
      simp only [hfind, Option.ite_none_right_eq_some, Bool.and_eq_true, Bool.not_eq_true'] at he
      obtain ⟨⟨hcompiling, himmediate⟩, he⟩ := he
      cases he
      rw [hfind] at hmeaning
      exact interpretWord_of_compiling (himmediate ▸ hmeaning) hcompiling
  | none =>
  rw [hfind] at hmeaning
  cases hprimitive : Primitive.ofName? (m.dictionary.text name) with
  | some p =>
      simp only [hfind, hprimitive, Option.ite_none_right_eq_some, Bool.and_eq_true, Bool.not_eq_true']
        at he
      obtain ⟨⟨hcompiling, himmediate⟩, he⟩ := he
      cases he
      simp only [hprimitive, himmediate] at hmeaning
      exact interpretWord_of_compiling hmeaning hcompiling
  | none =>
      simp only [hfind, hprimitive, Option.map_eq_some_iff] at he
      obtain ⟨v, hread, he⟩ := he
      simp only [hprimitive] at hmeaning
      rw [interpretWord_eq_interpretLiteral hmeaning (hbase ▸ hread)]
      cases hcompiling : m.dictionary.compiling with
      | true =>
          rw [hcompiling] at he
          cases he
          exact interpretLiteral_of_compiling hcompiling v
      | false =>
          rw [hcompiling] at he
          cases he
          exact interpretLiteral_of_not_compiling hcompiling v

theorem Effect.compiling_of_of?_eq_compile {compiling : Bool} {vs : List Cell}
    (h : Effect.of? fs compiling text = some (.compile vs)) : compiling = true := by
  cases compiling with
  | true => rfl
  | false =>
      unfold Effect.of? at h
      grind [Option.map_eq_some_iff]

/-- What a word with an effect leaves: the source and the definitions as they were, and at most one number
more. -/
structure Effected (m m1 : Machine H) (fs : List Definition) (limit : Nat) : Prop where
  offers : m1.dictionary.Offers fs limit
  compiling_eq : m1.dictionary.compiling = m.dictionary.compiling
  agreeOn_source : m.dictionary.AgreeOn m1.dictionary 10 96
  agreeOn_code : m.dictionary.AgreeOn m1.dictionary 96 limit
  returns_eq : m1.returns = m.returns
  ip_eq : m1.ip = m.ip
  data_capacity : m1.data.capacity = m.data.capacity
  data_depth : m1.data.depth ≤ m.data.depth + 1

theorem effected_of_run_eq_ok {e : Effect} (h : m.dictionary.Offers fs limit)
    (he : Effect.of? fs m.dictionary.compiling text = some e) (hrun : e.run m = .ok () m1) :
    Effected m m1 fs limit := by
  cases e with
  | push v =>
      obtain ⟨data, hpush, rfl⟩ := of_push_eq_ok hrun
      have hroom : m.data.depth < m.data.capacity := by
        refine Nat.lt_of_le_of_ne m.data.depth_le fun hfull => ?_
        rw [Stack.push?_eq_none_iff.2 hfull] at hpush
        cases hpush
      obtain ⟨t, hpush', hdepth, hcapacity⟩ := m.data.exists_push? v hroom
      cases hpush.symm.trans hpush'
      exact ⟨h, rfl, .refl _ _ _, .refl _ _ _, rfl, rfl, hcapacity, Nat.le_of_eq hdepth⟩
  | compile vs =>
      obtain ⟨d, hd, rfl⟩ := exists_of_onDictionary_eq_ok hrun
      have hcompiling := Effect.compiling_of_of?_eq_compile he
      obtain ⟨hoffers, hcompiling', hsource, hcode⟩ := h.append hcompiling hd
      exact ⟨hoffers, hcompiling'.trans hcompiling.symm, hsource, hcode, rfl, rfl, rfl, Nat.le_succ _⟩

section NextWord

variable {ws : List (List UInt8)} {e : Effect} (h : m.dictionary.Offers fs limit)
  (he : Effect.of? fs m.dictionary.compiling text = some e)
  (hreading : m.dictionary.Reading (text :: ws)) (hcap : 16 ≤ m.dictionary.capacity)
include h he hreading hcap

/-- The next word has its effect. -/
theorem spelled_nextWord_eq_run (N n : Nat) :
    spelled hooks m.dictionary.nextWord.1 N n m.afterWord = e.run m.afterWord := by
  have hinput := m.dictionary.inputOnly_nextWord
  refine interpretWord_eq_run (h.of_inputOnly hinput) ?_
  rw [text_afterWord hreading hcap]
  exact (congrArg (Effect.of? fs · text) hinput.compiling_eq).trans he

theorem nextEndsIn_eq_ok_iff : NextEndsIn hooks m (.ok () m1) ↔ e.run m.afterWord = .ok () m1 := by
  constructor
  · rintro ⟨-, N, n, hend⟩
    rw [← hend, spelled_nextWord_eq_run h he hreading hcap]
  · intro hrun
    exact ⟨by simp, 0, 0, (spelled_nextWord_eq_run h he hreading hcap 0 0).trans hrun⟩

theorem effected_of_nextEndsIn (hend : NextEndsIn hooks m (.ok () m1)) :
    Effected m.afterWord m1 fs limit := by
  have hinput := m.dictionary.inputOnly_nextWord
  have he' : Effect.of? fs m.afterWord.dictionary.compiling text = some e :=
    (congrArg (Effect.of? fs · text) hinput.compiling_eq).trans he
  exact effected_of_run_eq_ok (h.of_inputOnly hinput) he'
    ((nextEndsIn_eq_ok_iff h he hreading hcap).1 hend)

/-- A word with an effect has nothing to do with the source. -/
theorem sourceFree_of_effect? (hs : hooks.Steady) : m.SourceFree hooks [] false := by
  -- the effect is that of every twin with this word
  have htwin : ∀ {m1 : Machine H}, m.Twins m1 → m1.dictionary.Offers fs limit ∧
      Effect.of? fs m1.dictionary.compiling text = some e ∧ 16 ≤ m1.dictionary.capacity :=
    fun {m1} hm1 => ⟨h.of_inputOnly hm1.dictionary,
      (congrArg (Effect.of? fs · text) hm1.dictionary.compiling_eq).trans he,
      by rw [hm1.dictionary.capacity_eq]; exact hcap⟩
  refine sourceFree_of_coupled hs hcap hreading (by simp)
    fun m1 m2 ws1 ws2 hm1 hm2 hreading1 hreading2 N n => ?_
  obtain ⟨h1, he1, hcap1⟩ := htwin hm1
  obtain ⟨h2, he2, hcap2⟩ := htwin hm2
  have hrun : spelled hooks m1.dictionary.nextWord.1 N (n + 1) m1.afterWord = e.run m1.afterWord :=
    spelled_nextWord_eq_run h1 he1 hreading1 hcap1 N (n + 1)
  rw [hrun, spelled_nextWord_eq_run h2 he2 hreading2 hcap2]
  refine ((e.coupled_run (hm1.symm.trans hm2).afterWord).and (fun _ m1' hm1' => ?_)
    fun _ _ _ => trivial).imp fun _ _ hboth => ⟨hboth.1, hboth.2.1⟩
  have hend : NextEndsIn hooks m1 (.ok () m1') :=
    (nextEndsIn_eq_ok_iff h1 he1 hreading1 hcap1).2 hm1'
  exact (effected_of_nextEndsIn h1 he1 hreading1 hcap1 hend).agreeOn_source

end NextWord

/-! ## Unknown words -/

section Unknown

variable {ws : List (List UInt8)} (h : m.dictionary.Offers fs limit)
  (hfind : (fs.find? fun f => Text.same text f.name) = none) (hprimitive : Primitive.ofName? text = none)
  (hread : Numeral.read? 10 text = none) (hhost : hooks.unknownWord? = none)
include h hfind hprimitive hread hhost

theorem interpretWord_of_unknown {name : Span} (htext : m.dictionary.text name = text) :
    interpretWord hooks call n name m = .error (.error (.wordNotFound name)) m := by
  have hmeaning := h.meaning_eq name
  rw [htext, hfind] at hmeaning
  simp only [hprimitive] at hmeaning
  unfold interpretWord
  rw [bind_eq_of_ok (getDictionary_apply _ m), hmeaning]
  dsimp only
  rw [bind_eq_of_ok (getDictionary_apply _ m), h.linked.base_eq, htext, hread, hhost]
  rfl

/-- A word that nobody knows is an error with its name, wherever that lies. -/
theorem sourceFree_of_unknown (hreading : m.dictionary.Reading (text :: ws))
    (hcap : 16 ≤ m.dictionary.capacity) : m.SourceFree hooks [] false := by
  have hnext : m.dictionary.nextText = text := (hreading.cons hcap).2.1
  have hends : ∀ {m1 : Machine H} {ws1 : List (List UInt8)}, m.Twins m1 →
      m1.dictionary.Reading (text :: ws1) →
      m1.afterWord.dictionary.text m1.dictionary.nextWord.1 = text ∧
        ∀ N n, spelled hooks m1.dictionary.nextWord.1 N n m1.afterWord =
          .error (.error (.wordNotFound m1.dictionary.nextWord.1)) m1.afterWord := by
    intro m1 ws1 hm1 hreading1
    have htext := text_afterWord hreading1 (by rw [hm1.dictionary.capacity_eq]; exact hcap)
    exact ⟨htext, fun N n => interpretWord_of_unknown
      (h.of_inputOnly (hm1.trans (.self_afterWord m1)).dictionary) hfind hprimitive hread hhost htext⟩
  refine ⟨by simp, ⟨ws, by rw [hnext]; exact hreading, by simp⟩, ?_, ?_⟩
  · rintro m1 m2 ws1 ws2 r hm1 hm2 hreading1 hreading2 - ⟨-, N, n, hend⟩
    rw [hnext] at hreading1 hreading2
    obtain ⟨htext1, hends1⟩ := hends hm1 hreading1
    obtain ⟨htext2, hends2⟩ := hends hm2 hreading2
    rw [hends1] at hend
    rw [← hend]
    exact ⟨_, ⟨by simp, 0, 0, hends2 0 0⟩,
      .error (hm1.symm.trans hm2).afterWord (.wordNotFound (htext2.trans htext1.symm))⟩
  · rintro m1 ws1 m2 hm1 hreading1 - ⟨-, N, n, hend⟩
    rw [hnext] at hreading1
    rw [(hends hm1 hreading1).2] at hend
    cases hend

end Unknown

/-! ## Phrases -/

/-- The definitions of an outline are seen with those of the library. -/
theorem Outlines.exists_offers (h : m.Outlines l o) : ∃ fs limit,
    m.dictionary.Offers (fs ++ l.definitions) limit ∧ o.names = l.names fs ∧ m.ip = 0 := by
  cases h with
  | resting stocked resting ip_eq => exact ⟨_, _, .resting stocked.toLinked resting, rfl, ip_eq⟩
  | building building top ip_eq =>
      obtain ⟨code, hunfinished, -⟩ := building.unfinished
      exact ⟨_, _, .compiling hunfinished, rfl, ip_eq⟩

/-- A phrase takes no other words than the name after `:`, and has nothing else to do with the source. -/
theorem sourceFree_of_after? (hs : hooks.Steady) {ws : List (List UInt8)} (ho : m.Outlines l o)
    (hafter : o.after? phrase = some o1) (hallowed : phrase.Allowed l)
    (hnames : ∀ n ∈ phrase.names, n ∉ Text.commentWords)
    (hreading : m.dictionary.Reading (phrase.texts ++ ws)) :
    m.SourceFree hooks phrase.names false := by
  have hcap : 16 ≤ m.dictionary.capacity := Nat.le_trans (by decide) ho.le_capacity
  have hboth : ∀ m1 m2 ws1 ws2, m.Twins m1 → m.Twins m2 →
      m1.dictionary.Reading (phrase.texts ++ ws1) → m2.dictionary.Reading (phrase.texts ++ ws2) →
      ∀ N n, Coupled (fun m1' m2' => m1'.Twins m2' ∧
          (m1.dictionary.afterWords phrase.texts.length).AgreeOn m1'.dictionary 10 96) Twins
        (spelled hooks m1.dictionary.nextWord.1 N (n + 1) m1.afterWord)
        (spelled hooks m2.dictionary.nextWord.1 N (n + 1) m2.afterWord) :=
    fun m1 m2 ws1 ws2 hm1 hm2 h1 h2 N n =>
      ((hm1.symm.trans hm2).coupled_spelled hooks (ho.of_twins hm1) hafter hallowed h1 h2 N n).imp
        fun _ _ h => ⟨h.twins, h.agreeOn⟩
  cases phrase with
  | word text => exact sourceFree_of_coupled hs hcap hreading hnames hboth
  | colon name => exact sourceFree_of_coupled hs hcap hreading hnames hboth

/-- A word that is neither a name nor a primitive nor a number. -/
theorem sourceFree_of_lacks {ws : List (List UInt8)} (ho : m.Outlines l o) (hlacks : o.lacks text = true)
    (hhost : hooks.unknownWord? = none) (hreading : m.dictionary.Reading (text :: ws)) :
    m.SourceFree hooks [] false ∧ ∀ m1, ¬ NextEndsIn hooks m (.ok () m1) := by
  obtain ⟨fs, limit, hoffers, hnames, -⟩ := ho.exists_offers
  have hcap : 16 ≤ m.dictionary.capacity := Nat.le_trans (by decide) ho.le_capacity
  obtain ⟨names, begun⟩ := o
  dsimp only at hnames
  subst hnames
  simp only [Outline.lacks, knows_eq_isSome_find?, Bool.and_eq_true, Bool.not_eq_true',
    Option.isSome_eq_false_iff, Option.isNone_iff_eq_none] at hlacks
  obtain ⟨⟨hfind, hprimitive⟩, hread⟩ := hlacks
  refine ⟨sourceFree_of_unknown hoffers hfind hprimitive hread hhost hreading hcap, ?_⟩
  rintro m1 ⟨-, N, n, hend⟩
  have hreads := m.dictionary.inputOnly_nextWord
  rw [spelled, interpretWord_of_unknown (hoffers.of_inputOnly hreads) hfind hprimitive hread hhost
    (text_afterWord hreading hcap)] at hend
  cases hend

end Machine

end ThreadedForth
