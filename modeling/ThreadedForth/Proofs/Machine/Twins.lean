import ThreadedForth.Proofs.Machine.Beginning
import ThreadedForth.Proofs.Machine.Stocked
import ThreadedForth.Proofs.Machine.Straight

/-!
# Machines that differ in the source

Two machines are twins if they are the same but for the source and the input buffer. An outline tells
what was defined in a machine: the names of the definitions, and the one that is begun. From the
outline it follows which texts are words of stacks, numbers and definitions (`Outline.word?`), and what
becomes of the outline. The first definitions may be those of a library. Not all of these keep to
themselves, and a text has to be the name of one that does if it is the name of any (`Library.Allows`).
Such a word does the same in both twins, wherever it was read (`Twins.coupled_interpretWord`), and so
does the beginning of a definition with its name (`Twins.coupled_interpretColon`).
-/

set_option autoImplicit false

namespace ThreadedForth

/-! ## Outlines -/

/-- The names that were defined, newest first, and the name that is begun with the number of cells
that its code has put on the return stack. -/
structure Outline where
  names : List (List UInt8)
  begun : Option (List UInt8 × Nat)
deriving DecidableEq

namespace Outline

/-- Whether a text is one of the names, letters of either case being equal. -/
def knows (o : Outline) (text : List UInt8) : Bool := o.names.any fun name => Text.same text name

/-- The outline after a primitive of the stacks, or after the end of the definition. A definition takes
back from the return stack only what it has put there, and all of it before it ends. -/
def primitive? (o : Outline) : Primitive → Option Outline
  | .operator _ | .returnDepth => some o
  | .toReturn => some { o with begun := o.begun.map fun p => (p.1, p.2 + 1) }
  | .fromReturn =>
    match o.begun with
    | none => some o
    | some (name, k + 1) => some { o with begun := some (name, k) }
    | some (_, 0) => none
  | .semicolon =>
    match o.begun with
    | some (name, 0) => some ⟨name :: o.names, none⟩
    | _ => none
  | _ => none

/-- The outline after a word, if it is a name, a primitive of the stacks, a number or the end of a
definition. -/
def word? (o : Outline) (text : List UInt8) : Option Outline :=
  if o.knows text then some o
  else
    match Primitive.ofName? text with
    | some p => o.primitive? p
    | none => if (Numeral.read? 10 text).isSome then some o else none

/-- The outline after a definition was begun, if none was and `:` has its meaning. -/
def colon? (o : Outline) (name : List UInt8) : Option Outline :=
  if o.begun.isNone && !o.knows (Text.encode Primitive.colon.name) then
    some { o with begun := some (name, 0) }
  else none

end Outline

namespace Machine

open Dictionary

variable {H α : Type} {hooks : Hooks H} {call : Interpreter H} {n : Nat} {m m' m1 m1' : Machine H}
  {l : Library} {o o1 : Outline} {fs : List Definition} {f : Definition} {limit j k : Nat} {vs : List Cell}
  {name name' : Span} {text : List UInt8}

/-! ## Twins -/

/-- Two machines that differ in the source only. -/
structure Twins (m m' : Machine H) : Prop extends m.InputOnly m' where
  host_eq : m'.host = m.host

namespace Twins

theorem refl (m : Machine H) : m.Twins m := ⟨.refl m, rfl⟩

theorem symm (h : m.Twins m') : m'.Twins m :=
  ⟨⟨h.dictionary.symm, h.data_eq.symm, h.returns_eq.symm, h.ip_eq.symm⟩, h.host_eq.symm⟩

theorem trans {m'' : Machine H} (h : m.Twins m') (h' : m'.Twins m'') : m.Twins m'' :=
  ⟨h.toInputOnly.trans h'.toInputOnly, h'.host_eq.trans h.host_eq⟩

/-- With other dictionaries and another data stack. -/
theorem withBoth {d d' : Dictionary} (h : m.Twins m') (hd : d.InputOnly d') (data : Stack) :
    Twins { m with dictionary := d, data } { m' with dictionary := d', data } :=
  ⟨⟨hd, rfl, h.returns_eq, h.ip_eq⟩, h.host_eq⟩

theorem withDictionaries {d d' : Dictionary} (h : m.Twins m') (hd : d.InputOnly d') :
    Twins { m with dictionary := d } { m' with dictionary := d' } :=
  ⟨⟨hd, h.data_eq, h.returns_eq, h.ip_eq⟩, h.host_eq⟩

/-- While no code runs, twins are made of the same parts. -/
theorem eq_mk (h : m.Twins m') (hip : m.ip = 0) :
    m = ⟨m.dictionary, m.data, m.returns, 0, m.host⟩ ∧
      m' = ⟨m'.dictionary, m.data, m.returns, 0, m.host⟩ := by
  constructor
  · rw [← hip]
  · rw [← hip, ← h.data_eq, ← h.returns_eq, ← h.ip_eq, ← h.host_eq]

/-- The next word is read in both. -/
theorem afterWord (h : m.Twins m') : m.afterWord.Twins m'.afterWord :=
  h.withDictionaries ((m.dictionary.inputOnly_nextWord.symm.trans h.dictionary).trans
    m'.dictionary.inputOnly_nextWord)

/-- To read a word does not go beyond the source. -/
theorem self_afterWord (m : Machine H) : m.Twins m.afterWord :=
  ⟨⟨m.dictionary.inputOnly_nextWord, rfl, rfl, rfl⟩, rfl⟩

end Twins

theorem Twins.coupled_onDictionary {x y : DictionaryM α} (h : m.Twins m')
    (hd : Coupled Dictionary.InputOnly Dictionary.InputOnly (x m.dictionary) (y m'.dictionary)) :
    Coupled Twins Twins (onDictionary x m) (onDictionary y m') := by
  simp only [onDictionary]
  generalize x m.dictionary = r at hd ⊢
  generalize y m'.dictionary = r' at hd ⊢
  cases hd with
  | ok hd => exact .ok (h.withDictionaries hd)
  | error hd => exact .error (h.withDictionaries hd)

theorem Twins.coupled_onData (h : m.Twins m') (x : StackM α) :
    Coupled Twins Twins (onData x m) (onData x m') := by
  simp only [onData, h.data_eq]
  cases x m.data with
  | ok a data => exact .ok (h.withBoth h.dictionary data)
  | error e data => exact .error (h.withBoth h.dictionary data)

/-! ## Machines with an outline -/

/-- The outline tells what is defined in the machine after the definitions of a library. The address of a
begun definition is on top of the data stack. -/
inductive Outlines (m : Machine H) (l : Library) : Outline → Prop
  | resting {fs : List Definition} {limit : Nat} (stocked : m.dictionary.Stocked l fs limit)
      (resting : m.dictionary.Resting (fs ++ l.definitions)) (ip_eq : m.ip = 0) :
      Outlines m l ⟨l.names fs, none⟩
  | building {fs : List Definition} {limit k : Nat} {f : Definition} {data : Stack}
      (building : m.dictionary.Building l fs limit f k)
      (top : m.data.pop? = some (f.addr.toInt16, data)) (ip_eq : m.ip = 0) :
      Outlines m l ⟨l.names fs, some (f.name, k)⟩

theorem Outlines.of_twins (h : m.Outlines l o) (hm : m.Twins m') : m'.Outlines l o := by
  have hip := hm.ip_eq
  cases h with
  | resting stocked resting ip_eq =>
      exact .resting (stocked.of_inputOnly hm.dictionary) (resting.of_inputOnly hm.dictionary)
        (hip.trans ip_eq)
  | building building top ip_eq =>
      exact .building (building.of_inputOnly hm.dictionary) (by rw [hm.data_eq, top])
        (hip.trans ip_eq)

theorem Outlines.le_capacity (h : m.Outlines l o) : 96 ≤ m.dictionary.capacity := by
  cases h with
  | resting stocked _ _ => exact stocked.le_capacity
  | building building _ _ => exact building.stocked.le_capacity

/-- Nothing was defined after the library. -/
theorem outlines_library (hstocked : m.dictionary.Stocked l [] limit)
    (hresting : m.dictionary.Resting l.definitions) (hip : m.ip = 0) :
    m.Outlines l ⟨l.names [], none⟩ := .resting hstocked hresting hip

/-- Whether a text is known is whether a definition is found. -/
theorem knows_eq_isSome_find? (l : Library) (fs : List Definition) (begun : Option (List UInt8 × Nat))
    (text : List UInt8) : Outline.knows ⟨l.names fs, begun⟩ text =
      ((fs ++ l.definitions).find? fun f => Text.same text f.name).isSome := by
  rw [Outline.knows, Library.names, List.any_map, List.isSome_find?]
  rfl

/-- Two machines after a word: they are twins again with an outline, and the sources and the library are as
in the dictionaries `d` and `d'`. -/
structure Onward (d d' : Dictionary) (l : Library) (o : Outline) (m1 m1' : Machine H) : Prop where
  twins : m1.Twins m1'
  outlines : m1.Outlines l o
  agreeOn : d.AgreeOn m1.dictionary 10 96
  agreeOn' : d'.AgreeOn m1'.dictionary 10 96
  library : d.AgreeOn m1.dictionary 96 l.limit.toNat

theorem coupled_onward {d d' : Dictionary} {r r' : EStateM.Result Stop (Machine H) Unit}
    (h : Coupled Twins Twins r r')
    (hok : ∀ m1, r = .ok () m1 → m1.Outlines l o ∧ d.AgreeOn m1.dictionary 10 96 ∧
      d.AgreeOn m1.dictionary 96 l.limit.toNat)
    (hok' : ∀ m1, r' = .ok () m1 → d'.AgreeOn m1.dictionary 10 96) :
    Coupled (Onward d d' l o) Twins r r' := by
  cases h with
  | ok h =>
      obtain ⟨houtlines, hagree, hlibrary⟩ := hok _ rfl
      exact .ok ⟨h, houtlines, hagree, hok' _ rfl, hlibrary⟩
  | error h => exact .error h

/-- A primitive that is performed alike in both is executed alike. -/
theorem Twins.coupled_execute {p : Primitive} {x : MachineM H Unit} {R : Machine H → Machine H → Prop}
    (hperform : perform hooks call n p = (do x; return .advance))
    (hexits : ∀ m1, x m ≠ .error .exit m1) (h : Coupled R Twins (x m) (x m'))
    (hip : ∀ m1 m1', R m1 m1' → m1.ip = 0 ∧ m1'.ip = 0) :
    Coupled R Twins (execute hooks call n p.token m) (execute hooks call n p.token m') := by
  generalize hx : x m = r at h
  generalize hx' : x m' = r' at h
  cases h with
  | @ok _ m1 m1' hm =>
      obtain ⟨hip1, hip1'⟩ := hip m1 m1' hm
      rw [execute_token_of_ok hperform hx hip1, execute_token_of_ok hperform hx' hip1']
      exact .ok hm
  | @error stop m1 m1' hm =>
      have hstop : stop ≠ .exit := fun heq => hexits m1 (heq ▸ hx)
      rw [execute_token_of_error hperform hx hstop, execute_token_of_error hperform hx' hstop]
      exact .error ⟨⟨hm.dictionary, hm.data_eq, hm.returns_eq, rfl⟩, hm.host_eq⟩

theorem Twins.coupled_execute_token {d d' : Dictionary} {p : Primitive} {x : MachineM H Unit}
    (hperform : perform hooks call n p = (do x; return .advance))
    (hexits : ∀ m1, x m ≠ .error .exit m1) (h : Coupled Twins Twins (x m) (x m'))
    (hok : ∀ m1, x m = .ok () m1 → m1.Outlines l o ∧ d.AgreeOn m1.dictionary 10 96 ∧
      d.AgreeOn m1.dictionary 96 l.limit.toNat ∧ m1.ip = 0)
    (hok' : ∀ m1, x m' = .ok () m1 → d'.AgreeOn m1.dictionary 10 96) :
    Coupled (Onward d d' l o) Twins (execute hooks call n p.token m)
      (execute hooks call n p.token m') := by
  have hboth := h.and (fun _ m1 hm1 => hok m1 hm1) fun _ m1 hm1 => hok' m1 hm1
  refine (coupled_execute hperform hexits hboth fun m1 m1' h1 => ?_).imp fun m1 m1' h1 => ?_
  · obtain ⟨htwins, ⟨-, -, -, hip⟩, -⟩ := h1
    exact ⟨hip, htwins.ip_eq.trans hip⟩
  · obtain ⟨htwins, ⟨houtlines, hagree, hlibrary, -⟩, hagree'⟩ := h1
    exact ⟨htwins, houtlines, hagree, hagree', hlibrary⟩

/-- In twins a text has the same meaning. -/
theorem Twins.meaning_eq (h : m.Twins m') (hstocked : m.dictionary.Stocked l fs limit)
    (hshows : m.dictionary.Shows (fs ++ l.definitions))
    (hshows' : m'.dictionary.Shows (fs ++ l.definitions)) (hallows : l.Allows text)
    (htext : m.dictionary.text name = text) (htext' : m'.dictionary.text name' = text) :
    m'.dictionary.meaning name' = m.dictionary.meaning name := by
  rw [hstocked.meaning_eq hshows (by rw [htext]; exact hallows),
    (hstocked.of_inputOnly h.dictionary).meaning_eq hshows' (by rw [htext']; exact hallows), htext,
    htext']

/-! ## Words that are executed -/

/-- A definition whose code is enclosed does the same in both. -/
theorem stays_execute_enclosed {d d' : Dictionary} {s returns : Stack} {host : H}
    (h : d.Encloses fs limit) (hd : d.InputOnly d') (htop : limit ≤ 65536) (hf : f ∈ fs) :
    Stays d d' s returns host (execute hooks call n f.body ⟨d, s, returns, 0, host⟩)
      (execute hooks call n f.body ⟨d', s, returns, 0, host⟩) := by
  have hbody : Layout.firstEntry ≤ f.body := UInt16.le_iff_toNat_le.2 (h.body_lt hf).1
  obtain ⟨places, hsealed, hplace, hwithin⟩ := h
  refine stays_execute hooks call hsealed (fun a k ha => ?_) n s returns host hbody (hplace f hf)
  obtain ⟨hle, hend⟩ := hwithin a k ha
  exact .of_agreeOn hd.agreeOn_above hle (by omega) (Nat.le_refl _)

section Resting

variable (h : m.Twins m') (hip : m.ip = 0) (hstocked : m.dictionary.Stocked l fs limit)
  (hresting : m.dictionary.Resting (fs ++ l.definitions))
include h hip hstocked hresting

/-- Words that leave the dictionary alone. -/
theorem Twins.coupled_of_stays {x y : MachineM H Unit}
    (hstays : Stays m.dictionary m'.dictionary m.data m.returns m.host
      (x ⟨m.dictionary, m.data, m.returns, 0, m.host⟩)
      (y ⟨m'.dictionary, m.data, m.returns, 0, m.host⟩)) :
    Coupled (Onward m.dictionary m'.dictionary l ⟨l.names fs, none⟩) Twins (x m) (y m') := by
  obtain ⟨hm, hm'⟩ := h.eq_mk hip
  rw [congrArg x hm, congrArg y hm']
  generalize x ⟨m.dictionary, m.data, m.returns, 0, m.host⟩ = r at hstays ⊢
  generalize y ⟨m'.dictionary, m.data, m.returns, 0, m.host⟩ = r' at hstays ⊢
  cases hstays with
  | ok hs hr =>
      exact .ok ⟨⟨⟨h.dictionary, rfl, rfl, rfl⟩, rfl⟩, .resting hstocked hresting rfl, .refl _ _ _,
        .refl _ _ _, .refl _ _ _⟩
  | error hs hr => exact .error ⟨⟨h.dictionary, rfl, rfl, rfl⟩, rfl⟩

/-- A primitive that only moves cells between the stacks. -/
theorem Twins.coupled_resting_primitive {p : Primitive}
    (hp : Outline.primitive? ⟨l.names fs, none⟩ p = some o1) :
    Coupled (Onward m.dictionary m'.dictionary l o1) Twins (execute hooks call n p.token m)
      (execute hooks call n p.token m') := by
  cases p with
  | operator op =>
      cases hp
      exact h.coupled_of_stays hip hstocked hresting (stays_execute_stackWord rfl)
  | returnDepth =>
      cases hp
      exact h.coupled_of_stays hip hstocked hresting (stays_execute_stackWord rfl)
  | toReturn =>
      cases hp
      exact h.coupled_of_stays hip hstocked hresting stays_execute_toReturn
  | fromReturn =>
      cases hp
      exact h.coupled_of_stays hip hstocked hresting stays_execute_fromReturn
  | _ => cases hp

/-- A definition whose code is enclosed. -/
theorem Twins.coupled_resting_call (hf : f ∈ fs ++ l.enclosed) :
    Coupled (Onward m.dictionary m'.dictionary l ⟨l.names fs, none⟩) Twins
      (execute hooks call n f.body m) (execute hooks call n f.body m') :=
  h.coupled_of_stays hip hstocked hresting (stays_execute_enclosed hstocked.encloses h.dictionary
    (Nat.le_trans hstocked.limit_le (Nat.le_of_lt m.dictionary.here.toNat_lt)) hf)

/-- While nothing is compiled, a word is executed. -/
theorem Twins.coupled_of_resting
    (hword : Outline.word? ⟨l.names fs, none⟩ text = some o1)
    (hallows : l.Allows text) (htext : m.dictionary.text name = text)
    (htext' : m'.dictionary.text name' = text) :
    Coupled (Onward m.dictionary m'.dictionary l o1) Twins (interpretWord hooks call n name m)
      (interpretWord hooks call n name' m') := by
  have hstocked' := hstocked.of_inputOnly h.dictionary
  have hresting' := hresting.of_inputOnly h.dictionary
  have hshows := hstocked.shows_of_resting hresting
  have hcompiling := hresting.compiling_eq
  have hcompiling' := hresting'.compiling_eq
  have hsame := h.meaning_eq hstocked hshows (hstocked'.shows_of_resting hresting') hallows htext htext'
  have hmeaning := hstocked.meaning_eq (s := name) hshows (by rw [htext]; exact hallows)
  rw [htext] at hmeaning
  unfold Outline.word? at hword
  rw [knows_eq_isSome_find?] at hword
  cases hfind : (fs ++ l.definitions).find? fun f => Text.same text f.name with
  | some f =>
      rw [hfind] at hword hmeaning
      cases hword
      rw [interpretWord_eq_execute hmeaning (.inl hcompiling),
        interpretWord_eq_execute (hsame.trans hmeaning) (.inl hcompiling')]
      exact h.coupled_resting_call hip hstocked hresting (hallows.mem_of_find?_eq_some hfind)
  | none =>
  rw [hfind] at hword hmeaning
  cases hprimitive : Primitive.ofName? text with
  | some p =>
      simp only [hprimitive] at hword hmeaning
      rw [interpretWord_eq_execute hmeaning (.inl hcompiling),
        interpretWord_eq_execute (hsame.trans hmeaning) (.inl hcompiling')]
      exact h.coupled_resting_primitive hip hstocked hresting hword
  | none =>
      simp only [hprimitive] at hword hmeaning
      obtain ⟨hread, hword⟩ := Option.ite_none_right_eq_some.1 hword
      cases hword
      obtain ⟨v, hv⟩ := Option.isSome_iff_exists.1 hread
      rw [interpretWord_eq_interpretLiteral hmeaning (by rw [hstocked.base_eq, htext, hv]),
        interpretWord_eq_interpretLiteral (hsame.trans hmeaning)
          (by rw [hstocked'.base_eq, htext', hv]),
        interpretLiteral_of_not_compiling hcompiling, interpretLiteral_of_not_compiling hcompiling']
      exact h.coupled_of_stays hip hstocked hresting (stays_onData (StackM.keepsRoom_push v))

end Resting

/-! ## The end of a definition -/

section Semicolon

variable {data : Stack} (h : m.Twins m') (hip : m.ip = 0)
  (hbuilding : m.dictionary.Building l fs limit f 0)
  (htop : m.data.pop? = some (f.addr.toInt16, data))
include hbuilding htop

include h in
theorem Twins.coupled_semicolon : Coupled Twins Twins (semicolon m) (semicolon m') := by
  have htop' : m'.data.pop? = some (f.addr.toInt16, data) := by rw [h.data_eq, htop]
  have hsame := h.dictionary.hasRoom_iff
  by_cases hroom : m.dictionary.HasRoom
  · have happend := (Parallel.append Primitive.exit.token.toInt16 _ _ h.dictionary).lastState
    have hclosed : m.closed.InputOnly m'.closed := happend.setReserved .compiling 0
    obtain ⟨code, hunfinished, -⟩ := hbuilding.unfinished
    have hle := hunfinished.progress.holds.hasHeader.le_entry
    have hlt := hunfinished.progress.holds.addr_lt_body
    have hbody := f.body.toNat_lt
    rw [semicolon_of_hasRoom htop hroom, semicolon_of_hasRoom htop' (hsame.2 hroom),
      UInt16.toUInt16_toInt16]
    exact (h.withBoth hclosed data).coupled_onDictionary
      (Parallel.link hle (by omega) _ _ hclosed)
  · rw [semicolon_of_not_hasRoom htop hroom, semicolon_of_not_hasRoom htop' (mt hsame.1 hroom),
      h.dictionary.here_eq]
    exact .error h

include hip in
/-- The end of the begun definition makes it one of the others. -/
theorem of_semicolon_eq_ok (hend : semicolon m = .ok () m1) :
    m1.Outlines l ⟨f.name :: l.names fs, none⟩ ∧
      m.dictionary.AgreeOn m1.dictionary 10 96 ∧ m.dictionary.AgreeOn m1.dictionary 96 l.limit.toNat ∧
        m1.ip = 0 := by
  obtain ⟨code, hunfinished, hcode⟩ := hbuilding.unfinished
  have hended := ended_of_semicolon_eq_ok hunfinished htop hend
  obtain ⟨hstocked, hlibrary⟩ :=
    hbuilding.stocked.cons hunfinished hcode hended.publishes hended.linked
  exact ⟨.resting hstocked hended.resting (hended.ip_eq.trans hip), hended.publishes.agreeOn_input,
    hlibrary, hended.ip_eq.trans hip⟩

include h hip in
theorem Twins.coupled_execute_semicolon :
    Coupled (Onward m.dictionary m'.dictionary l ⟨f.name :: l.names fs, none⟩) Twins
      (execute hooks call n Primitive.semicolon.token m)
      (execute hooks call n Primitive.semicolon.token m') := by
  have htop' : m'.data.pop? = some (f.addr.toInt16, data) := by rw [h.data_eq, htop]
  have hperform : perform hooks call n .semicolon = (do semicolon; return .advance) := rfl
  exact coupled_execute_token hperform (neverExits_semicolon m)
    (h.coupled_semicolon hbuilding htop) (fun m1 hm1 => of_semicolon_eq_ok hip hbuilding htop hm1)
    fun m1 hm1 => (of_semicolon_eq_ok (h.ip_eq.trans hip) (hbuilding.of_inputOnly h.dictionary)
      htop' hm1).2.1

end Semicolon

/-! ## Words of a definition -/

section Building

variable {data : Stack} (h : m.Twins m') (hip : m.ip = 0)
  (hbuilding : m.dictionary.Building l fs limit f j)
  (htop : m.data.pop? = some (f.addr.toInt16, data))
include h hip hbuilding htop

/-- Code is added to the begun definition. -/
theorem Twins.coupled_add (hvs : Depths (fs ++ l.enclosed) j vs k) :
    Coupled (Onward m.dictionary m'.dictionary l ⟨l.names fs, some (f.name, k)⟩) Twins
      (onDictionary (vs.forM append) m) (onDictionary (vs.forM append) m') := by
  refine coupled_onward (h.coupled_onDictionary (Parallel.forM_append vs _ _ h.dictionary))
    (fun m1 hm1 => ?_) fun m1 hm1 => ?_
  · obtain ⟨d, hd, rfl⟩ := exists_of_onDictionary_eq_ok hm1
    obtain ⟨hbuilding1, hagree, hlibrary⟩ := hbuilding.append hvs hd
    exact ⟨.building hbuilding1 htop hip, hagree, hlibrary⟩
  · obtain ⟨d, hd, rfl⟩ := exists_of_onDictionary_eq_ok hm1
    exact ((hbuilding.of_inputOnly h.dictionary).append hvs hd).2.1

/-- A word that is not immediate adds its token. -/
theorem Twins.coupled_building_token {xt : Addr} (hmeaning : m.dictionary.meaning name = .known xt false)
    (hmeaning' : m'.dictionary.meaning name' = .known xt false)
    (hvs : Depths (fs ++ l.enclosed) j [xt.toInt16] k) :
    Coupled (Onward m.dictionary m'.dictionary l ⟨l.names fs, some (f.name, k)⟩) Twins
      (interpretWord hooks call n name m) (interpretWord hooks call n name' m') := by
  rw [interpretWord_of_compiling hmeaning hbuilding.compiling_eq,
    interpretWord_of_compiling hmeaning' (hbuilding.of_inputOnly h.dictionary).compiling_eq]
  exact h.coupled_add hip hbuilding htop hvs

/-- A number adds its code. -/
theorem Twins.coupled_building_number {v : Cell} (hv : Numeral.read? 10 text = some v)
    (hmeaning : m.dictionary.meaning name = .unknown)
    (hmeaning' : m'.dictionary.meaning name' = .unknown) (htext : m.dictionary.text name = text)
    (htext' : m'.dictionary.text name' = text) :
    Coupled (Onward m.dictionary m'.dictionary l ⟨l.names fs, some (f.name, j)⟩) Twins
      (interpretWord hooks call n name m) (interpretWord hooks call n name' m') := by
  have hbuilding' := hbuilding.of_inputOnly h.dictionary
  have hcode : Depths (fs ++ l.enclosed) j (literalCells v ++ []) j := .number v (.nil j)
  rw [List.append_nil] at hcode
  rw [interpretWord_eq_interpretLiteral hmeaning (by rw [hbuilding.stocked.base_eq, htext, hv]),
    interpretWord_eq_interpretLiteral hmeaning' (by rw [hbuilding'.stocked.base_eq, htext', hv]),
    interpretLiteral_of_compiling hbuilding.compiling_eq,
    interpretLiteral_of_compiling hbuilding'.compiling_eq]
  exact h.coupled_add hip hbuilding htop hcode

/-- A primitive is compiled, or ends the definition. -/
theorem Twins.coupled_building_primitive {p : Primitive}
    (hp : Outline.primitive? ⟨l.names fs, some (f.name, j)⟩ p = some o1)
    (hmeaning : m.dictionary.meaning name = .known p.token p.isImmediate)
    (hmeaning' : m'.dictionary.meaning name' = .known p.token p.isImmediate) :
    Coupled (Onward m.dictionary m'.dictionary l o1) Twins (interpretWord hooks call n name m)
      (interpretWord hooks call n name' m') := by
  cases p with
  | operator op =>
      cases hp
      exact h.coupled_building_token hip hbuilding htop hmeaning hmeaning' (.stackWord rfl (.nil j))
  | returnDepth =>
      cases hp
      exact h.coupled_building_token hip hbuilding htop hmeaning hmeaning' (.stackWord rfl (.nil j))
  | toReturn =>
      cases hp
      exact h.coupled_building_token hip hbuilding htop hmeaning hmeaning' (.toReturn (.nil (j + 1)))
  | fromReturn =>
      cases j with
      | zero => cases hp
      | succ j =>
          cases hp
          exact h.coupled_building_token hip hbuilding htop hmeaning hmeaning' (.fromReturn (.nil j))
  | semicolon =>
      cases j with
      | succ j => cases hp
      | zero =>
          cases hp
          rw [interpretWord_eq_execute hmeaning (.inr rfl),
            interpretWord_eq_execute hmeaning' (.inr rfl)]
          exact h.coupled_execute_semicolon hip hbuilding htop
  | _ => cases hp

/-- While a definition is begun, a word is compiled, or ends it. -/
theorem Twins.coupled_of_building
    (hword : Outline.word? ⟨l.names fs, some (f.name, j)⟩ text = some o1)
    (hallows : l.Allows text) (htext : m.dictionary.text name = text)
    (htext' : m'.dictionary.text name' = text) :
    Coupled (Onward m.dictionary m'.dictionary l o1) Twins (interpretWord hooks call n name m)
      (interpretWord hooks call n name' m') := by
  have hshows := hbuilding.shows
  have hsame := h.meaning_eq hbuilding.stocked hshows (hbuilding.of_inputOnly h.dictionary).shows
    hallows htext htext'
  have hmeaning := hbuilding.stocked.meaning_eq (s := name) hshows (by rw [htext]; exact hallows)
  rw [htext] at hmeaning
  unfold Outline.word? at hword
  rw [knows_eq_isSome_find?] at hword
  cases hfind : (fs ++ l.definitions).find? fun f => Text.same text f.name with
  | some g =>
      rw [hfind] at hword hmeaning
      cases hword
      exact h.coupled_building_token hip hbuilding htop hmeaning (hsame.trans hmeaning)
        (.call (hallows.mem_of_find?_eq_some hfind) (.nil j))
  | none =>
  rw [hfind] at hword hmeaning
  cases hprimitive : Primitive.ofName? text with
  | some p =>
      simp only [hprimitive] at hword hmeaning
      exact h.coupled_building_primitive hip hbuilding htop hword hmeaning (hsame.trans hmeaning)
  | none =>
      simp only [hprimitive] at hword hmeaning
      obtain ⟨hread, hword⟩ := Option.ite_none_right_eq_some.1 hword
      cases hword
      obtain ⟨v, hv⟩ := Option.isSome_iff_exists.1 hread
      exact h.coupled_building_number hip hbuilding htop hv hmeaning (hsame.trans hmeaning) htext htext'

end Building

/-- A word does the same in twins, wherever it was read. -/
theorem Twins.coupled_interpretWord (h : m.Twins m') (ho : m.Outlines l o) (hword : o.word? text = some o1)
    (hallows : l.Allows text) (htext : m.dictionary.text name = text)
    (htext' : m'.dictionary.text name' = text) :
    Coupled (Onward m.dictionary m'.dictionary l o1) Twins (interpretWord hooks call n name m)
      (interpretWord hooks call n name' m') := by
  cases ho with
  | resting stocked resting ip_eq =>
      exact h.coupled_of_resting ip_eq stocked resting hword hallows htext htext'
  | building building top ip_eq =>
      exact h.coupled_of_building ip_eq building top hword hallows htext htext'

/-! ## Beginning a definition -/

/-- The next word is the name of a definition that is begun. -/
theorem of_beginning_eq_ok (hip : m.ip = 0) (hstocked : m.dictionary.Stocked l fs limit)
    (hresting : m.dictionary.Resting (fs ++ l.definitions)) (hbuffered : m.dictionary.Buffered)
    (hinput : m.dictionary.hasInput = true)
    (h : (noteEntry >>= fun _ => beginNext) m = .ok () m1) :
    m1.Outlines l ⟨l.names fs, some (m.dictionary.nextText, 0)⟩ ∧
      m.afterWord.dictionary.AgreeOn m1.dictionary 10 96 ∧
        m.afterWord.dictionary.AgreeOn m1.dictionary 96 l.limit.toNat ∧ m1.ip = 0 := by
  obtain ⟨f, hstarted⟩ := exists_started_of_eq_ok hstocked.toLinked hresting hbuffered hinput h
  have hbuilding : m1.dictionary.Building l fs limit f 0 :=
    ⟨hstocked.of_leavesBelow hstarted.leavesBelow, [], hstarted.unfinished, .nil 0⟩
  have houtlines := Outlines.building hbuilding (Stack.pop?_of_push? hstarted.push_eq)
    (hstarted.ip_eq.trans hip)
  rw [hstarted.name_eq] at houtlines
  refine ⟨houtlines, hstarted.agreeOn, ?_, hstarted.ip_eq.trans hip⟩
  exact (m.dictionary.inputOnly_nextWord.agreeOn_above.mono (Nat.le_refl _)
    (Nat.le_of_lt l.limit.toNat_lt)).symm.trans
    (hstarted.leavesBelow.agreeOn.mono (Nat.le_refl _) hstocked.library_le)

theorem Twins.coupled_noteEntry (h : m.Twins m') :
    Coupled Twins Twins (noteEntry m) (noteEntry m') := by
  refine (h.coupled_onDictionary (Parallel.alignHere _ _ h.dictionary)).bind
    fun entry _ _ h1 => (h1.coupled_onData _).bind fun _ _ _ h2 => ?_
  exact .ok (h2.withDictionaries (h2.dictionary.setReserved .openEntry entry.toInt16))

/-- The same name is given in both. -/
theorem Twins.coupled_beginNext {d d' : Dictionary} (h : m.Twins m') (hd : d.Buffered)
    (hd' : d'.Buffered) (hinput : d.hasInput = true) (hinput' : d'.hasInput = true)
    (hagree : d.AgreeOn m.dictionary 10 96) (hagree' : d'.AgreeOn m'.dictionary 10 96)
    (hnext : d'.nextText = d.nextText) :
    Coupled Twins Twins (beginNext m) (beginNext m') := by
  obtain ⟨hname, hlength, htext⟩ := nextWord_of_agreeOn hd hinput hagree
  obtain ⟨hname', hlength', htext'⟩ := nextWord_of_agreeOn hd' hinput' hagree'
  have hlen : m'.dictionary.nextWord.1.length = m.dictionary.nextWord.1.length :=
    UInt16.toNat_inj.1 (by rw [hlength, hlength', hnext])
  rw [beginNext_apply, beginNext_apply]
  refine (h.afterWord.coupled_onDictionary (coupled_define hname hname' hlen
    (htext'.trans (hnext.trans htext.symm)) h.afterWord.dictionary)).bind fun _ _ _ h1 => ?_
  exact .ok (h1.withDictionaries (h1.dictionary.setReserved .compiling 1))

/-- A definition with the next word as its name is begun in both, wherever it was read. -/
theorem Twins.coupled_interpretColon (h : m.Twins m') (ho : m.Outlines l o)
    (hcolon : o.colon? m.dictionary.nextText = some o1)
    (htext : m.dictionary.text name = Text.encode Primitive.colon.name)
    (htext' : m'.dictionary.text name' = Text.encode Primitive.colon.name)
    (hd : m.dictionary.Buffered) (hd' : m'.dictionary.Buffered)
    (hinput : m.dictionary.hasInput = true) (hinput' : m'.dictionary.hasInput = true)
    (hnext : m'.dictionary.nextText = m.dictionary.nextText) :
    Coupled (Onward m.afterWord.dictionary m'.afterWord.dictionary l o1) Twins
      (interpretWord hooks call (n + 1) name m) (interpretWord hooks call (n + 1) name' m') := by
  cases ho with
  | building building top ip_eq => cases hcolon
  | @resting fs limit stocked resting ip_eq =>
  have hstocked' := stocked.of_inputOnly h.dictionary
  have hresting' := resting.of_inputOnly h.dictionary
  unfold Outline.colon? at hcolon
  rw [knows_eq_isSome_find?] at hcolon
  -- `:` has its own meaning
  have hfind : ((fs ++ l.definitions).find? fun f =>
      Text.same (Text.encode Primitive.colon.name) f.name) = none := by
    cases hfind : (fs ++ l.definitions).find? fun f =>
      Text.same (Text.encode Primitive.colon.name) f.name with
    | none => rfl
    | some f =>
        rw [hfind] at hcolon
        cases hcolon
  rw [hfind] at hcolon
  cases hcolon
  have hprimitive : Primitive.ofName? (Text.encode Primitive.colon.name) = some .colon := by
    decide
  have hmeaning := stocked.meaning_of_primitive (stocked.shows_of_resting resting)
    (by rw [htext]; exact hfind) (by rw [htext]; exact hprimitive)
  have hmeaning' := hstocked'.meaning_of_primitive (hstocked'.shows_of_resting hresting')
    (by rw [htext']; exact hfind) (by rw [htext']; exact hprimitive)
  rw [interpretWord_eq_execute hmeaning (.inl resting.compiling_eq),
    interpretWord_eq_execute hmeaning' (.inl hresting'.compiling_eq)]
  have hperform : perform hooks call (n + 1) .colon =
    (do colon hooks call (n + 1); return .advance) := rfl
  have hread := colon_eq_of_hasInput hooks call n hd hinput
  have hread' := colon_eq_of_hasInput hooks call n hd' hinput'
  refine coupled_execute_token hperform (fun m1 => ?_) ?_ (fun m1 hm1 => ?_) fun m1 hm1 => ?_
  · rw [hread]
    exact (neverExits_noteEntry.bind fun _ => neverExits_beginNext) m m1
  · rw [hread, hread']
    refine ((h.coupled_noteEntry).and (fun _ m1 hm1 => agreeOn_of_noteEntry_eq_ok hm1)
      fun _ m1 hm1 => agreeOn_of_noteEntry_eq_ok hm1).bind fun _ m1 m1' h1 => ?_
    exact h1.1.coupled_beginNext hd hd' hinput hinput' h1.2.1 h1.2.2 hnext
  · rw [hread] at hm1
    exact of_beginning_eq_ok ip_eq stocked resting hd hinput hm1
  · rw [hread'] at hm1
    exact (of_beginning_eq_ok (h.ip_eq.trans ip_eq) hstocked' hresting' hd' hinput' hm1).2.1

end Machine

end ThreadedForth
