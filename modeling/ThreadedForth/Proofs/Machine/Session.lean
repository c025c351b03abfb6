import ThreadedForth.Proofs.Machine.Abreast

/-!
# Sessions

In a session lines are interpreted one after the other, and the machine is reset after a line that
failed. A session is looked at word by word (`readings`), which tells the definitions that were typed
in it (`Typing`): those that were finished, and the one that is begun, which a reset drops.

Machines that stand side by side go through a line alike (`coupled_interpretLine`). In one machine as
in two, the finished words are the ones that the finished definitions make (`Makes`).
-/

set_option autoImplicit false

namespace ThreadedForth

/-- A definition as it is typed: its name, and the words between the name and `;`. -/
structure Typed where
  name : List UInt8
  words : List (List UInt8)
deriving DecidableEq

/-- The definitions that were typed: the finished ones, the oldest first, and the one that is begun. -/
structure Typing where
  finished : List Typed := []
  begun : Option Typed := none
deriving DecidableEq

/-- The definition with another word. -/
def Typed.add (t : Typed) (text : List UInt8) : Typed := { t with words := t.words ++ [text] }

namespace Machine

open Dictionary

variable {H : Type}

/-! ## The words of a line -/

/-- A word that was read from the source: where it is, the machine in which it is interpreted, and
what becomes of that. -/
structure Reading (H : Type) where
  name : Span
  before : Machine H
  result : EStateM.Result Stop (Machine H) Unit

/-- The words of the source that are interpreted. None comes after one that fails. -/
def readings (call : Interpreter H) : Nat → Machine H → List (Reading H)
  | 0, _ => []
  | n + 1, m =>
    if m.dictionary.hasInput then
      let before := { m with dictionary := m.dictionary.nextWord.2 }
      let result := interpretWord {} call n m.dictionary.nextWord.1 before
      ⟨m.dictionary.nextWord.1, before, result⟩ :: match result with
        | .ok _ m' => readings call n m'
        | .error _ _ => []
    else []

/-- The words of a line that are interpreted. -/
def lineReadings (n : Nat) (line : List UInt8) (m : Machine H) : List (Reading H) :=
  match n, loadInput line m.dictionary with
  | n + 1, .ok _ d => readings (interpreter {} n) n { m with dictionary := d }
  | _, _ => []

/-- The word belongs to a session, and there was room in the dictionary for what it did. -/
def Reading.IsOrdinary (r : Reading H) : Prop :=
  r.before.dictionary.Ordinary r.name ∧ reportsFull r.result = false

instance (r : Reading H) : Decidable r.IsOrdinary := inferInstanceAs (Decidable (_ ∧ _))

/-- What was typed after another word. A word after which words are compiled begins a definition or
belongs to one; one after which they are not finishes the definition that is begun. -/
def Reading.add (t : Typing) (r : Reading H) : Typing :=
  match r.result, t.begun with
  | .error _ _, _ => t
  | .ok _ m, none =>
    if m.dictionary.compiling then { t with begun := some ⟨r.before.dictionary.nextText, []⟩ } else t
  | .ok _ m, some typed =>
    if m.dictionary.compiling then
      { t with begun := some (typed.add (r.before.dictionary.text r.name)) }
    else ⟨t.finished ++ [typed], none⟩

/-! ## Line after line -/

/-- Interprets a line. If it fails, the machine is reset. -/
def enterLine (n : Nat) (line : List UInt8) (m : Machine H) : Machine H :=
  match interpretLine {} n line m with
  | .ok _ m => m
  | .error _ m => m.reset

/-- The words of the lines belong to a session. -/
def Admits (n : Nat) : List (List UInt8) → Machine H → Prop
  | [], _ => True
  | line :: lines, m =>
    (∀ r ∈ lineReadings n line m, r.IsOrdinary) ∧ Admits n lines (enterLine n line m)

instance decidableAdmits (n : Nat) :
    ∀ (lines : List (List UInt8)) (m : Machine H), Decidable (Admits n lines m)
  | [], _ => isTrue trivial
  | line :: lines, m =>
    have := decidableAdmits n lines (enterLine n line m)
    inferInstanceAs (Decidable ((∀ r ∈ lineReadings n line m, r.IsOrdinary) ∧
      Admits n lines (enterLine n line m)))

/-- What a line does: how it ends, the stacks that it leaves behind, and what is defined when the next
one comes. -/
structure Response where
  stop? : Option Stop
  data : List Cell
  returns : List Cell
  compiling : Bool
  base : Cell
  here : Addr
  latest : Addr
deriving DecidableEq

/-- What a line does. -/
def response (n : Nat) (line : List UInt8) (m : Machine H) : Response where
  stop? := error? (interpretLine {} n line m)
  data := (lastState (interpretLine {} n line m)).data.cells
  returns := (lastState (interpretLine {} n line m)).returns.cells
  compiling := (enterLine n line m).dictionary.compiling
  base := (enterLine n line m).dictionary.base
  here := (enterLine n line m).dictionary.here
  latest := (enterLine n line m).dictionary.latest

/-- What the lines do, one after the other. -/
def responses (n : Nat) : List (List UInt8) → Machine H → List Response
  | [], _ => []
  | line :: lines, m => response n line m :: responses n lines (enterLine n line m)

end Machine

/-- A machine and what was typed into it. -/
structure Session (H : Type) where
  machine : Machine H
  typing : Typing := {}

namespace Session

variable {H : Type}

/-- A session with an empty machine. -/
def start (config : Config) (host : H) : Session H := ⟨.ofConfig config host, {}⟩

/-- Interprets a line. If it fails, the machine is reset, and the definition that is begun is
dropped. -/
def enter (n : Nat) (s : Session H) (line : List UInt8) : Session H where
  machine := Machine.enterLine n line s.machine
  typing :=
    let typing := (Machine.lineReadings n line s.machine).foldl Machine.Reading.add s.typing
    match error? (Machine.interpretLine {} n line s.machine) with
    | none => typing
    | some _ => { typing with begun := none }

/-- Interprets the lines. -/
def run (n : Nat) (s : Session H) (lines : List (List UInt8)) : Session H := lines.foldl (enter n) s

end Session

/-! ## What the definitions make -/

/-- How `:` is written. -/
def colonText : List UInt8 := Text.encode Primitive.colon.name

/-- How `;` is written. -/
def semicolonText : List UInt8 := Text.encode Primitive.semicolon.name

/-- Lines that type the definition: one for `:` and the name, one for each word, and one for `;`. -/
def Typed.lines (t : Typed) : List (List UInt8) :=
  (colonText ++ 32 :: t.name) :: t.words ++ [semicolonText]

/-- The text can be typed as a word. -/
structure Typable (text : List UInt8) : Prop where
  ne_nil : text ≠ []
  length_le : text.length ≤ 80
  isWordByte : ∀ b ∈ text, Dictionary.isWordByte b = true

/-- After the given words were finished, the text of a definition makes a word. -/
inductive Spells (ws : List Word) : Typed → Word → Prop
  | begins {name : List UInt8} (colon : sense ws colonText = .primitive .colon)
      (typable : Typable name) : Spells ws ⟨name, []⟩ (Word.begin ws name)
  | adds {t : Typed} {w : Word} {text : List UInt8} {vs : List Cell} (earlier : Spells ws t w)
      (typable : Typable text) (code : (sense ws text).code? = some vs) :
      Spells ws (t.add text) (w.extend vs)

/-- The word that is begun is made by the definition that is begun. -/
inductive Begun (ws : List Word) : Option Typed → Option Word → Prop
  | none : Begun ws none none
  | some {t : Typed} {w : Word} (spells : Spells ws t w) : Begun ws (some t) (some w)

namespace Machine

open Dictionary

variable {H : Type}

/-- The finished definitions make the finished words, for which there is room in the machine `m₀`. -/
inductive Makes (m₀ : Machine H) : List Typed → List Word → Prop
  | nil : Makes m₀ [] []
  | snoc {ts : List Typed} {ws : List Word} {t : Typed} {w : Word} (older : Makes m₀ ts ws)
      (spells : Spells ws t w) (semicolon : sense ws semicolonText = .primitive .semicolon)
      (fits : w.stop.toNat < m₀.dictionary.capacity) (holds : 0 < m₀.data.capacity) :
      Makes m₀ (ts ++ [t]) (w :: ws)

/-- The words are made by what was typed. -/
structure Spelled (m₀ : Machine H) (typing : Typing) (ws : List Word) (b : Option Word) : Prop where
  makes : Makes m₀ typing.finished ws
  begun : Begun ws typing.begun b

/-- A primitive is also meant by its own name. -/
theorem sense_name {ws : List Word} {text : List UInt8} {p : Primitive}
    (h : sense ws text = .primitive p) : sense ws (Text.encode p.name) = .primitive p := by
  obtain ⟨hfind, hname⟩ : ws.find? (fun w => Text.same text w.name) = none ∧
      Primitive.ofName? text = some p := by
    unfold sense at h
    split at h
    · cases h
    · rename_i hfind
      split at h
      · rename_i q hq
        cases h
        exact ⟨hfind, hq⟩
      · split at h <;> cases h
  have hsame : ∀ t, Text.same (Text.encode p.name) t = Text.same text t := by
    intro t
    have heq : text.map Text.lower = (Text.encode p.name).map Text.lower :=
      Text.same_iff.1 (List.find?_some (p := fun q : Primitive =>
        Text.same text (Text.encode q.name)) hname)
    rw [Text.same, Text.same, heq]
  have hname' : Primitive.ofName? (Text.encode p.name) = some p := by
    rw [← hname]
    simp only [Primitive.ofName?, hsame]
  rw [sense]
  simp only [hsame, hfind, hname']

variable {call : Interpreter H} {n : Nat} {m₀ m m' m1 m1' : Machine H} {ws ws1 : List Word}
  {b b1 : Option Word} {typing : Typing} {r : Reading H}

/-- A name that was read can be typed. -/
theorem typable_of_follows {w : Word} {d : Dictionary} (h : w.Follows ws)
    (hname : w.name = d.nextText) : Typable w.name := by
  refine ⟨h.name_ne_nil, Nat.le_trans h.length_le (by decide), fun b hb => ?_⟩
  rw [hname] at hb
  exact Dictionary.isWordByte_of_mem_nextText hb

/-- What was typed makes the words after another word as well. -/
theorem Spelled.add (h : Spelled m₀ typing ws b) (hr : r.result = .ok () m1)
    (hturns : Turns m₀ ws (r.before.dictionary.text r.name) r.before.dictionary.nextText b ws1 b1)
    (hstands : m1.dictionary.Stands ws1 b1) (htypable : Typable (r.before.dictionary.text r.name)) :
    Spelled m₀ (r.add typing) ws1 b1 := by
  obtain ⟨hmakes, hbegun⟩ := h
  obtain ⟨finished, begun⟩ := typing
  have hadd : r.add ⟨finished, begun⟩ = match begun with
      | none =>
        if m1.dictionary.compiling then ⟨finished, some ⟨r.before.dictionary.nextText, []⟩⟩
        else ⟨finished, none⟩
      | some typed =>
        if m1.dictionary.compiling then
          ⟨finished, some (typed.add (r.before.dictionary.text r.name))⟩
        else ⟨finished ++ [typed], none⟩ := by
    unfold Reading.add
    rw [hr]
    cases begun <;> rfl
  rw [hadd]
  cases hturns with
  | keeps =>
      cases hbegun
      have hrest : m1.dictionary.AtRest ws := hstands
      rw [hrest.compiling_eq]
      exact ⟨hmakes, .none⟩
  | begins hcolon =>
      cases hbegun
      have hw : m1.dictionary.Underway ws _ := hstands
      rw [hw.compiling_eq]
      exact ⟨hmakes, .some (.begins (sense_name hcolon) (typable_of_follows hw.follows rfl))⟩
  | adds hcode =>
      cases hbegun with
      | some spells =>
          have hw : m1.dictionary.Underway ws _ := hstands
          rw [hw.compiling_eq]
          exact ⟨hmakes, .some (.adds spells htypable hcode)⟩
  | finishes hsemicolon fits holds =>
      cases hbegun with
      | some spells =>
          have hrest : m1.dictionary.AtRest _ := hstands
          rw [hrest.compiling_eq]
          exact ⟨.snoc hmakes spells (sense_name hsemicolon) fits holds, .none⟩

/-! ## A line in two machines -/

/-- Machines side by side into which the same was typed. -/
def Alongside (m₀ : Machine H) (typing : Typing) (m m' : Machine H) : Prop :=
  ∃ ws b, Mates m₀ ws b m m' ∧ Spelled m₀ typing ws b

/-- Machines that failed after the same was typed. -/
def FallenAlongside (m₀ : Machine H) (typing : Typing) (m m' : Machine H) : Prop :=
  ∃ ws, Fallen m₀ ws m m' ∧ Makes m₀ typing.finished ws

theorem interpretSource_succ (call : Interpreter H) (n : Nat) (m : Machine H) :
    interpretSource {} call (n + 1) m =
      if m.dictionary.hasInput then
        (do
          interpretWord {} call n m.dictionary.nextWord.1
          interpretSource {} call n) { m with dictionary := m.dictionary.nextWord.2 }
      else .ok () m := by
  rw [interpretSource, bind_eq_of_ok (getDictionary_apply _ m)]
  split <;> rfl

section Readings

variable {name : Span} {before : Machine H}

theorem readings_of_not_hasInput (h : m.dictionary.hasInput = false) :
    readings call (n + 1) m = [] := by
  rw [readings, h]
  rfl

theorem readings_of_ok (hinput : m.dictionary.hasInput = true) (hname : m.dictionary.nextWord.1 = name)
    (hbefore : { m with dictionary := m.dictionary.nextWord.2 } = before)
    (h : interpretWord {} call n name before = .ok () m1) :
    readings call (n + 1) m = ⟨name, before, .ok () m1⟩ :: readings call n m1 := by
  rw [readings, if_pos hinput, hname, hbefore]
  dsimp only
  rw [h]

theorem readings_of_error {stop : Stop} (hinput : m.dictionary.hasInput = true)
    (hname : m.dictionary.nextWord.1 = name)
    (hbefore : { m with dictionary := m.dictionary.nextWord.2 } = before)
    (h : interpretWord {} call n name before = .error stop m1) :
    readings call (n + 1) m = [⟨name, before, .error stop m1⟩] := by
  rw [readings, if_pos hinput, hname, hbefore]
  dsimp only
  rw [h]

/-- Where there is input, a word is read. -/
theorem mem_readings (hinput : m.dictionary.hasInput = true) (hname : m.dictionary.nextWord.1 = name)
    (hbefore : { m with dictionary := m.dictionary.nextWord.2 } = before) :
    ⟨name, before, interpretWord {} call n name before⟩ ∈ readings call (n + 1) m := by
  rw [readings, if_pos hinput, hname, hbefore]
  exact List.mem_cons_self

end Readings

/-- The source is interpreted alike in both. -/
theorem coupled_interpretSource (h : Abreast m₀ ws b m m') (hspelled : Spelled m₀ typing ws b)
    (hordinary : ∀ r ∈ readings call n m, r.IsOrdinary) :
    Coupled (Alongside m₀ ((readings call n m).foldl Reading.add typing))
      (FallenAlongside m₀ ((readings call n m).foldl Reading.add typing))
      (interpretSource {} call n m) (interpretSource {} call n m') := by
  induction n generalizing m m' ws b typing with
  | zero => exact .error ⟨ws, h.mates.fallen, hspelled.makes⟩
  | succ n ih =>
  rw [interpretSource_succ, interpretSource_succ, h.buffered.hasInput_eq_of_agreeOn h.agreeOn,
    h.buffered.nextWord_fst_eq h.agreeOn]
  cases hinput : m.dictionary.hasInput with
  | false =>
      rw [readings_of_not_hasInput hinput]
      exact .ok ⟨ws, b, h.mates, hspelled⟩
  | true =>
  rw [if_pos rfl, if_pos rfl]
  obtain ⟨hstart, hend, hlength⟩ := h.buffered.nextWord_within hinput
  have hpos := length_nextText_pos hinput
  have htext := h.buffered.text_nextWord hinput
    (m.dictionary.agreeOn_nextWord.mono (Nat.le_refl _) (by decide))
  have htypable : Typable (m.dictionary.nextWord.2.text m.dictionary.nextWord.1) := by
    rw [htext]
    exact ⟨List.length_pos_iff.1 hpos, by omega, fun b hb => isWordByte_of_mem_nextText hb⟩
  have hnext := h.nextWord hinput
  obtain ⟨name, hname⟩ : ∃ name, m.dictionary.nextWord.1 = name := ⟨_, rfl⟩
  obtain ⟨before, hbefore⟩ : ∃ before : Machine H,
    { m with dictionary := m.dictionary.nextWord.2 } = before := ⟨_, rfl⟩
  have hdictionary : m.dictionary.nextWord.2 = before.dictionary := by rw [← hbefore]
  rw [hname] at hstart hend htypable ⊢
  rw [hdictionary] at htypable
  rw [hbefore] at hnext ⊢
  have hfirst := hordinary _ (mem_readings hinput hname hbefore)
  have hcoupled := coupled_interpretWord hnext hstart hend hfirst.1 hfirst.2
  generalize hx : interpretWord {} call n name before = x at hcoupled
  generalize hy : interpretWord {} call n name _ = y at hcoupled
  cases hcoupled with
  | @ok _ m1 m1' hturned =>
      obtain ⟨ws1, b1, hturns, habreast⟩ := hturned
      rw [readings_of_ok hinput hname hbefore hx] at hordinary ⊢
      rw [bind_eq_of_ok hx, bind_eq_of_ok hy]
      refine ih habreast (hspelled.add rfl hturns habreast.mates.stands htypable) fun r hr =>
        hordinary r (List.mem_cons_of_mem _ hr)
  | @error stop m1 m1' hfallen =>
      rw [readings_of_error hinput hname hbefore hx, bind_eq_of_error hx, bind_eq_of_error hy]
      exact .error ⟨ws, hfallen, hspelled.makes⟩

/-- A line that is too long is not interpreted. -/
theorem interpretLine_of_long {line : List UInt8} (n : Nat) (m : Machine H)
    (h : Layout.inputCapacity < line.length) :
    interpretLine {} n line m = .error (.error (.inputTooLong line.length)) m := by
  refine bind_eq_of_error ?_ _
  simp only [onDictionary, loadInput_of_long _ h]

/-- A line that was loaded is interpreted. -/
theorem interpretLine_of_loadInput {line : List UInt8} {d : Dictionary} (n : Nat)
    (h : loadInput line m.dictionary = .ok () d) :
    interpretLine {} n line m = interpreter {} n .interpretSource { m with dictionary := d } := by
  refine bind_eq_of_ok (a := ()) ?_ _
  simp only [onDictionary, h]

/-- A line is interpreted alike in both. -/
theorem coupled_interpretLine {line : List UInt8} (h : Alongside m₀ typing m m')
    (hordinary : ∀ r ∈ lineReadings n line m, r.IsOrdinary) :
    Coupled (Alongside m₀ ((lineReadings n line m).foldl Reading.add typing))
      (FallenAlongside m₀ ((lineReadings n line m).foldl Reading.add typing))
      (interpretLine {} n line m) (interpretLine {} n line m') := by
  obtain ⟨ws, b, hmates, hspelled⟩ := h
  rcases Nat.lt_or_ge Layout.inputCapacity line.length with hlong | hfits
  · have hreadings : lineReadings n line m = [] := by
      unfold lineReadings
      rw [loadInput_of_long _ hlong]
      cases n <;> rfl
    rw [hreadings, interpretLine_of_long n m hlong, interpretLine_of_long n m' hlong]
    exact .error ⟨ws, hmates.fallen, hspelled.makes⟩
  obtain ⟨d1, hd⟩ := exists_loadInput_eq_ok m.dictionary hfits
  obtain ⟨d1', hd'⟩ := exists_loadInput_eq_ok m'.dictionary hfits
  have hcap : 16 ≤ m.dictionary.capacity := Nat.le_of_lt hmates.lt_capacity
  have hloaded := hmates.of_inputOnly (inputOnly_of_loadInput hd) (inputOnly_of_loadInput hd')
  rw [interpretLine_of_loadInput n hd, interpretLine_of_loadInput n hd']
  unfold lineReadings at hordinary ⊢
  rw [hd] at hordinary ⊢
  cases n with
  | zero => exact .error ⟨ws, hloaded.fallen, hspelled.makes⟩
  | succ n =>
      exact coupled_interpretSource ⟨hloaded, buffered_of_loadInput hcap hd,
        agreeOn_of_loadInput hmates.capacity_eq hd hd'⟩ hspelled hordinary

/-! ## Sessions in two machines -/

/-- A line does the same in both, and afterwards they are side by side again. -/
theorem Alongside.enter {line : List UInt8} (h : Alongside m₀ typing m m')
    (hordinary : ∀ r ∈ lineReadings n line m, r.IsOrdinary) :
    response n line m' = response n line m ∧
      Alongside m₀ (Session.enter n ⟨m, typing⟩ line).typing (enterLine n line m)
        (enterLine n line m') := by
  have hcoupled := coupled_interpretLine h hordinary
  unfold response enterLine Session.enter
  dsimp only
  generalize interpretLine {} n line m = x at hcoupled ⊢
  generalize interpretLine {} n line m' = y at hcoupled ⊢
  cases hcoupled with
  | ok halong =>
      obtain ⟨ws, b, hmates, hspelled⟩ := id halong
      obtain ⟨hcompiling, hbase, hhere, hlatest⟩ := hmates.cells_eq
      refine ⟨?_, halong⟩
      simp only [error?, lastState_ok, hmates.data_eq, hmates.returns_eq, hcompiling, hbase, hhere,
        hlatest]
  | error hfallen =>
      obtain ⟨ws, hfallen, hmakes⟩ := hfallen
      obtain ⟨hcompiling, hbase, hhere, hlatest⟩ := hfallen.reset.cells_eq
      refine ⟨?_, ws, none, hfallen.reset, hmakes, .none⟩
      simp only [error?, lastState_error, hfallen.data_eq, hfallen.returns_eq, hcompiling, hbase,
        hhere, hlatest]

/-- Later lines do the same in both. -/
theorem Alongside.responses_eq {lines : List (List UInt8)} (h : Alongside m₀ typing m m')
    (hadmits : Admits n lines m) : responses n lines m' = responses n lines m := by
  induction lines generalizing m m' typing with
  | nil => rfl
  | cons line lines ih =>
      obtain ⟨hresponse, halong⟩ := h.enter hadmits.1
      rw [responses, responses, hresponse, ih halong hadmits.2]

/-- In one machine, what was typed makes the words at any time. -/
theorem Alongside.run {lines : List (List UInt8)} {s : Session H}
    (h : Alongside m₀ s.typing s.machine s.machine) (hadmits : Admits n lines s.machine) :
    Alongside m₀ (s.run n lines).typing (s.run n lines).machine (s.run n lines).machine := by
  induction lines generalizing s with
  | nil => exact h
  | cons line lines ih => exact ih (s := s.enter n line) (h.enter hadmits.1).2 hadmits.2

end Machine

end ThreadedForth
