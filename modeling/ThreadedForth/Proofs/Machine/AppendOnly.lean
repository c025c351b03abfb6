import ThreadedForth.Proofs.Dictionary.Appends
import ThreadedForth.Proofs.Machine.Compile

/-!
# The dictionary is append-only

What takes room in the dictionary: the requests for room themselves, a header, the code of a number
or of a word, and `:` with all it does. Each of them writes between the old `here` and the new one
and to reserved cells only, also where it fails part-way (`appends_run`). The main result,
`appends_or_links`, says so together with what linking writes.
-/

set_option autoImplicit false

namespace ThreadedForth

/-- What takes room in the dictionary. -/
inductive Taking where
  | allot (amount : Cell)
  | append (v : Cell)
  | alignHere
  | define (name : Span)
  /-- A number in source text. -/
  | number (v : Cell)
  /-- A word in source text. -/
  | word (name : Span)
  /-- The primitive `:`. -/
  | colon

namespace Machine

variable {H : Type} {hooks : Hooks H} {call : Interpreter H} {m m' : Machine H}

/-- Does what takes room. -/
def take (hooks : Hooks H) (call : Interpreter H) (n : Nat) : Taking → MachineM H Unit
  | .allot amount => discard <| onDictionary (Dictionary.allot amount)
  | .append v => onDictionary (Dictionary.append v)
  | .alignHere => discard <| onDictionary Dictionary.alignHere
  | .define name => onDictionary (Dictionary.define name)
  | .number v => interpretLiteral v
  | .word name => interpretWord hooks call n name
  | .colon => colon hooks call n

/-- Room is taken and not given back, and a word is one that is compiled. -/
def MayTake (m : Machine H) : Taking → Prop
  | .allot amount => 0 ≤ amount.toInt
  | .word name => m.dictionary.compiling = true ∧ ∃ xt, m.dictionary.meaning name = .known xt false
  | _ => True

/-- A program appends to the dictionary at most. -/
abbrev OnlyAppends {α : Type} (x : MachineM H α) : Prop :=
  Relates (fun m m' => m.dictionary.Appends m'.dictionary) x

namespace OnlyAppends

theorem onData {α : Type} (x : StackM α) : OnlyAppends (Machine.onData x : MachineM H α) := by
  intro m
  simp only [Machine.onData]
  cases x m.data <;> exact .refl _

theorem onDictionary {α : Type} {x : DictionaryM α} (h : Relates Dictionary.Appends x) :
    OnlyAppends (Machine.onDictionary x : MachineM H α) := relates_onDictionary h

theorem bind {α β : Type} {x : MachineM H α} {f : α → MachineM H β} (hx : OnlyAppends x)
    (hf : ∀ a, OnlyAppends (f a)) : OnlyAppends (x >>= f) :=
  Relates.bind (fun h h' => h.trans h') hx hf

theorem discard {α : Type} {x : MachineM H α} (hx : OnlyAppends x) :
    OnlyAppends (Functor.discard x : MachineM H PUnit) :=
  hx.bind fun _ _ => .refl _

theorem interpretLiteral (v : Cell) :
    OnlyAppends (Machine.interpretLiteral v : MachineM H Unit) := by
  intro m
  cases hcompiling : m.dictionary.compiling with
  | true =>
      rw [interpretLiteral_of_compiling hcompiling]
      exact onDictionary (Dictionary.appends_forM_append _) m
  | false =>
      rw [interpretLiteral_of_not_compiling hcompiling]
      exact onData _ m

/-- Up to the name, `:` makes `here` even and writes a reserved cell; then it writes a header. -/
theorem colon (hrefill : QuietRefill hooks call) (n : Nat) :
    OnlyAppends (Machine.colon hooks call n) := by
  refine .bind (onDictionary Dictionary.appends_alignHere) fun entry => ?_
  refine .bind (onData _) fun _ => .bind ?_ fun _ => ?_
  · exact fun m => Dictionary.appends_setReserved _ .openEntry _ (by decide)
  refine .bind (fun m => (relates_awaitWord hrefill n m).dictionary.appends) fun name => ?_
  refine .bind (onDictionary (Dictionary.appends_define name)) fun _ => ?_
  exact fun m => Dictionary.appends_setReserved _ .compiling _ (by decide)

end OnlyAppends

/-- Whatever takes room appends, and how far it comes does not matter. -/
theorem appends_run (hrefill : QuietRefill hooks call) (n : Nat) {t : Taking} (h : m.MayTake t) :
    m.dictionary.Appends (lastState (take hooks call n t m)).dictionary := by
  cases t with
  | allot amount =>
      exact (OnlyAppends.onDictionary (Dictionary.appends_allot h)).discard m
  | append v => exact OnlyAppends.onDictionary (Dictionary.appends_append v) m
  | alignHere => exact (OnlyAppends.onDictionary Dictionary.appends_alignHere).discard m
  | define name => exact OnlyAppends.onDictionary (Dictionary.appends_define name) m
  | number v => exact OnlyAppends.interpretLiteral v m
  | word name =>
      rcases h with ⟨hcompiling, xt, hknown⟩
      rw [take, interpretWord_of_compiling hknown hcompiling]
      exact OnlyAppends.onDictionary (Dictionary.appends_forM_append _) m
  | colon => exact OnlyAppends.colon hrefill n m

/-! ## The main result -/

/-- If `here` is where definitions go, it is so after anything that takes room, and did not go
back. From the first definition on, the bytes below the old `here` are the same, and so are those
from the new one on. An entry that is linked changes by the cells of its distance, and nothing else
does but the cell `latest`. -/
theorem appends_or_links (hrefill : QuietRefill hooks call) (n : Nat) (hready : m.dictionary.Ready) :
    (∀ t, m.MayTake t → ∀ d, (lastState (take hooks call n t m)).dictionary = d →
      d.Ready ∧ d.capacity = m.dictionary.capacity ∧ m.dictionary.here.toNat ≤ d.here.toNat ∧
        m.dictionary.AgreeOn d Layout.firstEntry.toNat m.dictionary.here.toNat ∧
        m.dictionary.AgreeOn d d.here.toNat d.capacity) ∧
      ∀ entry d, Dictionary.link entry m.dictionary = .ok () d →
        ∀ a, (∀ c ∈ m.dictionary.linkCells entry, a ≠ c ∧ a ≠ c + 1) →
          d.readByte a = m.dictionary.readByte a := by
  constructor
  · rintro t ht d rfl
    have happends := appends_run hrefill n ht
    have hready' := happends.ready hready
    have hle := hready'.le_here
    rw [toNat_firstEntry] at hle
    refine ⟨hready', happends.capacity_eq, happends.here_le, happends.agreeOn_below, ?_⟩
    exact happends.agreeOn_above.mono (by omega) (Dictionary.capacity_le _)
  · intro entry d hlink a ha
    exact Dictionary.readByte_of_link_eq_ok hlink ha

/-- A machine with hardly any room, which has read the name of a definition. -/
def crampedMachine : Machine Unit :=
  lastState (onDictionary (Dictionary.loadInput (Text.encode "abc")) (ofConfig ⟨64, 64, 100⟩ ()))

/-- The same machine after `:`, which did not find room for the name. -/
def crampedColon : Machine Unit :=
  lastState (take {} (interpreter {} 0) 1 .colon crampedMachine)

/-- A machine with room for the name, after `:`. -/
def roomyMachine : Machine Unit :=
  lastState (colon {} (interpreter {} 0) 1
    (lastState (onDictionary (Dictionary.loadInput (Text.encode "abc"))
      (ofConfig ⟨64, 64, 128⟩ ()))))

/-- Its dictionary after the entry was linked. -/
def linkedDictionary : Dictionary := lastState (Dictionary.link 96 roomyMachine.dictionary)

/-- Where the header fits and the name does not, the header is all that was added. Once there was
room for both, linking writes the header and the cell `latest`. -/
theorem appends_crampedMachine_links_roomyMachine :
    error? (take {} (interpreter {} 0) 1 .colon crampedMachine) =
        some (.error (.dictionaryFull 98 3)) ∧
      crampedColon.dictionary.here = 98 ∧ crampedColon.dictionary.Ready ∧
      crampedMachine.dictionary.AgreeOn crampedColon.dictionary 98 100 ∧
      Dictionary.link 96 roomyMachine.dictionary = .ok () linkedDictionary ∧
      linkedDictionary.latest = 96 ∧
      linkedDictionary.text (linkedDictionary.entryName 96) = Text.encode "abc" ∧
      ∀ a, a ≠ 96 → a ≠ 97 → a ≠ 4 → a ≠ 5 →
        linkedDictionary.readByte a = roomyMachine.dictionary.readByte a := by
  have hrefill : QuietRefill ({} : Hooks Unit) (interpreter {} 0) :=
    ⟨fun m => .refl m, fun m m' h => by cases h⟩
  have hcramped : crampedMachine.dictionary.Ready ∧
      error? (take {} (interpreter {} 0) 1 .colon crampedMachine) =
        some (.error (.dictionaryFull 98 3)) ∧
      crampedColon.dictionary.here = 98 ∧ crampedMachine.dictionary.capacity = 100 := by
    decide +kernel
  have hroomy : roomyMachine.dictionary.Ready ∧
      value? (Dictionary.link 96 roomyMachine.dictionary) = some () ∧
      roomyMachine.dictionary.linkCells 96 = [96, 4] ∧ linkedDictionary.latest = 96 ∧
      linkedDictionary.text (linkedDictionary.entryName 96) = Text.encode "abc" := by
    decide +kernel
  obtain ⟨hready, herror, hhere, hcap⟩ := hcramped
  obtain ⟨hready', hvalue, hcells, hlatest, htext⟩ := hroomy
  obtain ⟨hd, hcapacity, -, -, habove⟩ :=
    (appends_or_links hrefill 1 hready).1 .colon trivial crampedColon.dictionary rfl
  rw [hcapacity, hcap, hhere] at habove
  refine ⟨herror, hhere, hd, habove, eq_ok_lastState hvalue, hlatest, htext, ?_⟩
  intro a h96 h97 h4 h5
  refine (appends_or_links hrefill 1 hready').2 96 linkedDictionary (eq_ok_lastState hvalue) a
    fun c hc => ?_
  rw [hcells] at hc
  rcases List.mem_cons.1 hc with rfl | hc
  · exact ⟨h96, h97⟩
  · obtain rfl := List.mem_singleton.1 hc
    exact ⟨h4, h5⟩

end Machine

end ThreadedForth
