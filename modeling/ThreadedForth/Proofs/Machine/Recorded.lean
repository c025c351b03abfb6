import ThreadedForth.Numeral
import ThreadedForth.Proofs.Machine.Lines
import ThreadedForth.Proofs.Machine.Making

/-!
# Machines that are recorded in a book

Beside the words of a library, which has the fixtures under their names (`Supplies`), a dictionary has
the entries of a book (`Recorded`). The names of the book are free: they are no names of the library or
of primitives, and no numerals. So every other text is found where it was (`Recorded.find?_of_not_free`),
and a name of the book is executed where the code of its newest entry is
(`Machine.interpretWord_of_find?_eq_some`). When a definition was made, it goes to the book
(`Recorded.cons`), and when the cell of a variable was written, that is recorded there
(`Recorded.assign`).
-/

set_option autoImplicit false

namespace ThreadedForth

/-! ## The case of letters -/

namespace Numeral

theorem digit?_lower (b : UInt8) : digit? (Text.lower b) = digit? b := by
  have hall : ∀ n : Fin 256, digit? (Text.lower (UInt8.ofFin n)) = digit? (UInt8.ofFin n) := by
    decide +kernel
  exact hall b.toFin

theorem lower_eq_minusSign_iff (b : UInt8) : Text.lower b = minusSign ↔ b = minusSign := by
  have hall : ∀ n : Fin 256,
      Text.lower (UInt8.ofFin n) = minusSign ↔ UInt8.ofFin n = minusSign := by decide +kernel
  exact hall b.toFin

theorem appendDigits?_lower (radix : Nat) (v : DoubleCell) (text : List UInt8) :
    appendDigits? radix v (text.map Text.lower) = appendDigits? radix v text := by
  induction text generalizing v with
  | nil => rfl
  | cons b text ih => simp only [List.map_cons, appendDigits?, digit?_lower, ih]

theorem readSigned?_lower (radix : Nat) (text : List UInt8) :
    readSigned? radix (text.map Text.lower) = readSigned? radix text := by
  have hdigits : ∀ bs : List UInt8,
      readDigits? radix (bs.map Text.lower) = readDigits? radix bs := by
    intro bs
    rw [readDigits?, readDigits?, List.isEmpty_map, appendDigits?_lower]
  cases text with
  | nil => rfl
  | cons b bs =>
      have hcons := hdigits (b :: bs)
      rw [List.map_cons] at hcons
      rw [List.map_cons, readSigned?, readSigned?]
      by_cases hb : b = minusSign
      · rw [if_pos hb, if_pos ((lower_eq_minusSign_iff b).2 hb), hdigits]
      · rw [if_neg hb, if_neg (mt (lower_eq_minusSign_iff b).1 hb), hcons]

theorem read?_lower (base : Cell) (text : List UInt8) :
    read? base (text.map Text.lower) = read? base text := by
  simp only [read?, readSigned?_lower]

/-- The case of letters makes no difference to a numeral. -/
theorem read?_eq_of_same {s t : List UInt8} (base : Cell) (h : Text.same s t = true) :
    read? base s = read? base t := by
  rw [← read?_lower, Text.same_iff.1 h, read?_lower]

end Numeral

/-! ## Names -/

namespace Book

variable {lib : List Definition} {book : Book} {text name : List UInt8} {w : Fixture} {p : Primitive}

/-- Whether a text is no name in the library, no name of a primitive and no numeral. -/
def isFree (lib : List Definition) (text : List UInt8) : Bool :=
  (lib.find? fun f => Text.same text f.name).isNone && (Primitive.ofName? text).isNone &&
    (Numeral.read? 10 text).isNone

/-- The number that a text stands for, if it is not a name. -/
def number? (lib : List Definition) (text : List UInt8) : Option Cell :=
  if (lib.find? fun f => Text.same text f.name).isNone && (Primitive.ofName? text).isNone then
    Numeral.read? 10 text
  else none

/-- Whether a text is a word that is not immediate, or a number. -/
def compiles (book : Book) (lib : List Definition) (text : List UInt8) : Bool :=
  (book.holding? text).isSome ||
    match lib.find? fun f => Text.same text f.name with
    | some f => !f.immediate
    | none =>
      match Primitive.ofName? text with
      | some p => !p.isImmediate
      | none => (Numeral.read? 10 text).isSome

theorem isFree_eq_of_same (h : Text.same text name = true) : isFree lib text = isFree lib name := by
  have hlower := Text.same_iff.1 h
  rw [isFree, isFree, Numeral.read?_eq_of_same 10 h]
  unfold Primitive.ofName? Text.same
  rw [hlower]

theorem isFree_eq_false_of_number? {v : Cell} (h : number? lib text = some v) :
    (lib.find? fun f => Text.same text f.name) = none ∧ Primitive.ofName? text = none ∧
      Numeral.read? 10 text = some v ∧ isFree lib text = false := by
  unfold number? at h
  split at h
  · rename_i hnone
    rw [Bool.and_eq_true, Option.isNone_iff_eq_none, Option.isNone_iff_eq_none] at hnone
    exact ⟨hnone.1, hnone.2, h, by simp [isFree, h]⟩
  · cases h

theorem isFree_of_primitive (h : Primitive.ofName? text = some p) : isFree lib text = false := by
  rw [isFree, h, Option.isNone_some, Bool.and_false, Bool.false_and]

end Book

/-- The library has the fixtures under their names, and `:` and `;` have their own meaning. -/
structure Supplies (lib : List Definition) (kit : Fixture → Addr) : Prop where
  fixture : ∀ w : Fixture, (lib.find? fun f => Text.same (Text.encode w.name) f.name).map
    (fun f => (f.body, f.immediate)) = some (kit w, false)
  colon : (lib.find? fun f => Text.same (Text.encode Primitive.colon.name) f.name) = none
  semicolon : (lib.find? fun f => Text.same (Text.encode Primitive.semicolon.name) f.name) = none

instance (lib : List Definition) (kit : Fixture → Addr) : Decidable (Supplies lib kit) :=
  decidable_of_iff (_ ∧ _ ∧ _)
    ⟨fun h => ⟨h.1, h.2.1, h.2.2⟩, fun h => ⟨h.fixture, h.colon, h.semicolon⟩⟩

theorem Supplies.exists_of_fixture {lib : List Definition} {kit : Fixture → Addr}
    (h : Supplies lib kit) (w : Fixture) : ∃ f,
      (lib.find? fun f => Text.same (Text.encode w.name) f.name) = some f ∧ f.body = kit w ∧
        f.immediate = false := by
  obtain ⟨f, hfind, hpair⟩ := Option.map_eq_some_iff.1 (h.fixture w)
  exact ⟨f, hfind, congrArg Prod.fst hpair, congrArg Prod.snd hpair⟩

namespace Dictionary

variable {d d' : Dictionary} {limit : Addr} {kit : Fixture → Addr} {lib fs : List Definition}
  {f : Definition} {book : Book} {top : Nat} {code : List Cell} {ws : List (List UInt8)}
  {text : List UInt8} {s : Span} {x : Holding} {v w : Cell}

/-- Nothing is compiled, and above the words of the library there are the entries of the book. -/
structure Recorded (d : Dictionary) (limit : Addr) (kit : Fixture → Addr) (lib fs : List Definition)
    (book : Book) : Prop where
  furnished : d.Furnished limit kit
  linked : d.Linked (fs ++ lib) d.here.toNat
  resting : d.Resting (fs ++ lib)
  shelved : d.Shelved limit.toNat fs book d.here.toNat
  immediate_eq : ∀ f ∈ fs, f.immediate = false
  free : ∀ f ∈ fs, Book.isFree lib f.name = true

namespace Recorded

theorem of_inputOnly (h : d.Recorded limit kit lib fs book) (hd : d.InputOnly d') :
    d'.Recorded limit kit lib fs book where
  furnished := h.furnished.of_inputOnly hd
  linked := by
    rw [hd.here_eq]
    exact h.linked.of_inputOnly hd
  resting := h.resting.of_inputOnly hd
  shelved := by
    have hlimit := (h.furnished.hasCode .rot).le
    have hend := (h.furnished.hasCode .rot).le_limit
    rw [toNat_firstEntry] at hlimit
    rw [hd.here_eq]
    exact h.shelved.of_agreeOn (hd.agreeOn_above.mono (by omega) (Nat.le_of_lt d.here.toNat_lt))
      d.here.toNat_lt
  immediate_eq := h.immediate_eq
  free := h.free

/-- A text that is not free is no name of the book, but may be one of the library. -/
theorem find?_of_not_free (h : d.Recorded limit kit lib fs book)
    (htext : Book.isFree lib text = false) : ((fs ++ lib).find? fun f => Text.same text f.name) =
      lib.find? fun f => Text.same text f.name := by
  rw [List.find?_append, List.find?_eq_none.2, Option.none_or]
  intro f hf hsame
  have hfree := h.free f hf
  rw [← Book.isFree_eq_of_same hsame, htext] at hfree
  cases hfree

/-- A definition that was made goes to the book. -/
theorem cons (h : d.Recorded limit kit lib fs book)
    (hmade : d.Made d' limit kit (fs ++ lib) d.here.toNat f code ws)
    (hfree : Book.isFree lib f.name = true) (hx : x.cells f.body = code ++ [exitCell] ∨ x = .code) :
    d'.Recorded limit kit lib (f :: fs) ((f.name, x) :: book) := by
  have hlimit := (h.furnished.hasCode .rot).le
  have hend := (h.furnished.hasCode .rot).le_limit
  rw [toNat_firstEntry] at hlimit
  have hlt := (hmade.linked.chained.holds_of_mem List.mem_cons_self).addr_lt_body
  have hle := hmade.le_addr
  have hhere := hmade.toNat_here
  refine ⟨hmade.furnished, hmade.linked, hmade.resting, ?_, ?_, ?_⟩
  · have holder : d'.Shelved limit.toNat fs book f.addr.toNat :=
      (h.shelved.of_agreeOn (hmade.agreeOn.mono (by omega) (Nat.le_refl _)) d.here.toNat_lt).mono hle
    rcases hx with hx | rfl
    · refine .cons ?_ (by omega) ?_ holder
      · rw [hx]
        exact hmade.cellsAt
      · rw [hx, List.length_append]
        show f.body.toNat + 2 * (code.length + 1) ≤ _
        omega
    · exact .cons trivial (by omega) (by
        show f.body.toNat + 0 ≤ _
        omega) holder
  · exact List.forall_mem_cons.2 ⟨hmade.immediate_eq, h.immediate_eq⟩
  · exact List.forall_mem_cons.2 ⟨hfree, h.free⟩

/-- A variable of the book has its cell in memory, inside of its own entry. -/
theorem exists_of_var (h : d.Recorded limit kit lib fs book)
    (hx : book.holding? text = some (.var v)) : ∃ f e,
      (fs.find? fun f => Text.same text f.name) = some f ∧
      (f, e) ∈ extents d.here.toNat (fs ++ lib) ∧ d.CellsAt f.body ((Holding.var v).cells f.body) ∧
      f.body.toNat + 10 ≤ e ∧ e ≤ d.here.toNat ∧ limit.toNat ≤ f.body.toNat ∧
      (dataAddr f.body).toNat = f.body.toNat + 6 ∧ d.readCell (dataAddr f.body) = v := by
  obtain ⟨f, e, hfind, hmem, hcells, hend, hle, hlimit⟩ := h.shelved.exists_of_holding? hx
  have htop := d.here.toNat_lt
  have hlength : f.body.toNat + 10 ≤ e := hend
  exact ⟨f, e, hfind, mem_extents_append hmem, hcells, hlength, hle, hlimit,
    toNat_dataAddr (by omega), (cellsAt_var_iff.1 hcells).2.1⟩

theorem of_var (h : d.Recorded limit kit lib fs book) (hx : book.holding? text = some (.var v))
    (hfind : (fs.find? fun f => Text.same text f.name) = some f) : ∃ e,
      (f, e) ∈ extents d.here.toNat (fs ++ lib) ∧ d.CellsAt f.body ((Holding.var v).cells f.body) ∧
      f.body.toNat + 10 ≤ e ∧ e ≤ d.here.toNat ∧ limit.toNat ≤ f.body.toNat ∧
      (dataAddr f.body).toNat = f.body.toNat + 6 ∧ d.readCell (dataAddr f.body) = v := by
  obtain ⟨f', e, hfind', hcell⟩ := h.exists_of_var hx
  obtain rfl : f' = f := Option.some.inj (hfind'.symm.trans hfind)
  exact ⟨e, hcell⟩

/-- When the cell of a variable is written, that is recorded. -/
theorem assign (h : d.Recorded limit kit lib fs book) (hx : book.holding? text = some (.var v))
    (hfind : (fs.find? fun f => Text.same text f.name) = some f) :
    (d.writeCell (dataAddr f.body) w).Recorded limit kit lib fs (book.assign text w) := by
  obtain ⟨e, hmem, -, hend, hle, hlimit, hnum, -⟩ := h.of_var hx hfind
  have htop := d.here.toNat_lt
  have hfirst := h.furnished.ready.le_here
  have hcap := h.furnished.ready.here_lt
  have hrot := (h.furnished.hasCode .rot).le
  have hrotEnd := (h.furnished.hasCode .rot).le_limit
  rw [toNat_firstEntry] at hrot
  have hwithin := d.within_writeCell w (a := dataAddr f.body) (by omega)
  rw [hnum] at hwithin
  have hhere := hwithin.here_eq (by omega)
  have hlinked := h.linked.of_within hwithin hmem h.linked.body_le (by omega) (by omega) (by omega)
  refine ⟨?_, ?_, hwithin.resting (by omega) h.resting, ?_, h.immediate_eq, h.free⟩
  · refine h.furnished.of_agreeOn (hwithin.below.mono (by omega) (by omega)) ⟨?_, ?_⟩ ?_
    · rw [hhere]
      exact hfirst
    · rw [hhere, capacity_writeCell]
      exact hcap
    · rw [hhere]
      exact h.furnished.limit_le
  · rw [hhere]
    exact hlinked
  · rw [hhere]
    exact h.shelved.assign hx hfind hwithin (d.readCell_writeCell w (by omega)) htop

end Recorded

end Dictionary

namespace Machine

open Dictionary

variable {H : Type} {hooks : Hooks H} {call : Interpreter H} {n : Nat} {m : Machine H}
  {limit : Addr} {kit : Fixture → Addr} {lib fs : List Definition} {book : Book} {name : Span}
  {w : Fixture} {x : Holding} {v : Cell}

section Resting

variable (h : m.dictionary.Recorded limit kit lib fs book)

include h

theorem interpretWord_of_number? (hv : Book.number? lib (m.dictionary.text name) = some v) :
    interpretWord hooks call n name m = push v m := by
  obtain ⟨hlib, hprimitive, hread, hfree⟩ := Book.isFree_eq_false_of_number? hv
  have hmeaning := h.linked.meaning_eq_unknown (h.linked.shows_of_resting h.resting)
    ((h.find?_of_not_free hfree).trans hlib) hprimitive
  rw [interpretWord_eq_interpretLiteral hmeaning (by rw [h.linked.base_eq, hread]),
    interpretLiteral_of_not_compiling h.resting.compiling_eq]

/-- A fixture is executed where its code is. -/
theorem interpretWord_of_fixture (hlib : Supplies lib kit)
    (htext : m.dictionary.text name = Text.encode w.name) :
    interpretWord hooks call n name m = execute hooks call n (kit w) m := by
  obtain ⟨f, hfind, hbody, himmediate⟩ := hlib.exists_of_fixture w
  rw [← htext] at hfind
  have hfree : Book.isFree lib (m.dictionary.text name) = false := by
    rw [Book.isFree, hfind]
    rfl
  have hmeaning := h.linked.meaning_of_find?_eq_some (h.linked.shows_of_resting h.resting)
    ((h.find?_of_not_free hfree).trans hfind)
  rw [hbody] at hmeaning
  exact interpretWord_eq_execute hmeaning (.inl h.resting.compiling_eq)

/-- A name of the book is executed where the code of its newest entry is. -/
theorem interpretWord_of_find?_eq_some {f : Definition}
    (hfind : (fs.find? fun f => Text.same (m.dictionary.text name) f.name) = some f) :
    interpretWord hooks call n name m = execute hooks call n f.body m := by
  have hall : ((fs ++ lib).find? fun f => Text.same (m.dictionary.text name) f.name) = some f := by
    rw [List.find?_append, hfind, Option.some_or]
  exact interpretWord_eq_execute
    (h.linked.meaning_of_find?_eq_some (h.linked.shows_of_resting h.resting) hall)
    (.inl h.resting.compiling_eq)

/-- The primitive `:` begins a definition. -/
theorem interpretWord_of_colon (hlib : Supplies lib kit)
    (htext : m.dictionary.text name = Text.encode Primitive.colon.name) :
    interpretWord hooks call n name m = execute hooks call n Primitive.colon.token m := by
  have hprimitive : Primitive.ofName? (m.dictionary.text name) = some .colon := by
    rw [htext]
    decide
  have hcolon := hlib.colon
  rw [← htext] at hcolon
  have hmeaning := h.linked.meaning_of_primitive (h.linked.shows_of_resting h.resting)
    ((h.find?_of_not_free (Book.isFree_of_primitive hprimitive)).trans hcolon) hprimitive
  exact interpretWord_eq_execute hmeaning (.inl h.resting.compiling_eq)

end Resting

end Machine

end ThreadedForth
