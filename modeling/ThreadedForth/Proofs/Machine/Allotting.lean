import ThreadedForth.Prelude
import ThreadedForth.Proofs.Machine.Fuel
import ThreadedForth.Proofs.Machine.Keywords
import ThreadedForth.Proofs.Machine.Reaches

/-!
# The words that take room

The words `allot`, `,` and `c,` are made of stores and of sums with the cell `here`, where the requests
to the dictionary compare a signed amount with the room. They agree: `allot` ends as
`Dictionary.allot` does, and `,` and `c,` end as `Dictionary.append` and `Dictionary.appendByte` do
(`allotting_words`).

There is one exception. The address `here` can lie in the code of the words themselves, if it was
moved back. Then `,` can overwrite an exit by which it is still to leave, and goes on with whatever it
wrote there (`comma_loses_exit`).
-/

set_option autoImplicit false

namespace ThreadedForth

namespace Tool

/-- The code of the word `c!`. -/
def storeByteCode : List Cell := [shortLiteral 0, Primitive.store.token.toInt16, exitCell]

/-- The code of the word `c,`. -/
def commaByteCode (t : Tool → Addr) (storeByte : Addr) : List Cell :=
  [(t here).toInt16, shortLiteral 1, (t allot).toInt16, storeByte.toInt16, exitCell]

end Tool

namespace Dictionary

variable {d d' : Dictionary} {limit a : Addr} {v : Cell} {cs : List Cell}

/-- Adds the low byte of a cell at the end. -/
def appendByte (v : Cell) : DictionaryM Unit := do
  let a ← allot 1
  modify fun d => d.writeByte a (Cell.lowByte v)

/-- The exit at the end of code that begins at an address is in memory. -/
def KeepsExit (d : Dictionary) (a : Addr) (cs : List Cell) : Prop :=
  d.readCell (after a cs.dropLast) = exitCell

instance (d : Dictionary) (a : Addr) (cs : List Cell) : Decidable (d.KeepsExit a cs) :=
  inferInstanceAs (Decidable (_ = _))

end Dictionary

namespace Machine

open Dictionary

variable {H : Type} {hooks : Hooks H} {call : Interpreter H} {C R : Nat} {host : H}
  {d d' : Dictionary} {limit a storeByte commaByte : Addr} {t : Tool → Addr} {v addr : Cell}
  {vs rs cs : List Cell} {T : Machine H → Prop}

/-! ## Stores with two ends -/

variable (hooks call) in
/-- The code stops with an error and leaves this dictionary. -/
def Fails (d : Dictionary) (e : Error) (m : Machine H) : Prop :=
  ∃ m', Halts hooks call m (.error (.error e) m') ∧ m'.dictionary = d

/-- To write to `here` is to ask for the room up to there, and the request can be refused. -/
theorem reaches_store_here (h : d.readCell a = Primitive.store.token.toInt16)
    (hok : ∀ x d', allot (v - d.reserved .here) d = .ok x d' →
      Reaches hooks call C R host d' vs rs (a + cellSize) T)
    (herror : ∀ e d', allot (v - d.reserved .here) d = .error e d' →
      ∀ m, Fails hooks call d' e m → T m) :
    Reaches hooks call C R host d (1 :: SystemCell.here.addr.toInt16 :: v :: vs) rs a T := by
  rintro ⟨d, s, returns, ip, host⟩ ⟨rfl, hs, hC, hr, hR, rfl, rfl⟩
  have htoken : ∀ n, runToken hooks call n Primitive.store.token ⟨d, s, returns, ip, host⟩ = _ :=
    fun n => runToken_store_here n d s returns ip host hs (by decide)
  cases hallot : allot (v - d.reserved .here) d with
  | ok x d' =>
      rw [hallot] at htoken
      have hdrop : (s.drop 3).cells = vs := by
        rw [Stack.cells_drop, hs]
        rfl
      obtain ⟨m', hgoes, hT⟩ := hok x d' hallot ⟨d', s.drop 3, returns, ip + cellSize, host⟩
        ⟨rfl, hdrop, (s.capacity_drop 3).trans hC, hr, hR, rfl, rfl⟩
      refine ⟨m', (goes_of_runToken fun n => ?_).trans hgoes, hT⟩
      rw [nextToken_eq _ _ _ h]
      exact htoken n
  | error e d' =>
      rw [hallot] at htoken
      refine ⟨_, .refl _, herror e d' hallot _ ⟨⟨d', s.drop 3, returns, ip, host⟩, ?_, rfl⟩⟩
      refine halts_of_runToken fun n => ?_
      rw [nextToken_eq _ _ _ h]
      exact htoken n

theorem reaches_storeByte (h : d.readCell a = Primitive.store.token.toInt16)
    (hrest : Reaches hooks call C R host (d.writeByte addr.toUInt16 (Cell.lowByte v)) vs rs
      (a + cellSize) T) :
    Reaches hooks call C R host d (0 :: addr :: v :: vs) rs a T := by
  refine reaches_of_runToken (fun s returns hs hC hr hR => ?_) hrest
  refine ⟨s.drop 3, returns, fun n => ?_, ?_, (s.capacity_drop 3).trans hC, hr, hR⟩
  · rw [h, UInt16.toUInt16_toInt16, runToken_storeByte _ _ _ _ _ _ hs]
  · rw [Stack.cells_drop, hs]
    rfl

/-! ## The words -/

/-- A word that is called. What it comes to is told of the address of the call on the return stack. -/
theorem reaches_tool (hd : ∀ w, d.HasCode limit (t w) (w.code t)) (w : Tool)
    (hcode : d.HasCode limit a ((t w).toInt16 :: cs)) (hroom : rs.length < R)
    (hcallee : Reaches hooks call C R host d vs (a.toInt16 :: rs) (t w) T) :
    Reaches hooks call C R host d vs rs a T :=
  reaches_call hcode.readCell_eq (UInt16.le_iff_toNat_le.2 (hd w).le) hroom hcallee

theorem reaches_fetchWord (hd : ∀ w, d.HasCode limit (t w) (w.code t)) (hdata : vs.length + 2 ≤ C)
    (hexit : ∀ stop, d.readCell stop = exitCell →
      Reaches hooks call C R host d (d.readCell v.toUInt16 :: vs) rs stop T) :
    Reaches hooks call C R host d (v :: vs) rs (t .fetch) T := by
  have hcode := hd .fetch
  refine reaches_literal rfl hcode.readCell_eq (by rw [List.length_cons]; omega) ?_
  refine reaches_fetch hcode.tail.readCell_eq (by omega) ?_
  exact hexit _ hcode.tail.tail.readCell_eq

theorem reaches_hereWord (hd : ∀ w, d.HasCode limit (t w) (w.code t)) (hdata : vs.length + 2 ≤ C)
    (hroom : rs.length < R)
    (hexit : ∀ stop, d.readCell stop = exitCell →
      Reaches hooks call C R host d (d.here.toInt16 :: vs) rs stop T) :
    Reaches hooks call C R host d vs rs (t .here) T := by
  have hcode := hd .here
  refine reaches_literal rfl hcode.readCell_eq (by omega) ?_
  refine reaches_tool hd .fetch hcode.tail hroom ?_
  refine reaches_fetchWord hd hdata fun stop hstop => reaches_exit hstop hcode.tail.ne_zero ?_
  have hhere : d.readCell (2 : Cell).toUInt16 = d.here.toInt16 := by
    rw [here, reservedAddr, Int16.toInt16_toUInt16]
    rfl
  rw [hhere]
  exact hexit _ hcode.tail.tail.readCell_eq

theorem reaches_storeWord_here (hd : ∀ w, d.HasCode limit (t w) (w.code t))
    (hdata : vs.length + 3 ≤ C)
    (hok : ∀ x d', allot (v - d.reserved .here) d = .ok x d' → ∀ stop, d'.readCell stop = exitCell →
      Reaches hooks call C R host d' vs rs stop T)
    (herror : ∀ e d', allot (v - d.reserved .here) d = .error e d' →
      ∀ m, Fails hooks call d' e m → T m) :
    Reaches hooks call C R host d (2 :: v :: vs) rs (t .store) T := by
  have hcode := hd .store
  refine reaches_literal rfl hcode.readCell_eq (by simp; omega) ?_
  refine reaches_store_here hcode.tail.readCell_eq (fun x d' hallot => ?_) herror
  exact hok x d' hallot _ (HasCode.of_allot_eq_ok hcode hallot).tail.tail.readCell_eq

/-- The word `allot` makes its request by way of the cell `here`. -/
theorem reaches_allotWord (hd : ∀ w, d.HasCode limit (t w) (w.code t)) (hdata : vs.length + 3 ≤ C)
    (hroom : rs.length < R)
    (hok : ∀ x d', allot v d = .ok x d' → ∀ stop, d'.readCell stop = exitCell →
      Reaches hooks call C R host d' vs rs stop T)
    (herror : ∀ e d', allot v d = .error e d' → ∀ m, Fails hooks call d' e m → T m) :
    Reaches hooks call C R host d (v :: vs) rs (t .allot) T := by
  have hcode := hd .allot
  -- the sum wraps, but the difference that the store recovers is the amount again
  have hamount : v + d.reserved .here - d.reserved .here = v := Int16.add_sub_cancel _ _
  refine reaches_literal rfl hcode.readCell_eq (by rw [List.length_cons]; omega) ?_
  refine reaches_tool hd .fetch hcode.tail hroom ?_
  refine reaches_fetchWord hd (by rw [List.length_cons]; omega) fun stop hstop => ?_
  refine reaches_exit hstop hcode.tail.ne_zero ?_
  refine reaches_operator hcode.tail.tail.readCell_eq (Operator.effect?_of_binary? rfl)
    (by rw [List.length_cons]; omega) ?_
  refine reaches_literal rfl hcode.tail.tail.tail.readCell_eq (by rw [List.length_cons]; omega) ?_
  refine reaches_tool hd .store hcode.tail.tail.tail.tail hroom ?_
  refine reaches_storeWord_here hd hdata (fun x d' hallot stop hstop => ?_) fun e d' hallot => ?_
  · rw [show (v + d.readCell (2 : Cell).toUInt16) - d.reserved .here = v from hamount] at hallot
    refine reaches_exit hstop hcode.tail.tail.tail.tail.ne_zero ?_
    have hcode' := HasCode.of_allot_eq_ok hcode hallot
    exact hok x d' hallot _ hcode'.tail.tail.tail.tail.tail.readCell_eq
  · rw [show (v + d.readCell (2 : Cell).toUInt16) - d.reserved .here = v from hamount] at hallot
    exact herror e d' hallot

/-- The words `,` and `c,` up to the call of the word that stores. The address to store at is kept
under the amount. -/
theorem reaches_takeRoom {amount : Cell} {store : Addr}
    (hd : ∀ w, d.HasCode limit (t w) (w.code t))
    (hcode : d.HasCode limit a [(t .here).toInt16, shortLiteral amount, (t .allot).toInt16,
      store.toInt16, exitCell])
    (hamount : Token.ofLiteral? amount = some (.literal amount)) (hstore : Layout.firstEntry ≤ store)
    (hdata : vs.length + 5 ≤ C) (hroom : rs.length + 1 < R)
    (hok : ∀ d', allot amount d = .ok d.here d' →
      Reaches hooks call C R host d' (d.here.toInt16 :: v :: vs)
        ((a + cellSize + cellSize + cellSize).toInt16 :: rs) store T)
    (herror : ∀ e d', allot amount d = .error e d' → ∀ m, Fails hooks call d' e m → T m) :
    Reaches hooks call C R host d (v :: vs) rs a T := by
  -- the old end, the amount, and the request; the first lies under the amount all the time
  refine reaches_tool hd .here hcode (by omega) ?_
  refine reaches_hereWord hd (by rw [List.length_cons]; omega) (by rw [List.length_cons]; omega)
    fun stop hstop => reaches_exit hstop hcode.ne_zero ?_
  refine reaches_literal hamount hcode.tail.readCell_eq (by simp; omega) ?_
  refine reaches_tool hd .allot hcode.tail.tail (by omega) ?_
  refine reaches_allotWord hd (by simp; omega) (by rw [List.length_cons]; omega)
    (fun x d' hallot stop hstop => reaches_exit hstop hcode.tail.tail.ne_zero ?_) herror
  have hcode' := HasCode.of_allot_eq_ok hcode.tail.tail.tail hallot
  obtain rfl : x = d.here := (of_allot_eq_ok hallot).1
  exact reaches_call hcode'.readCell_eq hstore (by omega) (hok d' hallot)

theorem here_ne_hereAddr (hready : d.Ready) : d.here.toInt16.toUInt16 ≠ SystemCell.here.addr := by
  rw [UInt16.toUInt16_toInt16]
  intro heq
  have hle := hready.le_here
  rw [heq, toNat_firstEntry] at hle
  exact absurd hle (by decide)

/-- The word `,` adds a cell, if the exits that it then leaves by are still there. -/
theorem reaches_commaWord (hd : ∀ w, d.HasCode limit (t w) (w.code t)) (hready : d.Ready)
    (hkeeps : ∀ d', append v d = .ok () d' →
      d'.KeepsExit (t .store) (Tool.store.code t) ∧ d'.KeepsExit (t .comma) (Tool.comma.code t))
    (hdata : vs.length + 5 ≤ C) (hroom : rs.length + 1 < R)
    (hok : ∀ d', append v d = .ok () d' → ∀ stop, d'.readCell stop = exitCell →
      Reaches hooks call C R host d' vs rs stop T)
    (herror : ∀ e d', append v d = .error e d' → ∀ m, Fails hooks call d' e m → T m) :
    Reaches hooks call C R host d (v :: vs) rs (t .comma) T := by
  have hcode := hd .comma
  refine reaches_takeRoom hd hcode rfl (UInt16.le_iff_toNat_le.2 (hd .store).le) hdata hroom
    (fun d' hallot => ?_) fun e d' hallot => herror e d' (bind_eq_of_error hallot _)
  have happend : append v d = .ok () (d'.writeCell d.here v) := bind_eq_of_ok hallot _
  -- up to the store the code is as it was, and from there on the exits are what is left of it
  obtain ⟨hstore, hcomma⟩ := hkeeps _ happend
  have hcode' := HasCode.of_allot_eq_ok (hd .store) hallot
  refine reaches_literal rfl hcode'.readCell_eq (by simp; omega) ?_
  refine reaches_store hcode'.tail.readCell_eq (here_ne_hereAddr hready) ?_
  rw [UInt16.toUInt16_toInt16]
  refine reaches_exit hstore hcode.tail.tail.tail.ne_zero ?_
  exact hok _ happend _ hcomma

theorem reaches_commaByteWord (hd : ∀ w, d.HasCode limit (t w) (w.code t))
    (hstoreByte : d.HasCode limit storeByte Tool.storeByteCode)
    (hcode : d.HasCode limit a (Tool.commaByteCode t storeByte))
    (hkeeps : ∀ d', appendByte v d = .ok () d' → d'.KeepsExit storeByte Tool.storeByteCode ∧
      d'.KeepsExit a (Tool.commaByteCode t storeByte))
    (hdata : vs.length + 5 ≤ C) (hroom : rs.length + 1 < R)
    (hok : ∀ d', appendByte v d = .ok () d' → ∀ stop, d'.readCell stop = exitCell →
      Reaches hooks call C R host d' vs rs stop T)
    (herror : ∀ e d', appendByte v d = .error e d' → ∀ m, Fails hooks call d' e m → T m) :
    Reaches hooks call C R host d (v :: vs) rs a T := by
  refine reaches_takeRoom hd hcode rfl (UInt16.le_iff_toNat_le.2 hstoreByte.le) hdata hroom
    (fun d' hallot => ?_) fun e d' hallot => herror e d' (bind_eq_of_error hallot _)
  have happend : appendByte v d = .ok () (d'.writeByte d.here (Cell.lowByte v)) :=
    bind_eq_of_ok hallot _
  obtain ⟨hstore, hcomma⟩ := hkeeps _ happend
  have hcode' := HasCode.of_allot_eq_ok hstoreByte hallot
  refine reaches_literal rfl hcode'.readCell_eq (by simp; omega) ?_
  refine reaches_storeByte hcode'.tail.readCell_eq ?_
  rw [UInt16.toUInt16_toInt16]
  refine reaches_exit hstore hcode.tail.tail.tail.ne_zero ?_
  exact hok _ happend _ hcomma

/-! ## Execution -/

/-- An execution ended as a request to the dictionary: with the dictionary that the request leaves and
these cells on the data stack, or with its error and the dictionary as it is then. -/
def EndsAsRequest (capacity : Nat) (returns : Stack) (host : H) (vs : List Cell) :
    EStateM.Result Error Dictionary Unit → EStateM.Result Stop (Machine H) Unit → Prop
  | .ok _ d, r => ∃ s : Stack, s.cells = vs ∧ s.capacity = capacity ∧
      r = .ok () ⟨d, s, returns, 0, host⟩
  | .error e d, r => ∃ m, r = .error (.error e) m ∧ m.dictionary = d

variable (hooks call C R host) in
/-- The code has come to the exit, or fails, as the request to the dictionary ends. -/
def SettlesAs (vs rs : List Cell) :
    EStateM.Result Error Dictionary Unit → Machine H → Prop
  | .ok _ d, m => ∃ stop, d.readCell stop = exitCell ∧ Stands C R host d vs rs stop m
  | .error e d, m => Fails hooks call d e m

/-- Code that comes to its exit where a request succeeds, and fails where it fails, ends as the request
when it is executed. -/
theorem exists_endsAsRequest {s returns : Stack} {r : EStateM.Result Error Dictionary Unit}
    (hbody : Layout.firstEntry ≤ a) (hroom : returns.cells.length < returns.capacity)
    (h : ∀ T : Machine H → Prop, (∀ d', r = .ok () d' → ∀ stop, d'.readCell stop = exitCell →
        Reaches hooks call s.capacity returns.capacity host d' vs (0 :: returns.cells) stop T) →
      (∀ e d', r = .error e d' → ∀ m, Fails hooks call d' e m → T m) →
      Reaches hooks call s.capacity returns.capacity host d s.cells (0 :: returns.cells) a T) :
    ∃ k, ∀ n, EndsAsRequest s.capacity returns host vs r
      (execute hooks call (n + k) a ⟨d, s, returns, 0, host⟩) := by
  have hreaches : Reaches hooks call s.capacity returns.capacity host d s.cells (0 :: returns.cells) a
      (SettlesAs hooks call s.capacity returns.capacity host vs (0 :: returns.cells) r) := by
    apply h
    · rintro d' rfl stop hstop
      exact reaches_of_stands fun m hm => ⟨stop, hstop, hm⟩
    · rintro e d' rfl m hm
      exact hm
  obtain ⟨m, hsettles, hends⟩ := exists_of_reaches hbody hroom hreaches
  cases r with
  | ok u d' =>
      obtain ⟨stop, hstop, hm⟩ := hsettles
      obtain rfl := hm.data_cells
      have hcap := hm.data_capacity
      rw [← hcap] at hm
      obtain ⟨k, hk⟩ := hends .exit _ (halts_of_stands hm hstop)
      exact ⟨k, fun n => ⟨m.data, rfl, hcap, hk n⟩⟩
  | error e d' =>
      obtain ⟨m', hhalts, rfl⟩ := hsettles
      obtain ⟨k, hk⟩ := hends (.error e) m' hhalts
      exact ⟨k, fun n => ⟨_, hk n, rfl⟩⟩

variable (hooks call host) in
/-- The words that take room end as the requests to the dictionary do: they make the same changes, or
fail with the same error and change nothing. What `,` and `c,` write must leave them the exits that
are still to come. -/
theorem allotting_words {s returns : Stack} (hd : ∀ w, d.HasCode limit (t w) (w.code t))
    (hstoreByte : d.HasCode limit storeByte Tool.storeByteCode)
    (hcommaByte : d.HasCode limit commaByte (Tool.commaByteCode t storeByte)) (hready : d.Ready)
    (hs : s.cells = v :: vs) (hdata : s.depth + 4 ≤ s.capacity)
    (hreturns : returns.depth + 3 ≤ returns.capacity) :
    (∃ k, ∀ n, EndsAsRequest s.capacity returns host vs ((discard <| allot v) d)
      (execute hooks call (n + k) (t .allot) ⟨d, s, returns, 0, host⟩)) ∧
    ((∀ d', append v d = .ok () d' → d'.KeepsExit (t .store) (Tool.store.code t) ∧
        d'.KeepsExit (t .comma) (Tool.comma.code t)) →
      ∃ k, ∀ n, EndsAsRequest s.capacity returns host vs (append v d)
        (execute hooks call (n + k) (t .comma) ⟨d, s, returns, 0, host⟩)) ∧
    ((∀ d', appendByte v d = .ok () d' → d'.KeepsExit storeByte Tool.storeByteCode ∧
        d'.KeepsExit commaByte (Tool.commaByteCode t storeByte)) →
      ∃ k, ∀ n, EndsAsRequest s.capacity returns host vs (appendByte v d)
        (execute hooks call (n + k) commaByte ⟨d, s, returns, 0, host⟩)) := by
  rw [s.depth_eq, hs, List.length_cons] at hdata
  rw [returns.depth_eq] at hreturns
  have hzero : (0 :: returns.cells).length = returns.cells.length + 1 := List.length_cons
  refine ⟨?_, fun hkeeps => ?_, fun hkeeps => ?_⟩
  · refine exists_endsAsRequest (UInt16.le_iff_toNat_le.2 (hd .allot).le) (by omega) ?_
    intro T hok herror
    rw [hs]
    refine reaches_allotWord hd (by omega) (by omega) (fun x d' hallot => ?_) fun e d' hallot => ?_
    · exact hok d' (bind_eq_of_ok hallot _)
    · exact herror e d' (bind_eq_of_error hallot _)
  · refine exists_endsAsRequest (UInt16.le_iff_toNat_le.2 (hd .comma).le) (by omega) ?_
    intro T hok herror
    rw [hs]
    exact reaches_commaWord hd hready hkeeps (by omega) (by omega) hok herror
  · refine exists_endsAsRequest (UInt16.le_iff_toNat_le.2 hcommaByte.le) (by omega) ?_
    intro T hok herror
    rw [hs]
    exact reaches_commaByteWord hd hstoreByte hcommaByte hkeeps (by omega) (by omega) hok herror

/-! ## A machine with these words -/

/-- A machine with the words that take room and those of which they are made, after a line. -/
def takingMachine (line : String) : Machine Unit := lastState <|
  (do
    Prelude.interpretLines {} 100 ([2, 7, 8, 10, 15, 18, 19, 20].filterMap (Prelude.lines[·]?))
    interpretLine {} 100 (Text.encode line) : MachineM Unit Unit)
  (ofDictionary (.setUp ⟨.sparse (.zeros 65536)⟩) () {})

/-- Where the words are in it. -/
def takingKit : Tool → Addr
  | .over_ => 102
  | .fetch => 112
  | .store => 122
  | .here => 144
  | .allot => 158
  | .comma => 174

/-- A dictionary with `here` in the upper half of memory. -/
def highDictionary : Dictionary := (takingMachine "30000 allot 10000 allot").dictionary

theorem highDictionary_facts :
    (∀ w, highDictionary.HasCode 198 (takingKit w) (w.code takingKit)) ∧
      highDictionary.HasCode 198 132 Tool.storeByteCode ∧
      highDictionary.HasCode 198 188 (Tool.commaByteCode takingKit 132) ∧
      highDictionary.Ready ∧ highDictionary.here = 40198 ∧
      ((lastState (append (-30000) highDictionary)).KeepsExit 122 (Tool.store.code takingKit) ∧
        (lastState (append (-30000) highDictionary)).KeepsExit 174 (Tool.comma.code takingKit)) ∧
      (lastState (appendByte (-30000) highDictionary)).KeepsExit 132 Tool.storeByteCode ∧
        (lastState (appendByte (-30000) highDictionary)).KeepsExit 188
          (Tool.commaByteCode takingKit 132) := by
  decide +kernel

/-- An amount that takes `here` back from the upper half of memory, and a cell that is added there. -/
theorem allotting_words_high :
    (∃ k, ∀ n, EndsAsRequest 5 (.empty 3) () [] ((discard <| allot (-30000)) highDictionary)
      (execute {} (interpreter {} 20) (n + k) 158
        ⟨highDictionary, ⟨5, [-30000], 1, rfl, by decide⟩, .empty 3, 0, ()⟩)) ∧
    (∃ k, ∀ n, EndsAsRequest 5 (.empty 3) () [] (append (-30000) highDictionary)
      (execute {} (interpreter {} 20) (n + k) 174
        ⟨highDictionary, ⟨5, [-30000], 1, rfl, by decide⟩, .empty 3, 0, ()⟩)) ∧
    ∃ k, ∀ n, EndsAsRequest 5 (.empty 3) () [] (appendByte (-30000) highDictionary)
      (execute {} (interpreter {} 20) (n + k) 188
        ⟨highDictionary, ⟨5, [-30000], 1, rfl, by decide⟩, .empty 3, 0, ()⟩) := by
  obtain ⟨hd, hstoreByte, hcommaByte, hready, -, hcell, hbyte⟩ := highDictionary_facts
  have hreturns : (Stack.empty 3).depth + 3 ≤ (Stack.empty 3).capacity := by decide
  obtain ⟨hallot, hcomma, hcommaByte⟩ := allotting_words {} (interpreter {} 20) () hd hstoreByte
    hcommaByte hready (s := ⟨5, [-30000], 1, rfl, by decide⟩) rfl (by decide) hreturns
  refine ⟨hallot, hcomma fun d' h => ?_, hcommaByte fun d' h => ?_⟩
  · rw [h] at hcell
    exact hcell
  · rw [h] at hbyte
    exact hbyte

/-- A dictionary with `here` at the exit of the word `!`. -/
def movedDictionary : Dictionary := (takingMachine "-72 allot").dictionary

/-- A cell can be added at the exit of the word `!`, but not by the word `,`. It writes that cell over
the exit before it leaves, and goes on with a token that needs a value. -/
theorem comma_loses_exit :
    (∀ w, movedDictionary.HasCode 198 (takingKit w) (w.code takingKit)) ∧ movedDictionary.Ready ∧
      value? (append 1 movedDictionary) = some () ∧
      ¬ ∃ k, ∀ n, EndsAsRequest 64 (.empty 64) () [] (append 1 movedDictionary)
        (execute {} (interpreter {} 20) (n + k) (takingKit .comma)
          ⟨movedDictionary, ⟨64, [1], 1, rfl, by decide⟩, .empty 64, 0, ()⟩) := by
  have hfacts : (∀ w, movedDictionary.HasCode 198 (takingKit w) (w.code takingKit)) ∧
      movedDictionary.Ready ∧ value? (append 1 movedDictionary) = some () ∧
      error? (execute {} (interpreter {} 20) 40 (takingKit .comma)
        ⟨movedDictionary, ⟨64, [1], 1, rfl, by decide⟩, .empty 64, 0, ()⟩) =
          some (.error .stackUnderflow) := by
    decide +kernel
  obtain ⟨hd, hready, hvalue, hfails⟩ := hfacts
  refine ⟨hd, hready, hvalue, ?_⟩
  rintro ⟨k, hk⟩
  rw [eq_ok_lastState hvalue] at hk
  obtain ⟨s, -, -, hok⟩ := hk 40
  -- it fails as soon as there are steps enough, and no others change that
  have herror := (below_execute Hooks.steady_default (fun _ => .refl _) (Nat.le_add_right 40 k)
    (takingKit .comma)).eq_of_eq (eq_error_lastState hfails) fun _ => by simp
  rw [hok] at herror
  cases herror

end Machine

end ThreadedForth
