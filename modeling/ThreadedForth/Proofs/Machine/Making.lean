import ThreadedForth.Proofs.Dictionary.Book
import ThreadedForth.Proofs.Dictionary.Reading
import ThreadedForth.Proofs.Machine.Beginning
import ThreadedForth.Proofs.Machine.Keywords

/-!
# Words that make variables and constants

The words `variable` and `constant` run `:` and `;` themselves, and in between they add the cells of
the new body one by one. They and the words that read and change a variable are words of the language
(`Fixture`), made of each other and of the tools. While a body is made, the new definition is
`Making`; when it is finished, it is `Made`. What `returns_var` and `returns_const` make are bodies
with the cells of a variable that holds zero and of a constant.
-/

set_option autoImplicit false

namespace ThreadedForth

/-- A word with which variables and constants are made, read and changed. -/
inductive Fixture where
  | tool (t : Tool)
  | rot | addStore | var | const
deriving DecidableEq

instance : Enumerated Fixture where
  values := [.rot, .addStore, .var, .const] ++ Enumerated.values.map .tool
  mem_values w := by
    cases w with
    | tool t => exact List.mem_append_right _ (List.mem_map_of_mem (Enumerated.mem_values t))
    | _ => decide

namespace Fixture

/-- The names by which they are called. -/
def name : Fixture → String
  | tool .fetch => "@"
  | tool .store => "!"
  | tool .here => "here"
  | tool .allot => "allot"
  | tool .comma => ","
  | tool .over_ => "over"
  | rot => "rot"
  | addStore => "+!"
  | var => "variable"
  | const => "constant"

variable (kit : Fixture → Addr)

/-- Adds a cell with a small number. -/
def keep (v : Cell) : List Cell := [shortLiteral v, (kit (tool .comma)).toInt16]

/-- The code of a fixture. The others are called where `kit` says. -/
def code : Fixture → List Cell
  | tool t => t.code fun t => kit (tool t)
  | rot => [Primitive.toReturn.token.toInt16, operatorCell .swap,
      Primitive.fromReturn.token.toInt16, operatorCell .swap, exitCell]
  | addStore => [operatorCell .dup, (kit (tool .fetch)).toInt16, (kit rot).toInt16,
      operatorCell .add, operatorCell .swap, (kit (tool .store)).toInt16, exitCell]
  | var => Primitive.colon.token.toInt16 :: (keep kit Primitive.literal.token.toInt16 ++
      ([(kit (tool .here)).toInt16, shortLiteral 4, operatorCell .add,
        (kit (tool .comma)).toInt16] ++ (keep kit exitCell ++ (keep kit 0 ++
          [Primitive.semicolon.token.toInt16, exitCell]))))
  | const => Primitive.colon.token.toInt16 :: operatorCell .swap ::
      (keep kit Primitive.literal.token.toInt16 ++
        [(kit (tool .comma)).toInt16, Primitive.semicolon.token.toInt16, exitCell])

end Fixture

namespace Dictionary

variable {d0 d d' : Dictionary} {limit : Addr} {kit : Fixture → Addr} {fs : List Definition}
  {f : Definition} {top : Nat} {code : List Cell} {vs : List Cell} {ws : List (List UInt8)}

/-- The fixtures have their code below a limit, and what is compiled goes above it. -/
structure Furnished (d : Dictionary) (limit : Addr) (kit : Fixture → Addr) : Prop where
  ready : d.Ready
  limit_le : limit.toNat ≤ d.here.toNat
  hasCode : ∀ w, d.HasCode limit (kit w) (w.code kit)

instance (d : Dictionary) (limit : Addr) (kit : Fixture → Addr) :
    Decidable (d.Furnished limit kit) :=
  decidable_of_iff (_ ∧ _ ∧ _)
    ⟨fun h => ⟨h.1, h.2.1, h.2.2⟩, fun h => ⟨h.ready, h.limit_le, h.hasCode⟩⟩

namespace Furnished

theorem equipped (h : d.Furnished limit kit) : d.Equipped limit fun t => kit (.tool t) :=
  ⟨h.ready, h.limit_le, fun t => h.hasCode (.tool t)⟩

theorem of_agreeOn (h : d.Furnished limit kit) (hd : d.AgreeOn d' 96 limit.toNat)
    (hready : d'.Ready) (hlimit : limit.toNat ≤ d'.here.toNat) : d'.Furnished limit kit :=
  ⟨hready, hlimit, fun w => (h.hasCode w).of_agreeOn hd⟩

theorem of_inputOnly (h : d.Furnished limit kit) (hd : d.InputOnly d') : d'.Furnished limit kit := by
  refine h.of_agreeOn ?_ (hd.ready h.ready) ?_
  · exact hd.agreeOn_above.mono (Nat.le_refl _) (Nat.le_of_lt limit.toNat_lt)
  · rw [hd.here_eq]
    exact h.limit_le

end Furnished

/-! ## The definition that is made -/

/-- Since `d0` the definition `f` was begun after the others, which lie below `top`. It has its code so
far, and the words `ws` are still to be read. -/
structure Making (d0 d : Dictionary) (limit : Addr) (kit : Fixture → Addr) (fs : List Definition)
    (top : Nat) (f : Definition) (code : List Cell) (ws : List (List UInt8)) : Prop where
  furnished : d.Furnished limit kit
  limit_le_top : limit.toNat ≤ top
  unfinished : d.Unfinished fs top f code
  reading : d.Reading ws
  leavesBelow : d0.LeavesBelow d top

/-- Since `d0` the definition `f` was made after the others, which lie below `top`. -/
structure Made (d0 d : Dictionary) (limit : Addr) (kit : Fixture → Addr) (fs : List Definition)
    (top : Nat) (f : Definition) (code : List Cell) (ws : List (List UInt8)) : Prop where
  furnished : d.Furnished limit kit
  linked : d.Linked (f :: fs) d.here.toNat
  resting : d.Resting (f :: fs)
  reading : d.Reading ws
  agreeOn : d0.AgreeOn d 96 top
  le_addr : top ≤ f.addr.toNat
  immediate_eq : f.immediate = false
  cellsAt : d.CellsAt f.body (code ++ [exitCell])
  toNat_here : d.here.toNat = f.body.toNat + 2 * code.length + 2

namespace Making

theorem of_inputOnly {ws' : List (List UInt8)} (h : d0.Making d limit kit fs top f code ws)
    (hd : d.InputOnly d') (hreading : d'.Reading ws') :
    d0.Making d' limit kit fs top f code ws' where
  furnished := h.furnished.of_inputOnly hd
  limit_le_top := h.limit_le_top
  unfinished := h.unfinished.of_inputOnly hd
  reading := hreading
  leavesBelow := h.leavesBelow.trans (hd.leavesBelow h.unfinished.linked.limit_le)

/-- Cells are added to the code. -/
theorem append (h : d0.Making d limit kit fs top f code ws) (hd : vs.forM append d = .ok () d') :
    d0.Making d' limit kit fs top f (code ++ vs) ws := by
  have hleaves := h.unfinished.leavesBelow_of_append hd
  have hunfinished := h.unfinished.append hd
  refine ⟨?_, h.limit_le_top, hunfinished, ?_, h.leavesBelow.trans hleaves⟩
  · exact h.furnished.of_agreeOn (hleaves.agreeOn.mono (Nat.le_refl _) h.limit_le_top)
      hunfinished.progress.ready (Nat.le_trans h.limit_le_top hleaves.le_here)
  · exact h.reading.of_agreeOn (drafts_forM_append h.unfinished.progress.ready hd).agreeOn_input

/-- The definition is finished. -/
theorem made (h : d0.Making d limit kit fs top f code ws) (hd : d.Publishes d' f code)
    (hlinked : d'.Linked (f :: fs) d'.here.toNat) (hresting : d'.Resting (f :: fs)) :
    d0.Made d' limit kit fs top f code ws := by
  have hbelow : d.AgreeOn d' 96 top := hd.agreeOn_below.mono (Nat.le_refl _) h.unfinished.le_addr
  have hlt := h.unfinished.progress.holds.addr_lt_body
  have hle := h.unfinished.le_addr
  have hlimit := h.limit_le_top
  have hhere := hd.toNat_here
  refine ⟨?_, hlinked, hresting, h.reading.of_agreeOn hd.agreeOn_input,
    h.leavesBelow.agreeOn.trans hbelow, hle, h.unfinished.immediate_eq, hd.cellsAt, hhere⟩
  exact h.furnished.of_agreeOn (hbelow.mono (Nat.le_refl _) hlimit) hd.ready (by omega)

end Making

end Dictionary

namespace Machine

open Dictionary

variable {H : Type} {hooks : Hooks H} {call : Interpreter H} {d0 d d' : Dictionary}
  {limit a body addr : Addr} {kit : Fixture → Addr} {fs : List Definition} {f : Definition}
  {top : Nat} {code vs cs : List Cell} {v w x : Cell} {word : List UInt8} {ws : List (List UInt8)}
  {Q R : Dictionary → List Cell → Prop}

/-! ## Words that change a variable -/

/-- A fixture that is called comes back. -/
theorem returns_fixture (h : d.Furnished limit kit) (u : Fixture)
    (hcode : d.HasCode limit a ((kit u).toInt16 :: cs)) (hcallee : Returns hooks call d vs (kit u) R)
    (hrest : ∀ d' vs', R d' vs' → Returns hooks call d' vs' (a + cellSize) Q) :
    Returns hooks call d vs a Q :=
  returns_call hcode.readCell_eq hcode.ne_zero (UInt16.le_iff_toNat_le.2 (h.hasCode u).le) hcallee
    hrest

/-- The third cell comes to the top. -/
theorem returns_rot (h : d.Furnished limit kit) :
    Returns hooks call d (x :: w :: v :: vs) (kit .rot) fun d' vs' =>
      d' = d ∧ vs' = v :: x :: w :: vs := by
  have hcode := h.hasCode .rot
  have hthree := hcode.cellsAt
  refine returns_under ⟨hthree.1, hthree.2.1, hthree.2.2.1, trivial⟩
    (fun s s' => of_apply_swap_eq_ok) ?_
  refine returns_swap hcode.tail.tail.tail.readCell_eq ?_
  exact returns_exit hcode.tail.tail.tail.tail.readCell_eq ⟨rfl, rfl⟩

/-- The number is added to the cell above the limit. -/
theorem returns_addStore (h : d.Furnished limit kit) (hlimit : limit.toNat ≤ addr.toNat)
    (htop : addr.toNat + 1 < 65536) :
    Returns hooks call d (addr.toInt16 :: v :: vs) (kit .addStore) fun d' vs' =>
      d' = d.writeCell addr (d.readCell addr + v) ∧ vs' = vs := by
  have hcode := h.hasCode .addStore
  have hequipped := h.equipped
  refine returns_dup hcode.readCell_eq ?_
  refine returns_fixture h (.tool .fetch) hcode.tail (returns_fetchWord hequipped) ?_
  rintro d _ ⟨rfl, rfl⟩
  refine returns_fixture h .rot hcode.tail.tail (returns_rot h) ?_
  rintro d _ ⟨rfl, rfl⟩
  refine returns_binary (f := (· + ·)) rfl hcode.tail.tail.tail.readCell_eq ?_
  refine returns_swap hcode.tail.tail.tail.tail.readCell_eq ?_
  refine returns_fixture h (.tool .store) hcode.tail.tail.tail.tail.tail
    (returns_storeWord hequipped hlimit htop) ?_
  rintro _ _ ⟨rfl, rfl⟩
  have hcode' := hcode.of_agreeOn (d.agreeOn_writeCell (d.readCell addr + v) htop (.inr hlimit))
  rw [UInt16.toUInt16_toInt16]
  exact returns_exit hcode'.tail.tail.tail.tail.tail.tail.readCell_eq ⟨rfl, rfl⟩

/-! ## Parts of the words that make others -/

/-- A definition that was begun is made. -/
theorem Started.making {m m1 : Machine H} (h : m.Started m1 fs top f)
    (hf : m.dictionary.Furnished limit kit) (hlimit : limit.toNat ≤ top)
    (hwords : m.afterWord.dictionary.Reading ws) :
    m.dictionary.Making m1.dictionary limit kit fs top f [] ws := by
  have hleaves := h.leavesBelow
  refine ⟨?_, hlimit, h.unfinished, hwords.of_agreeOn h.agreeOn, hleaves⟩
  exact hf.of_agreeOn (hleaves.agreeOn.mono (Nat.le_refl _) hlimit) h.unfinished.progress.ready
    (Nat.le_trans hlimit hleaves.le_here)

/-- `:` takes the next word as the name of a definition. -/
theorem returns_colon (hcode : d.HasCode limit a (Primitive.colon.token.toInt16 :: cs))
    (h : d.Furnished limit kit) (hlinked : d.Linked fs top) (hlimit : limit.toNat ≤ top)
    (hresting : d.Resting fs) (hreading : d.Reading (word :: ws))
    (hrest : ∀ f d', f.name = word → d.Making d' limit kit fs top f [] ws →
      d'.HasCode limit (a + cellSize) cs →
      Returns hooks call d' (f.addr.toInt16 :: vs) (a + cellSize) Q) :
    Returns hooks call d vs a Q := by
  have hcap : 16 ≤ d.capacity := Nat.le_trans (by decide) hlinked.le_capacity
  obtain ⟨hinput, hnext, hwords⟩ := hreading.cons hcap
  refine returns_of_perform (x := colon hooks call) hcode.readCell_eq (fun _ => rfl)
    (fun n s returns host m hs hm => ?_) fun n s returns host m hs hm => ?_
  · cases n with
    | zero =>
        rw [colon_eq_bind] at hm
        obtain ⟨_, m1, -, hm1⟩ := exists_of_bind_eq_ok hm
        cases hm1
    | succ n =>
        rw [colon_eq_of_hasInput hooks call n hreading.buffered hinput] at hm
        obtain ⟨f, hstarted⟩ := exists_started_of_eq_ok (m := ⟨d, s, returns, a, host⟩) hlinked
          hresting hreading.buffered hinput hm
        rcases m with ⟨d', s', returns', ip', host'⟩
        obtain rfl : returns' = returns := hstarted.returns_eq
        obtain rfl : ip' = a := hstarted.ip_eq
        obtain rfl : host' = host := hstarted.host_eq
        have hbelow := hstarted.leavesBelow.agreeOn.mono (Nat.le_refl _) hlimit
        refine ⟨d', s', rfl, Stack.capacity_of_push? hstarted.push_eq, ?_⟩
        rw [Stack.cells_of_push? hstarted.push_eq, hs]
        exact hrest f d' (hstarted.name_eq.trans hnext) (hstarted.making h hlimit hwords)
          (hcode.of_agreeOn hbelow).tail
  · cases n with
    | zero =>
        rw [colon_eq_bind] at hm
        have hnever : NeverExits (noteEntry >>= fun _ => awaitWord hooks call 0 >>= beginWord) :=
          neverExits_noteEntry.bind fun _ => NeverExits.bind (fun m m' h => by cases h)
            neverExits_beginWord
        exact hnever _ _ hm
    | succ n =>
        rw [colon_eq_of_hasInput hooks call n hreading.buffered hinput] at hm
        exact (neverExits_noteEntry.bind fun _ => neverExits_beginNext) _ _ hm

/-- `;` finishes the definition that is made. -/
theorem returns_semicolon (hcode : d.HasCode limit a (Primitive.semicolon.token.toInt16 :: cs))
    (h : d0.Making d limit kit fs top f code ws)
    (hrest : ∀ d', d0.Made d' limit kit fs top f code ws → d'.HasCode limit (a + cellSize) cs →
      Returns hooks call d' vs (a + cellSize) Q) :
    Returns hooks call d (f.addr.toInt16 :: vs) a Q := by
  refine returns_of_perform (x := fun _ => semicolon) hcode.readCell_eq (fun _ => rfl)
    (fun n s returns host m hs hm => ?_) fun n s returns host m hs => neverExits_semicolon _ _
  obtain ⟨data, htop, hdata, hcap⟩ := Stack.exists_pop? hs
  have hended := ended_of_semicolon_eq_ok (m := ⟨d, s, returns, a, host⟩) h.unfinished htop hm
  rcases m with ⟨d', s', returns', ip', host'⟩
  obtain rfl : returns' = returns := hended.returns_eq
  obtain rfl : ip' = a := hended.ip_eq
  obtain rfl : host' = host := hended.host_eq
  obtain rfl : data = s' := congrArg Prod.snd (Option.some.inj (htop.symm.trans hended.pop_eq))
  refine ⟨d', data, rfl, hcap, ?_⟩
  rw [hdata]
  have hbelow : d.AgreeOn d' 96 limit.toNat := hended.publishes.agreeOn_below.mono (Nat.le_refl _)
    (Nat.le_trans h.limit_le_top h.unfinished.le_addr)
  exact hrest d' (h.made hended.publishes hended.linked hended.resting)
    (hcode.of_agreeOn hbelow).tail

/-- The top cell is added to the code. -/
theorem returns_comma (h : d0.Making d limit kit fs top f code ws)
    (hcode : d.HasCode limit a ((kit (.tool .comma)).toInt16 :: cs))
    (hrest : ∀ d', d0.Making d' limit kit fs top f (code ++ [v]) ws →
      d'.HasCode limit (a + cellSize) cs → Returns hooks call d' vs (a + cellSize) Q) :
    Returns hooks call d (v :: vs) a Q := by
  have hequipped := h.furnished.equipped
  refine returns_fixture h.furnished (.tool .comma) hcode (returns_commaWord hequipped) ?_
  rintro d' _ ⟨happend, rfl⟩
  rw [← forM_append_singleton] at happend
  have hext := extends_of_forM_append h.furnished.ready happend
  exact hrest d' (h.append happend) (hcode.of_agreeOn (hequipped.agreeOn hext)).tail

/-- A small number is added to the code. -/
theorem returns_keep (h : d0.Making d limit kit fs top f code ws)
    (hv : Token.ofLiteral? v = some (.literal v))
    (hcode : d.HasCode limit a (Fixture.keep kit v ++ cs))
    (hrest : ∀ d', d0.Making d' limit kit fs top f (code ++ [v]) ws →
      d'.HasCode limit (a + cellSize + cellSize) cs →
      Returns hooks call d' vs (a + cellSize + cellSize) Q) : Returns hooks call d vs a Q :=
  returns_literal hv hcode.readCell_eq (returns_comma h hcode.tail hrest)

/-! ## The words that make others -/

/-- `variable` makes a variable with the next word as its name. It holds zero. -/
theorem returns_var (h : d.Furnished limit kit) (hlinked : d.Linked fs top)
    (hlimit : limit.toNat ≤ top) (hresting : d.Resting fs) (hreading : d.Reading (word :: ws)) :
    Returns hooks call d vs (kit .var) fun d' vs' => vs' = vs ∧ ∃ f, f.name = word ∧
      d.Made d' limit kit fs top f (longLiteral (dataAddr f.body).toInt16 ++ [exitCell, 0]) ws := by
  refine returns_colon (h.hasCode .var) h hlinked hlimit hresting hreading
    fun f d1 hname h1 hcode1 => ?_
  refine returns_keep h1 (by decide) hcode1 fun d2 h2 hcode2 => ?_
  refine returns_fixture h2.furnished (.tool .here) hcode2
    (returns_hereWord h2.furnished.equipped) ?_
  rintro d2 _ ⟨rfl, rfl⟩
  refine returns_literal rfl hcode2.tail.readCell_eq ?_
  refine returns_binary (f := (· + ·)) rfl hcode2.tail.tail.readCell_eq ?_
  -- this is where the cell of the variable will be
  have hdata : d2.here.toInt16 + 4 = (dataAddr f.body).toInt16 := by
    rw [h2.unfinished.progress.here_eq]
    show (f.body + cellSize).toInt16 + (4 : Addr).toInt16 = (f.body + 6).toInt16
    rw [← UInt16.toInt16_add, UInt16.add_assoc]
    rfl
  rw [hdata]
  refine returns_comma h2 hcode2.tail.tail.tail fun d3 h3 hcode3 => ?_
  refine returns_keep h3 (by decide) hcode3 fun d4 h4 hcode4 => ?_
  refine returns_keep h4 (by decide) hcode4 fun d5 h5 hcode5 => ?_
  refine returns_semicolon hcode5 h5 fun d6 h6 hcode6 => ?_
  exact returns_exit hcode6.readCell_eq ⟨rfl, f, hname, h6⟩

/-- `constant` makes a constant of the top cell, with the next word as its name. -/
theorem returns_const (h : d.Furnished limit kit) (hlinked : d.Linked fs top)
    (hlimit : limit.toNat ≤ top) (hresting : d.Resting fs) (hreading : d.Reading (word :: ws)) :
    Returns hooks call d (v :: vs) (kit .const) fun d' vs' => vs' = vs ∧ ∃ f, f.name = word ∧
      d.Made d' limit kit fs top f (longLiteral v) ws := by
  refine returns_colon (h.hasCode .const) h hlinked hlimit hresting hreading
    fun f d1 hname h1 hcode1 => ?_
  refine returns_swap hcode1.readCell_eq ?_
  refine returns_keep h1 (by decide) hcode1.tail fun d2 h2 hcode2 => ?_
  refine returns_comma h2 hcode2 fun d3 h3 hcode3 => ?_
  refine returns_semicolon hcode3 h3 fun d4 h4 hcode4 => ?_
  exact returns_exit hcode4.readCell_eq ⟨rfl, f, hname, h4⟩

end Machine

end ThreadedForth
