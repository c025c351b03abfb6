import ThreadedForth.Proofs.Dictionary.Extends
import ThreadedForth.Proofs.Machine.Returns

/-!
# The words that compile control flow

The words from `if` to `repeat` run while a definition is compiled. They add jumps to it, and
while it is not known how far a jump goes, the address of the cell for that is kept on the data
stack. They are words of the language themselves, and this module says what they do: `Keyword` is
one of them, and `returns_if` and those after it tell the dictionary and the stack it leaves.

They are made of a few other words (`Tool`). Where these lie in memory is a parameter.
-/

set_option autoImplicit false

namespace ThreadedForth

/-- A word of which the control words are made. -/
inductive Tool where
  | fetch | store | here | allot | comma | over_
deriving DecidableEq

/-- A control word. -/
inductive Keyword where
  | if_ | then_ | else_ | begin_ | until_ | while_ | repeat_
deriving DecidableEq

/-- A type with finitely many values. A vocabulary of words is one, and what is said of all its words can
be decided. -/
class Enumerated (α : Type) where
  values : List α
  mem_values (a : α) : a ∈ values

instance {α : Type} [Enumerated α] {P : α → Prop} [DecidablePred P] : Decidable (∀ a, P a) :=
  decidable_of_iff (∀ a ∈ Enumerated.values, P a)
    ⟨fun h a => h a (Enumerated.mem_values a), fun h a _ => h a⟩

instance : Enumerated Tool where
  values := [.fetch, .store, .here, .allot, .comma, .over_]
  mem_values w := by cases w <;> decide

instance : Enumerated Keyword where
  values := [.if_, .then_, .else_, .begin_, .until_, .while_, .repeat_]
  mem_values k := by cases k <;> decide

def exitCell : Cell := Primitive.exit.token.toInt16

def operatorCell (op : Operator) : Cell := (Primitive.operator op).token.toInt16

namespace Tool

variable (t : Tool → Addr)

/-- The code of a tool. The others are called where `t` says. -/
def code : Tool → List Cell
  | fetch => [shortLiteral 1, Primitive.fetch.token.toInt16, exitCell]
  | store => [shortLiteral 1, Primitive.store.token.toInt16, exitCell]
  | here => [shortLiteral 2, (t fetch).toInt16, exitCell]
  | allot => [shortLiteral 2, (t fetch).toInt16, operatorCell .add, shortLiteral 2,
      (t store).toInt16, exitCell]
  | comma => [(t here).toInt16, shortLiteral 2, (t allot).toInt16, (t store).toInt16, exitCell]
  | over_ => [shortLiteral 1, operatorCell .pick, exitCell]

/-- Adds a token and a cell of which the value is not known yet, and keeps its address. -/
def forward (p : Primitive) : List Cell :=
  [shortLiteral p.token.toInt16, (t comma).toInt16, (t here).toInt16, shortLiteral 0,
    (t comma).toInt16]

/-- Adds a token and the distance back to an address that was kept. -/
def backward (p : Primitive) : List Cell :=
  [shortLiteral p.token.toInt16, (t comma).toInt16, (t here).toInt16, operatorCell .sub,
    (t comma).toInt16]

/-- Writes the distance to `here` into the cell of which the address was kept. -/
def patch : List Cell :=
  [(t here).toInt16, (t over_).toInt16, operatorCell .sub, operatorCell .swap, (t store).toInt16]

end Tool

/-- The code of a control word. -/
def Keyword.code (t : Tool → Addr) : Keyword → List Cell
  | if_ => Tool.forward t .branchIfZero ++ [exitCell]
  | then_ => Tool.patch t ++ [exitCell]
  | else_ => Tool.forward t .branch ++ operatorCell .swap :: Tool.patch t ++ [exitCell]
  | begin_ => [(t .here).toInt16, exitCell]
  | until_ => Tool.backward t .branchIfZero ++ [exitCell]
  | while_ => Tool.forward t .branchIfZero ++ [operatorCell .swap, exitCell]
  | repeat_ => Tool.backward t .branch ++ Tool.patch t ++ [exitCell]

namespace Dictionary

variable {d d' : Dictionary} {limit : Addr} {t : Tool → Addr}

/-- The tools have their code below a limit, and what is compiled goes above it. -/
structure Equipped (d : Dictionary) (limit : Addr) (t : Tool → Addr) : Prop where
  ready : d.Ready
  limit_le : limit.toNat ≤ d.here.toNat
  hasCode : ∀ w, d.HasCode limit (t w) (w.code t)

instance (d : Dictionary) (limit : Addr) (t : Tool → Addr) : Decidable (d.Equipped limit t) :=
  decidable_of_iff (_ ∧ _ ∧ _) ⟨fun ⟨h, h', h''⟩ => ⟨h, h', h''⟩, fun ⟨h, h', h''⟩ => ⟨h, h', h''⟩⟩

theorem extends_of_forM_append {vs : List Cell} (hd : d.Ready) (h : vs.forM append d = .ok () d') :
    d.Extends d' := (of_forM_append_eq_ok hd h).1.extends hd

theorem Equipped.of_agreeOn (h : d.Equipped limit t) (hd : d.AgreeOn d' 96 limit.toNat)
    (hready : d'.Ready) (hlimit : limit.toNat ≤ d'.here.toNat) : d'.Equipped limit t :=
  ⟨hready, hlimit, fun w => (h.hasCode w).of_agreeOn hd⟩

theorem Equipped.agreeOn (h : d.Equipped limit t) (hd : d.Extends d') :
    d.AgreeOn d' 96 limit.toNat := hd.agreeOn.mono (Nat.le_refl _) h.limit_le

theorem Equipped.of_extends (h : d.Equipped limit t) (hd : d.Extends d') : d'.Equipped limit t :=
  h.of_agreeOn (h.agreeOn hd) (hd.ready h.ready) (Nat.le_trans h.limit_le hd.here_le)

end Dictionary

namespace Machine

open Dictionary

variable {H : Type} {hooks : Hooks H} {call : Interpreter H} {d d' : Dictionary} {limit : Addr}
  {t : Tool → Addr} {a body op addr : Addr} {v : Cell} {vs cs : List Cell}
  {Q R : Dictionary → List Cell → Prop}

/-! ## Tools -/

/-- A tool that is called comes back. -/
theorem returns_tool (he : d.Equipped limit t) (w : Tool)
    (hcode : d.HasCode limit a ((t w).toInt16 :: cs))
    (hcallee : Returns hooks call d vs (t w) R)
    (hrest : ∀ d' vs', R d' vs' → Returns hooks call d' vs' (a + cellSize) Q) :
    Returns hooks call d vs a Q :=
  returns_call hcode.readCell_eq hcode.ne_zero (UInt16.le_iff_toNat_le.2 (he.hasCode w).le) hcallee
    hrest

theorem returns_fetchWord (he : d.Equipped limit t) :
    Returns hooks call d (v :: vs) (t .fetch) fun d' vs' =>
      d' = d ∧ vs' = d.readCell v.toUInt16 :: vs := by
  have hcode := he.hasCode .fetch
  refine returns_literal rfl hcode.readCell_eq ?_
  refine returns_fetch hcode.tail.readCell_eq ?_
  exact returns_exit hcode.tail.tail.readCell_eq ⟨rfl, rfl⟩

/-- A cell above the limit is written. -/
theorem returns_storeWord (he : d.Equipped limit t) (hlimit : limit.toNat ≤ addr.toNat)
    (htop : addr.toNat + 1 < 65536) :
    Returns hooks call d (addr.toInt16 :: v :: vs) (t .store) fun d' vs' =>
      d' = d.writeCell addr v ∧ vs' = vs := by
  have hcode := he.hasCode .store
  have hle := hcode.le
  have hend := hcode.le_limit
  rw [toNat_firstEntry] at hle
  have hne : addr.toInt16.toUInt16 ≠ SystemCell.here.addr := by
    rw [UInt16.toUInt16_toInt16]
    rintro rfl
    change limit.toNat ≤ 2 at hlimit
    omega
  have hcode' : (d.writeCell addr v).HasCode limit (t .store) (Tool.store.code t) :=
    hcode.of_agreeOn (d.agreeOn_writeCell v htop (Or.inr hlimit))
  refine returns_literal rfl hcode.readCell_eq ?_
  refine returns_store hcode.tail.readCell_eq hne ?_
  rw [UInt16.toUInt16_toInt16]
  exact returns_exit hcode'.tail.tail.readCell_eq ⟨rfl, rfl⟩

theorem HasCode.of_allot_eq_ok {x : Addr} (h : d.HasCode limit a cs) (hallot : allot v d = .ok x d') :
    d'.HasCode limit a cs := by
  obtain ⟨-, rfl, -, -⟩ := Dictionary.of_allot_eq_ok hallot
  exact h.of_agreeOn ((d.agreeOn_setHere _).mono (by decide) (Nat.le_of_lt limit.toNat_lt))

theorem returns_storeWord_here (he : d.Equipped limit t) :
    Returns hooks call d (2 :: v :: vs) (t .store) fun d' vs' =>
      (∃ x, allot (v - d.reserved .here) d = .ok x d') ∧ vs' = vs := by
  have hcode := he.hasCode .store
  refine returns_literal rfl hcode.readCell_eq ?_
  refine returns_store_here hcode.tail.readCell_eq fun x d' hallot => ?_
  have hcode' := HasCode.of_allot_eq_ok hcode hallot
  exact returns_exit hcode'.tail.tail.readCell_eq ⟨⟨x, hallot⟩, rfl⟩

theorem returns_hereWord (he : d.Equipped limit t) :
    Returns hooks call d vs (t .here) fun d' vs' => d' = d ∧ vs' = d.here.toInt16 :: vs := by
  have hcode := he.hasCode .here
  refine returns_literal rfl hcode.readCell_eq ?_
  refine returns_tool he .fetch hcode.tail (returns_fetchWord he) ?_
  rintro d _ ⟨rfl, rfl⟩
  refine returns_exit hcode.tail.tail.readCell_eq ⟨rfl, ?_⟩
  rw [here, reservedAddr, Int16.toInt16_toUInt16]
  rfl

theorem returns_allotWord (he : d.Equipped limit t) :
    Returns hooks call d (v :: vs) (t .allot) fun d' vs' =>
      (∃ x, allot v d = .ok x d') ∧ vs' = vs := by
  have hcode := he.hasCode .allot
  refine returns_literal rfl hcode.readCell_eq ?_
  refine returns_tool he .fetch hcode.tail (returns_fetchWord he) ?_
  rintro d _ ⟨rfl, rfl⟩
  refine returns_binary (f := (· + ·)) rfl hcode.tail.tail.readCell_eq ?_
  refine returns_literal rfl hcode.tail.tail.tail.readCell_eq ?_
  refine returns_tool he .store hcode.tail.tail.tail.tail (returns_storeWord_here he) ?_
  rintro d' _ ⟨⟨x, hallot⟩, rfl⟩
  have hcode' := HasCode.of_allot_eq_ok hcode hallot
  refine returns_exit hcode'.tail.tail.tail.tail.tail.readCell_eq ⟨⟨x, ?_⟩, rfl⟩
  rw [← hallot]
  exact congrArg (allot · d) (Int16.add_sub_cancel v (d.reserved .here)).symm

/-- The word `,` adds a cell. -/
theorem returns_commaWord (he : d.Equipped limit t) :
    Returns hooks call d (v :: vs) (t .comma) fun d' vs' => append v d = .ok () d' ∧ vs' = vs := by
  have hcode := he.hasCode .comma
  refine returns_tool he .here hcode (returns_hereWord he) ?_
  rintro d _ ⟨rfl, rfl⟩
  refine returns_literal rfl hcode.tail.readCell_eq ?_
  refine returns_tool he .allot hcode.tail.tail (returns_allotWord he) ?_
  rintro d1 _ ⟨⟨x, hallot⟩, rfl⟩
  have hgrow := grows_of_allot hallot (by decide)
  have he1 := he.of_extends (hgrow.extends he.ready)
  have hcode1 := HasCode.of_allot_eq_ok hcode hallot
  have hnum := (toNat_here_of_allot hallot).1
  have h2 : (2 : Cell).toInt = 2 := by decide
  have htop := d1.here.toNat_lt
  have hroom : d.here.toNat + 1 < 65536 := by omega
  refine returns_tool he1 .store hcode1.tail.tail.tail
    (returns_storeWord he1 he.limit_le hroom) ?_
  rintro d2 _ ⟨hd2, rfl⟩
  have hcode2 : d2.HasCode limit (t .comma) (Tool.comma.code t) := by
    rw [hd2]
    exact hcode1.of_agreeOn (d1.agreeOn_writeCell v hroom (Or.inr he.limit_le))
  refine returns_exit hcode2.tail.tail.tail.tail.readCell_eq ⟨?_, rfl⟩
  obtain rfl : x = d.here := (of_allot_eq_ok hallot).1
  rw [hd2]
  exact bind_eq_of_ok hallot _

theorem returns_overWord (he : d.Equipped limit t) {w : Cell} :
    Returns hooks call d (w :: v :: vs) (t .over_) fun d' vs' =>
      d' = d ∧ vs' = v :: w :: v :: vs := by
  have hcode := he.hasCode .over_
  refine returns_literal rfl hcode.readCell_eq ?_
  refine returns_pick_one hcode.tail.readCell_eq ?_
  exact returns_exit hcode.tail.tail.readCell_eq ⟨rfl, rfl⟩

/-! ## Parts of control words -/

theorem ofLiteral?_token (p : Primitive) :
    Token.ofLiteral? p.token.toInt16 = some (.literal p.token.toInt16) := by
  cases p with
  | operator op => cases op <;> rfl
  | _ => rfl

/-- A token and a second cell are added. What stands for the second cell in the code, `x`, makes it
from the address behind the token, which it may keep. -/
theorem returns_pair {us : List Cell} {w x : Cell} (he : d.Equipped limit t) (p : Primitive)
    (hcode : d.HasCode limit a (shortLiteral p.token.toInt16 :: (t .comma).toInt16 ::
      (t .here).toInt16 :: x :: (t .comma).toInt16 :: cs))
    (hsecond : ∀ {d' b}, d'.readCell b = x → Returns hooks call d' (w :: us) (b + cellSize) Q →
      Returns hooks call d' ((d.here + cellSize).toInt16 :: vs) b Q)
    (hrest : ∀ d', [p.token.toInt16, w].forM append d = .ok () d' →
      d'.HasCode limit (a + cellSize + cellSize + cellSize + cellSize + cellSize) cs →
      Returns hooks call d' us (a + cellSize + cellSize + cellSize + cellSize + cellSize) Q) :
    Returns hooks call d vs a Q := by
  refine returns_literal (ofLiteral?_token p) hcode.readCell_eq ?_
  refine returns_tool he .comma hcode.tail (returns_commaWord he) ?_
  rintro d1 _ ⟨hfirst, rfl⟩
  have hext1 := (of_append_eq_ok hfirst).1.extends he.ready
  have he1 := he.of_extends hext1
  have hcode1 := (hcode.of_agreeOn (he.agreeOn hext1)).tail.tail
  refine returns_tool he1 .here hcode1 (returns_hereWord he1) ?_
  rintro d1 _ ⟨rfl, rfl⟩
  rw [here_of_append_eq_ok hfirst]
  refine hsecond hcode1.tail.readCell_eq ?_
  refine returns_tool he1 .comma hcode1.tail.tail (returns_commaWord he1) ?_
  rintro d2 _ ⟨hlast, rfl⟩
  have hext2 := (of_append_eq_ok hlast).1.extends he1.ready
  refine hrest d2 ?_ (hcode1.of_agreeOn (he1.agreeOn hext2)).tail.tail.tail
  rw [forM_append_pair, bind_eq_of_ok hfirst, hlast]

theorem returns_forward (he : d.Equipped limit t) (p : Primitive)
    (hcode : d.HasCode limit a (Tool.forward t p ++ cs))
    (hrest : ∀ d', [p.token.toInt16, 0].forM append d = .ok () d' →
      d'.HasCode limit (after a (Tool.forward t p)) cs →
      Returns hooks call d' ((d.here + cellSize).toInt16 :: vs) (after a (Tool.forward t p)) Q) :
    Returns hooks call d vs a Q :=
  returns_pair he p hcode (fun hcell => returns_literal rfl hcell) hrest

theorem returns_backward (he : d.Equipped limit t) (p : Primitive)
    (hcode : d.HasCode limit a (Tool.backward t p ++ cs))
    (hrest : ∀ d', [p.token.toInt16, v - (d.here + cellSize).toInt16].forM append d = .ok () d' →
      d'.HasCode limit (after a (Tool.backward t p)) cs →
      Returns hooks call d' vs (after a (Tool.backward t p)) Q) :
    Returns hooks call d (v :: vs) a Q :=
  returns_pair he p hcode (fun hcell => returns_binary (f := (· - ·)) rfl hcell) hrest

theorem returns_patch (he : d.Equipped limit t)
    (hcode : d.HasCode limit a (Tool.patch t ++ cs)) (hlimit : limit.toNat ≤ op.toNat)
    (htop : op.toNat + 1 < 65536)
    (hrest : (d.writeCell op (d.here.toInt16 - op.toInt16)).HasCode limit (after a (Tool.patch t))
        cs → Returns hooks call (d.writeCell op (d.here.toInt16 - op.toInt16)) vs
        (after a (Tool.patch t)) Q) :
    Returns hooks call d (op.toInt16 :: vs) a Q := by
  refine returns_tool he .here hcode (returns_hereWord he) ?_
  rintro d _ ⟨rfl, rfl⟩
  refine returns_tool he .over_ hcode.tail (returns_overWord he) ?_
  rintro d _ ⟨rfl, rfl⟩
  refine returns_binary (f := (· - ·)) rfl hcode.tail.tail.readCell_eq ?_
  refine returns_swap hcode.tail.tail.tail.readCell_eq ?_
  refine returns_tool he .store hcode.tail.tail.tail.tail (returns_storeWord he hlimit htop) ?_
  rintro _ _ ⟨rfl, rfl⟩
  exact hrest (hcode.of_agreeOn (d.agreeOn_writeCell _ htop (Or.inr hlimit))).append_right

/-! ## Control words -/

theorem returns_if (he : d.Equipped limit t) (hcode : d.HasCode limit body (Keyword.if_.code t)) :
    Returns hooks call d vs body fun d' vs' =>
      [Primitive.branchIfZero.token.toInt16, 0].forM append d = .ok () d' ∧
        vs' = (d.here + cellSize).toInt16 :: vs := by
  refine returns_forward he .branchIfZero hcode fun d' hd' hcode' => ?_
  exact returns_exit hcode'.readCell_eq ⟨hd', rfl⟩

theorem returns_then (he : d.Equipped limit t)
    (hcode : d.HasCode limit body (Keyword.then_.code t)) (hlimit : limit.toNat ≤ op.toNat)
    (htop : op.toNat + 1 < 65536) :
    Returns hooks call d (op.toInt16 :: vs) body fun d' vs' =>
      d' = d.writeCell op (d.here.toInt16 - op.toInt16) ∧ vs' = vs := by
  refine returns_patch he hcode hlimit htop fun hcode' => ?_
  exact returns_exit hcode'.readCell_eq ⟨rfl, rfl⟩

theorem returns_else (he : d.Equipped limit t)
    (hcode : d.HasCode limit body (Keyword.else_.code t)) (hlimit : limit.toNat ≤ op.toNat)
    (htop : op.toNat + 1 < 65536) :
    Returns hooks call d (op.toInt16 :: vs) body fun d' vs' =>
      (∃ d1, [Primitive.branch.token.toInt16, 0].forM append d = .ok () d1 ∧
        d' = d1.writeCell op (d1.here.toInt16 - op.toInt16)) ∧
        vs' = (d.here + cellSize).toInt16 :: vs := by
  rw [Keyword.code, List.append_assoc] at hcode
  refine returns_forward he .branch hcode fun d1 hd1 hcode1 => ?_
  refine returns_swap hcode1.readCell_eq ?_
  have he1 := he.of_extends (extends_of_forM_append he.ready hd1)
  refine returns_patch he1 hcode1.tail hlimit htop fun hcode' => ?_
  exact returns_exit hcode'.readCell_eq ⟨⟨d1, hd1, rfl⟩, rfl⟩

theorem returns_begin (he : d.Equipped limit t)
    (hcode : d.HasCode limit body (Keyword.begin_.code t)) :
    Returns hooks call d vs body fun d' vs' => d' = d ∧ vs' = d.here.toInt16 :: vs := by
  refine returns_tool he .here hcode (returns_hereWord he) ?_
  rintro d _ ⟨rfl, rfl⟩
  exact returns_exit hcode.tail.readCell_eq ⟨rfl, rfl⟩

theorem returns_until (he : d.Equipped limit t)
    (hcode : d.HasCode limit body (Keyword.until_.code t)) :
    Returns hooks call d (v :: vs) body fun d' vs' =>
      [Primitive.branchIfZero.token.toInt16, v - (d.here + cellSize).toInt16].forM append d =
        .ok () d' ∧ vs' = vs := by
  refine returns_backward he .branchIfZero hcode fun d' hd' hcode' => ?_
  exact returns_exit hcode'.readCell_eq ⟨hd', rfl⟩

theorem returns_while (he : d.Equipped limit t)
    (hcode : d.HasCode limit body (Keyword.while_.code t)) :
    Returns hooks call d (v :: vs) body fun d' vs' =>
      [Primitive.branchIfZero.token.toInt16, 0].forM append d = .ok () d' ∧
        vs' = v :: (d.here + cellSize).toInt16 :: vs := by
  refine returns_forward he .branchIfZero hcode fun d' hd' hcode' => ?_
  refine returns_swap hcode'.readCell_eq ?_
  exact returns_exit hcode'.tail.readCell_eq ⟨hd', rfl⟩

theorem returns_repeat (he : d.Equipped limit t)
    (hcode : d.HasCode limit body (Keyword.repeat_.code t)) (hlimit : limit.toNat ≤ op.toNat)
    (htop : op.toNat + 1 < 65536) :
    Returns hooks call d (v :: op.toInt16 :: vs) body fun d' vs' =>
      (∃ d1, [Primitive.branch.token.toInt16, v - (d.here + cellSize).toInt16].forM append d =
          .ok () d1 ∧ d' = d1.writeCell op (d1.here.toInt16 - op.toInt16)) ∧ vs' = vs := by
  rw [Keyword.code, List.append_assoc] at hcode
  refine returns_backward he .branch hcode fun d1 hd1 hcode1 => ?_
  have he1 := he.of_extends (extends_of_forM_append he.ready hd1)
  refine returns_patch he1 hcode1 hlimit htop fun hcode' => ?_
  exact returns_exit hcode'.readCell_eq ⟨⟨d1, hd1, rfl⟩, rfl⟩

end Machine

end ThreadedForth
