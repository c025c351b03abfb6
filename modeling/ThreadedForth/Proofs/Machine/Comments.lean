import ThreadedForth.Proofs.Dictionary.Uncommented
import ThreadedForth.Proofs.Machine.Compile
import ThreadedForth.Proofs.Machine.Keywords
import ThreadedForth.Proofs.Machine.Reaches
import ThreadedForth.Proofs.Machine.Twins

/-!
# The words that begin comments

The word `(` is a loop that moves the cursor on by one byte and looks at that byte, until it is a
closing parenthesis or there was none left. The word `\` moves the cursor to the end of the source. So
what is left to read after `(` is what follows the first closing parenthesis (`reaches_paren`), and after
`\` nothing is (`reaches_backslash`). Nothing else changes, and this is also what becomes of the words
when they are interpreted, in a definition or not (`exists_endsIn_comment`).

The loop compares the cursor with the length as signed cells, and it goes beyond the end by one byte. In
the input buffer both are small enough.
-/

set_option autoImplicit false

namespace ThreadedForth

/-- A word that the words for comments call. -/
inductive Finder where
  /-- `@` -/
  | fetch
  /-- `!` -/
  | store
  /-- `c@` -/
  | fetchByte
  /-- `1+` -/
  | increment
  /-- `0=` -/
  | isZero
deriving DecidableEq

instance : Enumerated Finder where
  values := [.fetch, .store, .fetchByte, .increment, .isZero]
  mem_values w := by cases w <;> decide

namespace Finder

/-- The code of such a word. -/
def code : Finder → List Cell
  | fetch => [shortLiteral 1, Primitive.fetch.token.toInt16, exitCell]
  | store => [shortLiteral 1, Primitive.store.token.toInt16, exitCell]
  | fetchByte => [shortLiteral 0, Primitive.fetch.token.toInt16, exitCell]
  | increment => [shortLiteral 1, operatorCell .add, exitCell]
  | isZero => [shortLiteral 0, operatorCell .equal, exitCell]

variable (t : Finder → Addr)

/-- Pushes a reserved cell. -/
def get (c : SystemCell) : List Cell := [shortLiteral c.addr.toInt16, (t fetch).toInt16]

/-- Takes the cursor from the stack. -/
def putCursor : List Cell := [shortLiteral SystemCell.cursor.addr.toInt16, (t store).toInt16]

/-- Moves the cursor on by one and leaves it as it was. -/
def step : List Cell := get t .cursor ++ operatorCell .dup :: (t increment).toInt16 :: putCursor t

/-- Whether that cursor was at the end. -/
def atEnd : List Cell :=
  operatorCell .dup :: (get t .sourceLength ++ [operatorCell .less, (t isZero).toInt16])

/-- Whether it was, or was at a closing parenthesis. -/
def atParen : List Cell :=
  operatorCell .swap :: (get t .source ++ [operatorCell .add, (t fetchByte).toInt16, shortLiteral 41,
    operatorCell .equal, operatorCell .or])

/-- The code of `(` up to the jump back. -/
def paren : List Cell := step t ++ (atEnd t ++ atParen t)

/-- The code of `\`. -/
def backslash : List Cell := get t .sourceLength ++ (putCursor t ++ [exitCell])

end Finder

namespace Dictionary

variable {d d' : Dictionary} {limit p q : Addr} {t : Finder → Addr}

/-- The code of the words for comments is in memory, `(` at `p` and `\` at `q`. -/
structure HasComments (d : Dictionary) (limit : Addr) (t : Finder → Addr) (p q : Addr) : Prop where
  finder : ∀ w, d.HasCode limit (t w) w.code
  paren : d.HasCode limit p (Finder.paren t ++ [Primitive.branchIfZero.token.toInt16,
    p.toInt16 - (after p (Finder.paren t) + cellSize).toInt16, exitCell])
  backslash : d.HasCode limit q (Finder.backslash t)

instance (d : Dictionary) (limit : Addr) (t : Finder → Addr) (p q : Addr) :
    Decidable (d.HasComments limit t p q) :=
  decidable_of_iff (_ ∧ _ ∧ _)
    ⟨fun ⟨h, h', h''⟩ => ⟨h, h', h''⟩, fun ⟨h, h', h''⟩ => ⟨h, h', h''⟩⟩

theorem HasComments.of_agreeOn (h : d.HasComments limit t p q) (hd : d.AgreeOn d' 96 limit.toNat) :
    d'.HasComments limit t p q :=
  ⟨fun w => (h.finder w).of_agreeOn hd, h.paren.of_agreeOn hd, h.backslash.of_agreeOn hd⟩

theorem HasComments.of_inputOnly (h : d.HasComments limit t p q) (hd : d.InputOnly d') :
    d'.HasComments limit t p q :=
  h.of_agreeOn (hd.agreeOn_above.mono (Nat.le_refl _) (Nat.le_of_lt limit.toNat_lt))

/-- The cursor lies below all code. -/
theorem HasComments.setCursor (h : d.HasComments limit t p q) (v : Cell) :
    (d.setReserved .cursor v).HasComments limit t p q :=
  h.of_agreeOn (d.agreeOn_setReserved .cursor v (.inl (by decide)))

/-- The jump back to the beginning. -/
theorem HasComments.jumpAt (h : d.HasComments limit t p q) :
    d.JumpAt .branchIfZero (after p (Finder.paren t)) p := by
  have hcode := h.paren.append_right
  have hlimit := hcode.le_limit
  have htop := limit.toNat_lt
  simp only [List.length_cons, List.length_nil] at hlimit
  exact ⟨by omega, hcode.cellsAt.1, hcode.cellsAt.2.1, trivial⟩

end Dictionary

namespace Machine

open Dictionary

variable {H : Type} {hooks : Hooks H} {call : Interpreter H} {C R : Nat} {host : H}
  {d d' : Dictionary} {limit a p q : Addr} {t : Finder → Addr} {v : Cell} {vs rs cs : List Cell}
  {T : Machine H → Prop} {u : List UInt8} {m m' : Machine H}

/-! ## Calls -/

section Calls

variable (h : d.HasComments limit t p q)
include h

/-- A word is called and comes back. What it comes to is told of the address of the call. -/
theorem reaches_finder (w : Finder) (hcode : d.HasCode limit a ((t w).toInt16 :: cs))
    (hroom : rs.length < R)
    (hcallee : Reaches hooks call C R host d vs (a.toInt16 :: rs) (t w) T) :
    Reaches hooks call C R host d vs rs a T :=
  reaches_call hcode.readCell_eq (UInt16.le_iff_toNat_le.2 (h.finder w).le) hroom hcallee

theorem reaches_get (c : SystemCell) (hcode : d.HasCode limit a (Finder.get t c ++ cs))
    (hdata : vs.length + 2 ≤ C) (hroom : rs.length < R)
    (hrest : Reaches hooks call C R host d (d.reserved c :: vs) rs (after a (Finder.get t c)) T) :
    Reaches hooks call C R host d vs rs a T := by
  have hfetch := h.finder .fetch
  have hcell : d.readCell c.addr.toInt16.toUInt16 = d.reserved c := by
    rw [UInt16.toUInt16_toInt16]
    rfl
  refine reaches_literal (by cases c <;> rfl) hcode.readCell_eq (by omega) ?_
  refine reaches_finder h .fetch hcode.tail hroom ?_
  refine reaches_literal rfl hfetch.readCell_eq (by rw [List.length_cons]; omega) ?_
  refine reaches_fetch hfetch.tail.readCell_eq (by omega) ?_
  refine reaches_exit hfetch.tail.tail.readCell_eq hcode.tail.ne_zero ?_
  rw [hcell]
  exact hrest

theorem reaches_putCursor (hcode : d.HasCode limit a (Finder.putCursor t ++ cs))
    (hdata : vs.length + 3 ≤ C) (hroom : rs.length < R)
    (hrest : Reaches hooks call C R host (d.setReserved .cursor v) vs rs
      (after a (Finder.putCursor t)) T) :
    Reaches hooks call C R host d (v :: vs) rs a T := by
  have hstore := h.finder .store
  -- the exit is still there when the cursor was written
  have hstore' := (h.setCursor v).finder .store
  refine reaches_literal rfl hcode.readCell_eq (by rw [List.length_cons]; omega) ?_
  refine reaches_finder h .store hcode.tail hroom ?_
  refine reaches_literal rfl hstore.readCell_eq (by simp; omega) ?_
  refine reaches_store hstore.tail.readCell_eq (by decide) ?_
  exact reaches_exit hstore'.tail.tail.readCell_eq hcode.tail.ne_zero hrest

/-! ## One round of the loop -/

omit h in
theorem flag_or_flag_eq_zero_iff (x y : Bool) : flag x ||| flag y = 0 ↔ x = false ∧ y = false := by
  revert x y
  decide

/-- The cursor is moved on, and its old value is left. -/
theorem reaches_step (hcode : d.HasCode limit a (Finder.step t ++ cs)) (hdata : vs.length + 4 ≤ C)
    (hroom : rs.length < R)
    (hrest : Reaches hooks call C R host (d.setReserved .cursor (d.reserved .cursor + 1))
      (d.reserved .cursor :: vs) rs (after a (Finder.step t)) T) :
    Reaches hooks call C R host d vs rs a T := by
  have hincrement := h.finder .increment
  rw [Finder.step, List.append_assoc] at hcode
  rw [Finder.step, after_append] at hrest
  refine reaches_get h .cursor hcode (by omega) hroom ?_
  have hdup := hcode.append_right
  generalize after a (Finder.get t .cursor) = b at hdup hrest
  refine reaches_operator hdup.readCell_eq rfl (by simp; omega) ?_
  refine reaches_finder h .increment hdup.tail hroom ?_
  refine reaches_literal rfl hincrement.readCell_eq (by simp; omega) ?_
  refine reaches_operator hincrement.tail.readCell_eq rfl (by simp; omega) ?_
  refine reaches_exit hincrement.tail.tail.readCell_eq hdup.tail.ne_zero ?_
  exact reaches_putCursor h hdup.tail.tail (by rw [List.length_cons]; omega) hroom hrest

theorem reaches_atEnd (hcode : d.HasCode limit a (Finder.atEnd t ++ cs)) (hdata : vs.length + 4 ≤ C)
    (hroom : rs.length < R)
    (hrest : Reaches hooks call C R host d (flag (!decide (v < d.reserved .sourceLength)) :: v :: vs) rs
      (after a (Finder.atEnd t)) T) :
    Reaches hooks call C R host d (v :: vs) rs a T := by
  have hisZero := h.finder .isZero
  have hflag : flag (flag (decide (v < d.reserved .sourceLength)) == 0) =
      flag (!decide (v < d.reserved .sourceLength)) := by
    cases decide (v < d.reserved .sourceLength) <;> rfl
  rw [Finder.atEnd, List.cons_append, List.append_assoc] at hcode
  rw [Finder.atEnd, after_cons, after_append] at hrest
  refine reaches_operator hcode.readCell_eq rfl (by simp; omega) ?_
  refine reaches_get h .sourceLength hcode.tail (by simp; omega) hroom ?_
  have hless := hcode.tail.append_right
  generalize after (a + cellSize) (Finder.get t .sourceLength) = b at hless hrest
  refine reaches_operator hless.readCell_eq rfl (by simp; omega) ?_
  refine reaches_finder h .isZero hless.tail hroom ?_
  refine reaches_literal rfl hisZero.readCell_eq (by simp; omega) ?_
  refine reaches_operator hisZero.tail.readCell_eq rfl (by simp; omega) ?_
  rw [← hflag] at hrest
  exact reaches_exit hisZero.tail.tail.readCell_eq hless.tail.ne_zero hrest

theorem reaches_atParen {f : Cell} (hcode : d.HasCode limit a (Finder.atParen t ++ cs))
    (hdata : vs.length + 4 ≤ C) (hroom : rs.length < R)
    (hrest : Reaches hooks call C R host d
      ((f ||| flag (d.readByte (v + d.reserved .source).toUInt16 == 41)) :: vs) rs
      (after a (Finder.atParen t)) T) :
    Reaches hooks call C R host d (f :: v :: vs) rs a T := by
  have hfetch := h.finder .fetchByte
  have hflag : ((d.readByte (v + d.reserved .source).toUInt16).toUInt16.toInt16 == 41) =
      (d.readByte (v + d.reserved .source).toUInt16 == 41) := by
    generalize d.readByte (v + d.reserved .source).toUInt16 = b
    by_cases hb : b = 41
    · subst hb
      rfl
    · rw [beq_false_of_ne hb]
      refine beq_false_of_ne fun heq => hb ?_
      have hnum := congrArg (fun c : Cell => c.toUInt16.toNat) heq
      simp only [UInt16.toUInt16_toInt16, UInt8.toNat_toUInt16] at hnum
      exact UInt8.toNat_inj.1 hnum
  rw [Finder.atParen, List.cons_append, List.append_assoc] at hcode
  rw [Finder.atParen, after_cons, after_append] at hrest
  refine reaches_operator hcode.readCell_eq rfl (by simp; omega) ?_
  refine reaches_get h .source hcode.tail (by simp; omega) hroom ?_
  have hadd := hcode.tail.append_right
  generalize after (a + cellSize) (Finder.get t .source) = b at hadd hrest
  refine reaches_operator hadd.readCell_eq rfl (by simp; omega) ?_
  refine reaches_finder h .fetchByte hadd.tail hroom ?_
  refine reaches_literal rfl hfetch.readCell_eq (by simp; omega) ?_
  refine reaches_fetchByte hfetch.tail.readCell_eq (by simp; omega) ?_
  refine reaches_exit hfetch.tail.tail.readCell_eq hadd.tail.ne_zero ?_
  refine reaches_literal rfl hadd.tail.tail.readCell_eq (by simp; omega) ?_
  refine reaches_operator hadd.tail.tail.tail.readCell_eq rfl (by simp; omega) ?_
  rw [← hflag] at hrest
  exact reaches_operator hadd.tail.tail.tail.tail.readCell_eq rfl (by simp; omega) hrest

/-! ## The whole words -/

/-- One round of the loop, after which it ends or begins again. -/
theorem reaches_round (hd : d.Buffered) (hdata : vs.length + 4 ≤ C) (hroom : rs.length < R)
    (hrest : (d.setReserved .cursor (d.reserved .cursor + 1)).HasComments limit t p q →
      Reaches hooks call C R host (d.setReserved .cursor (d.reserved .cursor + 1)) vs rs
        (if d.unread.head?.any (· ≠ 41) then p else afterJump (after p (Finder.paren t))) T) :
    Reaches hooks call C R host d vs rs p T := by
  have hparen := h.paren
  rw [Finder.paren, List.append_assoc, List.append_assoc] at hparen
  have h' := h.setCursor (d.reserved .cursor + 1)
  have hparen' := h'.paren
  rw [Finder.paren, List.append_assoc, List.append_assoc] at hparen'
  refine reaches_step h hparen hdata hroom ?_
  refine reaches_atEnd h' hparen'.append_right hdata hroom ?_
  refine reaches_atParen h' hparen'.append_right.append_right hdata hroom ?_
  rw [← after_append, ← after_append]
  refine reaches_branchIfZero h'.jumpAt ?_
  have hlength : (d.setReserved .cursor (d.reserved .cursor + 1)).reserved .sourceLength =
    d.reserved .sourceLength := d.reserved_setReserved_of_ne _ (by decide)
  have hsource : (d.setReserved .cursor (d.reserved .cursor + 1)).reserved .source = d.reserved .source :=
    d.reserved_setReserved_of_ne _ (by decide)
  have hagain : (flag (!decide (d.reserved .cursor < d.reserved .sourceLength)) |||
      flag ((d.setReserved .cursor (d.reserved .cursor + 1)).readByte
        (d.reserved .cursor + d.reserved .source).toUInt16 == 41)) = 0 ↔
      d.unread.head?.any (· ≠ 41) = true := by
    rw [flag_or_flag_eq_zero_iff, Bool.not_eq_false', decide_eq_true_iff,
      hd.cursor_lt_sourceLength_iff]
    cases hunread : d.unread with
    | nil => simp
    | cons b u =>
        rw [hd.readByte_cursor hunread]
        simp
  rw [hlength, hsource]
  simp only [hagain]
  exact hrest h'

/-- After `(` the text is left that follows the first closing parenthesis. -/
theorem reaches_paren (hd : d.Buffered) (hcap : 16 ≤ d.capacity) (hu : d.Remains u)
    (hdata : vs.length + 4 ≤ C) (hroom : rs.length < R)
    (hrest : ∀ d', d.InputOnly d' → d'.HasComments limit t p q → d'.Remains (Text.afterComment u) →
      Reaches hooks call C R host d' vs rs (afterJump (after p (Finder.paren t))) T) :
    Reaches hooks call C R host d vs rs p T := by
  -- on the unread text: one round reads its first byte
  induction u generalizing d with
  | nil =>
      refine reaches_round h hd hdata hroom fun h' => ?_
      rw [hu.unread_eq]
      refine hrest _ (d.inputOnly_setReserved .cursor _ (by decide)) h' ⟨?_, by simp, by simp⟩
      rw [(hd.moveCursor hcap).1, hu.unread_eq]
      rfl
  | cons b u ih =>
      refine reaches_round h hd hdata hroom fun h' => ?_
      have hinput := d.inputOnly_setReserved .cursor (d.reserved .cursor + 1) (by decide)
      obtain ⟨hunread, hbuffered⟩ := hd.moveCursor hcap
      rw [hu.unread_eq] at hunread hbuffered ⊢
      have hd' := hbuffered (by simp)
      have hu' : (d.setReserved .cursor (d.reserved .cursor + 1)).Remains u :=
        ⟨hunread, fun c hc => hu.ne_zero c (List.mem_cons_of_mem b hc), fun _ => hd'⟩
      by_cases hb : b = 41
      · subst hb
        exact hrest _ hinput h' hu'
      · rw [Text.afterComment_cons_of_ne hb] at hrest
        rw [if_pos (by simpa using hb)]
        exact ih h' hd' (by rw [hinput.capacity_eq]; exact hcap) hu'
          fun d' hd'' => hrest d' (hinput.trans hd'')

/-- After `\` nothing is left. -/
theorem reaches_backslash (hcap : 16 ≤ d.capacity) (hdata : vs.length + 3 ≤ C) (hroom : rs.length < R)
    (hrest : ∀ d', d.InputOnly d' → d'.HasComments limit t p q → d'.Remains [] →
      Reaches hooks call C R host d' vs rs (after q (Finder.get t .sourceLength ++ Finder.putCursor t)) T) :
    Reaches hooks call C R host d vs rs q T := by
  have hcode := h.backslash
  refine reaches_get h .sourceLength hcode (by omega) hroom ?_
  refine reaches_putCursor h hcode.append_right hdata hroom ?_
  rw [← after_append]
  refine hrest _ (d.inputOnly_setReserved .cursor _ (by decide)) (h.setCursor _) ⟨?_, by simp, by simp⟩
  have hlength : (d.setReserved .cursor (d.reserved .sourceLength)).reservedAddr .sourceLength =
    d.reservedAddr .sourceLength := congrArg Int16.toUInt16 (d.reserved_setReserved_of_ne _ (by decide))
  have hcursor : (d.setReserved .cursor (d.reserved .sourceLength)).reservedAddr .cursor =
    d.reservedAddr .sourceLength := congrArg Int16.toUInt16 (d.reserved_setReserved _ _ hcap)
  rw [unread, unreadLength, hlength, hcursor, Nat.sub_self]
  rfl

end Calls

/-! ## The words in a text -/

/-- Code that comes to an exit, with the stacks as they were, is executed. -/
theorem exists_execute_of_reaches {Q : Dictionary → Prop} {s returns : Stack} {body : Addr}
    (hbody : Layout.firstEntry ≤ body) (hroom : returns.cells.length < returns.capacity)
    (h : ∀ T : Machine H → Prop, (∀ d' a, Q d' → d'.readCell a = exitCell →
        Reaches hooks call s.capacity returns.capacity host d' s.cells (0 :: returns.cells) a T) →
      Reaches hooks call s.capacity returns.capacity host d s.cells (0 :: returns.cells) body T) :
    ∃ d', Q d' ∧ ∃ k, ∀ n, execute hooks call (n + k) body ⟨d, s, returns, 0, host⟩ =
      .ok () ⟨d', s, returns, 0, host⟩ := by
  have hreaches := h (fun m => ∃ d' a, Q d' ∧ d'.readCell a = exitCell ∧
    Stands s.capacity returns.capacity host d' s.cells (0 :: returns.cells) a m)
    fun d' a hQ hexit => reaches_of_stands fun m hm => ⟨d', a, hQ, hexit, hm⟩
  obtain ⟨m, ⟨d', a, hQ, hexit, hm⟩, hexecute⟩ := exists_of_reaches hbody hroom hreaches
  exact ⟨d', hQ, hexecute .exit _ (halts_of_stands hm hexit)⟩

/-- A name stands for the word that begins a comment, and there is room on the stacks for it. -/
structure Skips (m : Machine H) (name : Span) (w : List UInt8) : Prop where
  known : ∃ limit t p q, m.dictionary.HasComments limit t p q ∧
    m.dictionary.meaning name = .known (if w = [92] then q else p) true
  ip_eq : m.ip = 0
  data_room : m.data.depth + 4 ≤ m.data.capacity
  returns_room : m.returns.depth + 2 ≤ m.returns.capacity

/-- A word that begins a comment is executed. It leaves the text behind the comment, and all else as it
was. -/
theorem exists_endsIn_comment (hooks : Hooks H) {name : Span} {w : List UInt8} (h : m.Skips name w)
    (hd : m.dictionary.Buffered) (hcap : 16 ≤ m.dictionary.capacity) (hu : m.dictionary.Remains u) :
    ∃ m', EndsIn (spelled hooks name) m (.ok () m') ∧ m.Twins m' ∧
      m'.dictionary.Remains (Text.beyond w u) := by
  obtain ⟨⟨limit, t, p, q, hcode, hmeaning⟩, hip, hdata, hreturns⟩ := h
  rcases m with ⟨d, s, returns, ip, host⟩
  dsimp only at *
  subst hip
  have hcells : s.cells.length + 4 ≤ s.capacity := by
    rw [← s.depth_eq]
    exact hdata
  have hreturnCells : returns.cells.length + 2 ≤ returns.capacity := by
    rw [← returns.depth_eq]
    exact hreturns
  obtain ⟨d', ⟨hinput, hremains⟩, k, hk⟩ : ∃ d', (d.InputOnly d' ∧ d'.Remains (Text.beyond w u)) ∧
      ∃ k, ∀ n, execute hooks (interpreter hooks 0) (n + k) (if w = [92] then q else p)
        ⟨d, s, returns, 0, host⟩ = .ok () ⟨d', s, returns, 0, host⟩ := by
    by_cases hw : w = [92]
    · rw [if_pos hw, Text.beyond, if_pos hw]
      refine exists_execute_of_reaches (UInt16.le_iff_toNat_le.2 hcode.backslash.le) (by omega)
        fun T hT => ?_
      refine reaches_backslash hcode hcap (by omega) (by simp; omega) fun d' hd' hcode' hrest => ?_
      have hexit := hcode'.backslash
      rw [Finder.backslash, ← List.append_assoc] at hexit
      exact hT d' _ ⟨hd', hrest⟩ hexit.append_right.readCell_eq
    · rw [if_neg hw, Text.beyond, if_neg hw]
      refine exists_execute_of_reaches (UInt16.le_iff_toNat_le.2 hcode.paren.le) (by omega)
        fun T hT => ?_
      refine reaches_paren hcode hd hcap hu hcells (by simp; omega) fun d' hd' hcode' hrest => ?_
      exact hT d' _ ⟨hd', hrest⟩ hcode'.paren.append_right.tail.tail.readCell_eq
  refine ⟨⟨d', s, returns, 0, host⟩, ⟨by simp, 0, 0 + k, ?_⟩, ⟨⟨hinput, rfl, rfl, rfl⟩, rfl⟩,
    hremains⟩
  rw [spelled, interpretWord_eq_execute hmeaning (.inr rfl)]
  exact hk 0

end Machine

end ThreadedForth
