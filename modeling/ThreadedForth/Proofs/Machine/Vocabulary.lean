import ThreadedForth.Proofs.Dictionary.Chained
import ThreadedForth.Proofs.Machine.Compile
import ThreadedForth.Proofs.Machine.Keywords

/-!
# Text with control words

A dictionary that has the control words (`Vocabulary`) gives a meaning to what is written while a
definition is compiled (`Writing`): a number or an operator adds its cells to the definition
(`interpretWritten_of_literal`, `interpretWritten_of_operator`), and a control word is executed
where its code is (`exists_interpretWritten_of_keyword`). `Spells` says which of these is written.
-/

set_option autoImplicit false

namespace ThreadedForth

/-! ## What programs are written with -/

/-- The name of a control word. -/
def Keyword.name : Keyword → String
  | if_ => "if"
  | then_ => "then"
  | else_ => "else"
  | begin_ => "begin"
  | until_ => "until"
  | while_ => "while"
  | repeat_ => "repeat"

/-- What stands in the text of a program. -/
inductive Symbol where
  | literal (v : Cell)
  | operator (op : Operator)
  | keyword (k : Keyword)

namespace Dictionary

variable {d d' : Dictionary} {limit : Addr} {t : Tool → Addr} {fs : List Definition}

/-! ## The dictionary while a program is compiled -/

/-- The dictionary knows the definitions `fs`, all of them below a limit, and the control words are
the newest ones of their names. -/
structure Vocabulary (d : Dictionary) (limit : Addr) (t : Tool → Addr) (fs : List Definition) :
    Prop where
  equipped : d.Equipped limit t
  chained : d.Chained fs
  latest_eq : d.latest = newestAddr fs
  rooted : Rooted fs
  name_ne_nil : ∀ f ∈ fs, f.name ≠ []
  body_le : ∀ f ∈ fs, f.body.toNat ≤ limit.toNat
  keyword : ∀ k : Keyword, ∃ f,
    (fs.find? fun f => Text.same (Text.encode k.name) f.name) = some f ∧ f.immediate = true ∧
      d.HasCode limit f.body (k.code t)

instance (d : Dictionary) (limit : Addr) (t : Tool → Addr) (fs : List Definition) :
    Decidable (d.Vocabulary limit t fs) :=
  have (k : Keyword) : Decidable (∃ f,
      (fs.find? fun f => Text.same (Text.encode k.name) f.name) = some f ∧ f.immediate = true ∧
        d.HasCode limit f.body (k.code t)) :=
    inferInstanceAs (Decidable (∃ f ∈ fs.find? fun f => Text.same (Text.encode k.name) f.name,
      f.immediate = true ∧ d.HasCode limit f.body (k.code t)))
  decidable_of_iff (_ ∧ _ ∧ _ ∧ _ ∧ _ ∧ _ ∧ _)
    ⟨fun ⟨h1, h2, h3, h4, h5, h6, h7⟩ => ⟨h1, h2, h3, h4, h5, h6, h7⟩,
      fun ⟨h1, h2, h3, h4, h5, h6, h7⟩ => ⟨h1, h2, h3, h4, h5, h6, h7⟩⟩

theorem Vocabulary.of_extends (h : d.Vocabulary limit t fs) (hd : d.Extends d') :
    d'.Vocabulary limit t fs := by
  have hagree := h.equipped.agreeOn hd
  have hequipped := h.equipped.of_extends hd
  refine ⟨hequipped, ?_, hd.latest_eq.trans h.latest_eq, h.rooted, h.name_ne_nil, h.body_le, ?_⟩
  · exact h.chained.of_agreeOn hagree (Nat.le_refl _) h.body_le fun f hf =>
      Nat.le_trans (h.body_le f hf) hequipped.limit_le
  · intro k
    obtain ⟨f, hfind, himmediate, hcode⟩ := h.keyword k
    exact ⟨f, hfind, himmediate, hcode.of_agreeOn hagree⟩

/-- A definition is compiled that lies above the limit. -/
structure Writing (d : Dictionary) (limit : Addr) (t : Tool → Addr) (fs : List Definition) :
    Prop where
  vocabulary : d.Vocabulary limit t fs
  compiling_eq : d.compiling = true
  limit_le : limit.toNat ≤ d.openEntry.toNat

theorem Writing.ready (h : d.Writing limit t fs) : d.Ready := h.vocabulary.equipped.ready

theorem Writing.of_continues (h : d.Writing limit t fs) (hd : d.Continues d') :
    d'.Writing limit t fs := by
  refine ⟨h.vocabulary.of_extends hd.ext, hd.compiling_eq.trans h.compiling_eq, ?_⟩
  unfold openEntry
  rw [hd.agreeOn.reservedAddr (by decide) (by decide)]
  exact h.limit_le

/-- While a program is compiled, a name means the newest definition with that name. -/
theorem Writing.meaning_eq (h : d.Writing limit t fs) (name : Span) :
    d.meaning name =
      match fs.find? fun f => Text.same (d.text name) f.name with
      | some f => .known f.body f.immediate
      | none =>
        match Primitive.ofName? (d.text name) with
        | some p => .known p.token p.isImmediate
        | none => .unknown := by
  have hv := h.vocabulary
  have hvisible : ∀ f ∈ fs, d.isVisible f.addr = true := by
    intro f hf
    have hholds := hv.chained.holds_of_mem hf
    have hle := hholds.hasHeader.le_entry
    have hlt := hholds.addr_lt_body
    have hbody := hholds.body_le_here
    have hlimit := hv.body_le f hf
    have hopen := h.limit_le
    have hhere : d.here ≠ Layout.firstEntry := fun heq => by rw [heq] at hbody; omega
    have hne : d.openEntry ≠ f.addr := fun heq => by rw [heq] at hopen; omega
    unfold isVisible
    rw [bne_iff_ne.2 hhere, beq_false_of_ne hne, Bool.and_false]
    rfl
  unfold meaning
  rw [find_of_chained hv.chained hv.latest_eq hv.rooted hvisible hv.name_ne_nil]
  cases hfind : fs.find? fun f => Text.same (d.text name) f.name with
  | none => rfl
  | some f =>
      have hholds := hv.chained.holds_of_mem (List.mem_of_find?_eq_some hfind)
      simp only [hholds.entryBody_eq, hholds.isImmediate_eq]

end Dictionary

namespace Machine

open Dictionary

variable {H : Type} {hooks : Hooks H} {call : Interpreter H} {n : Nat} {m : Machine H}
  {limit : Addr} {t : Tool → Addr} {fs : List Definition}

/-! ## What is written -/

/-- What is written stands for a symbol. A name that has no definition can be a numeral or an
operator. -/
inductive Spells (fs : List Definition) (d : Dictionary) : Written → Symbol → Prop
  | number (v : Cell) : Spells fs d (.number v) (.literal v)
  | numeral {s : Span} {v : Cell}
      (undefined : (fs.find? fun f => Text.same (d.text s) f.name) = none)
      (unnamed : Primitive.ofName? (d.text s) = none)
      (read : Numeral.read? d.base (d.text s) = some v) : Spells fs d (.name s) (.literal v)
  | operator {s : Span} {op : Operator}
      (undefined : (fs.find? fun f => Text.same (d.text s) f.name) = none)
      (named : Primitive.ofName? (d.text s) = some (.operator op)) :
      Spells fs d (.name s) (.operator op)
  | keyword {s : Span} {k : Keyword} (same : Text.same (d.text s) (Text.encode k.name) = true) :
      Spells fs d (.name s) (.keyword k)

instance (fs : List Definition) (d : Dictionary) :
    ∀ (w : Written) (i : Symbol), Decidable (Spells fs d w i)
  | .number v, .literal v' =>
    decidable_of_iff (v = v') ⟨fun h => h ▸ .number v, fun h => by cases h; rfl⟩
  | .name s, .literal v =>
    decidable_of_iff ((fs.find? fun f => Text.same (d.text s) f.name) = none ∧
        Primitive.ofName? (d.text s) = none ∧ Numeral.read? d.base (d.text s) = some v)
      ⟨fun ⟨h, h', h''⟩ => .numeral h h' h'',
        fun h => by cases h with | numeral h h' h'' => exact ⟨h, h', h''⟩⟩
  | .name s, .operator op =>
    decidable_of_iff ((fs.find? fun f => Text.same (d.text s) f.name) = none ∧
        Primitive.ofName? (d.text s) = some (.operator op))
      ⟨fun ⟨h, h'⟩ => .operator h h', fun h => by cases h with | operator h h' => exact ⟨h, h'⟩⟩
  | .name s, .keyword k =>
    decidable_of_iff (Text.same (d.text s) (Text.encode k.name) = true)
      ⟨.keyword, fun h => by cases h with | keyword h => exact h⟩
  | .number _, .operator _ => isFalse nofun
  | .number _, .keyword _ => isFalse nofun

theorem interpretWritten_of_literal {w : Written} {v : Cell}
    (hw : m.dictionary.Writing limit t fs) (h : Spells fs m.dictionary w (.literal v)) :
    interpretWritten hooks call n w m = onDictionary ((literalCells v).forM append) m := by
  cases h with
  | number v => exact interpretLiteral_of_compiling hw.compiling_eq v
  | @numeral s v undefined unnamed read =>
      have hmeaning : m.dictionary.meaning s = .unknown := by
        rw [hw.meaning_eq, undefined, unnamed]
      calc interpretWord hooks call n s m
          = interpretLiteral v m := interpretWord_eq_interpretLiteral hmeaning read
        _ = onDictionary ((literalCells v).forM append) m :=
            interpretLiteral_of_compiling hw.compiling_eq v

theorem interpretWritten_of_operator {w : Written} {op : Operator}
    (hw : m.dictionary.Writing limit t fs) (h : Spells fs m.dictionary w (.operator op)) :
    interpretWritten hooks call n w m = onDictionary ([operatorCell op].forM append) m := by
  cases h with
  | @operator s op undefined named =>
      have hmeaning : m.dictionary.meaning s = .known (Primitive.operator op).token false := by
        rw [hw.meaning_eq, undefined, named]
        rfl
      exact interpretWord_of_compiling hmeaning hw.compiling_eq

/-- A control word is executed where its code is. -/
theorem exists_interpretWritten_of_keyword {w : Written} {k : Keyword}
    (hw : m.dictionary.Writing limit t fs) (h : Spells fs m.dictionary w (.keyword k)) :
    ∃ body, m.dictionary.HasCode limit body (k.code t) ∧
      interpretWritten hooks call n w m = execute hooks call n body m := by
  cases h with
  | @keyword s k same =>
      obtain ⟨f, hfind, himmediate, hcode⟩ := hw.vocabulary.keyword k
      refine ⟨f.body, hcode, ?_⟩
      have hmeaning : m.dictionary.meaning s = .known f.body true := by
        have hname : (fs.find? fun f => Text.same (m.dictionary.text s) f.name) = some f := by
          rw [← hfind]
          refine congrArg (fs.find? ·) (funext fun g => ?_)
          unfold Text.same
          rw [Text.same_iff.1 same]
        rw [hw.meaning_eq, hname, ← himmediate]
      exact interpretWord_eq_execute hmeaning (Or.inr rfl)

end Machine

end ThreadedForth
