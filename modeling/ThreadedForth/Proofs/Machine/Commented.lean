import ThreadedForth.Prelude
import ThreadedForth.Proofs.Machine.Beside
import ThreadedForth.Proofs.Machine.Holdings

/-!
# Lines with comments

Comments are skipped exactly in every line whose other words have nothing to do with the source
(`interpretLine_uncommented`). Whether they have can be told from the line and from what the machine knows.
In a line of numbers and words that are compiled (`Plain`) it is enough to have room on the stacks. A line
of definitions, their uses, numbers and words of the stacks is read phrase by phrase (`legible`), as far as
the first word that nobody knows. There the words that are executed may fill the stacks, so there has to be
room wherever a comment can come (`commented_of_annotated`).
-/

set_option autoImplicit false

namespace ThreadedForth

namespace Dictionary

instance (d : Dictionary) (f : Definition) (code : List Cell) : Decidable (d.InProgress f code) :=
  decidable_of_iff (_ ∧ _ ∧ _ ∧ _ ∧ _ ∧ _ ∧ _ ∧ _)
    ⟨fun ⟨h1, h2, h3, h4, h5, h6, h7, h8⟩ => ⟨h1, h2, h3, h4, h5, h6, h7, h8⟩,
      fun ⟨h1, h2, h3, h4, h5, h6, h7, h8⟩ => ⟨h1, h2, h3, h4, h5, h6, h7, h8⟩⟩

instance (d : Dictionary) (fs : List Definition) (limit : Nat) (f : Definition) (code : List Cell) :
    Decidable (d.Unfinished fs limit f code) :=
  decidable_of_iff (_ ∧ _ ∧ _ ∧ _ ∧ _ ∧ _)
    ⟨fun ⟨h1, h2, h3, h4, h5, h6⟩ => ⟨h1, h2, h3, h4, h5, h6⟩,
      fun ⟨h1, h2, h3, h4, h5, h6⟩ => ⟨h1, h2, h3, h4, h5, h6⟩⟩

end Dictionary

namespace Machine

open Dictionary

variable {H : Type} {hooks : Hooks H} {m m1 : Machine H} {u line : List UInt8}
  {ws : List (List UInt8)}

/-! ## Lines of numbers and compiled words -/

/-- The names of the words for comments. -/
def NamesComments (fs : List Definition) (p q : Addr) : Prop :=
  ∀ w ∈ Text.commentWords, ((fs.find? fun f => Text.same w f.name).map fun f => (f.body, f.immediate)) =
    some (if w = [92] then q else p, true)

instance (fs : List Definition) (p q : Addr) : Decidable (NamesComments fs p q) :=
  inferInstanceAs (Decidable (∀ w ∈ Text.commentWords, _))

/-- There is room on the stacks for a word that begins a comment. -/
structure CommentRoom (m : Machine H) : Prop where
  data_room : m.data.depth + 4 ≤ m.data.capacity
  returns_room : m.returns.depth + 2 ≤ m.returns.capacity

instance (m : Machine H) : Decidable m.CommentRoom :=
  decidable_of_iff (_ ∧ _) ⟨fun h => ⟨h.1, h.2⟩, fun h => ⟨h.data_room, h.returns_room⟩⟩

/-- Where the words for comments are known by their names, one that comes next can be skipped. -/
theorem skips_of_offers {fs : List Definition} {limit' : Nat} {limit p q : Addr} {t : Finder → Addr}
    (hoffers : m.dictionary.Offers fs limit') (hcomments : m.dictionary.HasComments limit t p q)
    (hnames : NamesComments fs p q) (hreading : m.dictionary.Reading (m.dictionary.nextText :: ws))
    (hcap : 16 ≤ m.dictionary.capacity) (hword : m.dictionary.nextText ∈ Text.commentWords)
    (hip : m.ip = 0) (hroom : m.CommentRoom) :
    m.afterWord.Skips m.dictionary.nextWord.1 m.dictionary.nextText := by
  have hreads := m.dictionary.inputOnly_nextWord
  have hmeaning := (hoffers.of_inputOnly hreads).meaning_eq m.dictionary.nextWord.1
  have htext : m.dictionary.nextWord.2.text m.dictionary.nextWord.1 = m.dictionary.nextText :=
    text_afterWord hreading hcap
  obtain ⟨f, hfind, hf⟩ := Option.map_eq_some_iff.1 (hnames _ hword)
  obtain ⟨hbody, himmediate⟩ := Prod.mk.inj hf
  rw [htext, hfind] at hmeaning
  refine ⟨⟨limit, t, p, q, hcomments.of_inputOnly hreads, ?_⟩, hip, hroom.data_room,
    hroom.returns_room⟩
  rw [← hbody, ← himmediate]
  exact hmeaning

/-- What is kept from word to word, and tells what the next word is, tells it wherever the source is
interpreted to. -/
theorem commented_of_invariant {P : Machine H → Prop} (h : P m)
    (hword : ∀ m1, P m1 → m1.dictionary.hasInput = true →
      if m1.dictionary.nextText ∈ Text.commentWords then
        m1.afterWord.Skips m1.dictionary.nextWord.1 m1.dictionary.nextText
      else ∃ ns last, m1.SourceFree hooks ns last)
    (hnext : ∀ m1 m2, P m1 → m1.dictionary.hasInput = true → NextEndsIn hooks m1 (.ok () m2) → P m2) :
    m.Commented hooks := by
  have hreach : ∀ {ws m1}, Comes hooks m ws m1 → P m1 := by
    intro ws m1 hcomes
    induction hcomes with
    | refl m => exact h
    | comment hinput _ hend _ ih => exact ih (hnext _ _ h hinput hend)
    | word hinput _ _ hend _ ih => exact ih (hnext _ _ h hinput hend)
  exact fun ws m1 hcomes => hword m1 (hreach hcomes)

/-- The words for comments are known, all other words of the text are numbers or are compiled, and there is
room on the stacks. -/
structure Plain (m : Machine H) (fs : List Definition) (limit : Addr) (t : Finder → Addr) (p q : Addr)
    (u : List UInt8) : Prop where
  offers : m.dictionary.Offers fs limit.toNat
  comments : m.dictionary.HasComments limit t p q
  remains : m.dictionary.Remains u
  effects : ∀ w ∈ Text.words (Text.uncommented u),
    (Effect.of? fs m.dictionary.compiling w).isSome = true
  ip_eq : m.ip = 0
  data_room : m.data.depth + (Text.words (Text.uncommented u)).length + 4 ≤ m.data.capacity
  returns_room : m.returns.depth + 2 ≤ m.returns.capacity

section Plain

variable {fs : List Definition} {limit p q : Addr} {t : Finder → Addr}
  (h : m.Plain fs limit t p q u) (hinput : m.dictionary.hasInput = true)
include h hinput

theorem Plain.le_capacity : 16 ≤ m.dictionary.capacity :=
  Nat.le_of_lt (h.remains.lt_capacity (h.remains.ne_nil_of_hasInput hinput))

theorem Plain.exists_firstWord : ∃ s, FirstWord u m.dictionary.nextText s ∧
    m.dictionary.Reading (m.dictionary.nextText :: Text.words s.tail) := by
  obtain ⟨hbuffered, -, s, hfirst, -⟩ := h.remains.exists_firstWord (h.le_capacity hinput) hinput
  exact ⟨s, hfirst, hfirst.words_eq ▸ h.remains.reading hbuffered⟩

theorem Plain.skips (hnames : NamesComments fs p q)
    (hword : m.dictionary.nextText ∈ Text.commentWords) :
    m.afterWord.Skips m.dictionary.nextWord.1 m.dictionary.nextText := by
  obtain ⟨s, -, hreading⟩ := h.exists_firstWord hinput
  have hroom := h.data_room
  exact skips_of_offers h.offers h.comments hnames hreading (h.le_capacity hinput) hword h.ip_eq
    ⟨by omega, h.returns_room⟩

/-- The word that is not a comment has an effect. -/
theorem Plain.exists_effect (hword : m.dictionary.nextText ∉ Text.commentWords) :
    ∃ e, Effect.of? fs m.dictionary.compiling m.dictionary.nextText = some e := by
  obtain ⟨s, hfirst, -⟩ := h.exists_firstWord hinput
  have hmem : m.dictionary.nextText ∈ Text.words (Text.uncommented u) := by
    rw [hfirst.words_uncommented_of_notMem hword]
    exact List.mem_cons_self
  exact Option.isSome_iff_exists.1 (h.effects _ hmem)

theorem Plain.sourceFree (hs : hooks.Steady) (hword : m.dictionary.nextText ∉ Text.commentWords) :
    m.SourceFree hooks [] false := by
  obtain ⟨e, he⟩ := h.exists_effect hinput hword
  obtain ⟨s, -, hreading⟩ := h.exists_firstWord hinput
  exact sourceFree_of_effect? h.offers he hreading (h.le_capacity hinput) hs

/-- After the next word the text that is left is of the same kind. -/
theorem Plain.exists_next (hs : hooks.Steady) (hnames : NamesComments fs p q)
    (hend : NextEndsIn hooks m (.ok () m1)) : ∃ u1, m1.Plain fs limit t p q u1 := by
  by_cases hword : m.dictionary.nextText ∈ Text.commentWords
  · obtain ⟨m2, hend2, htwins, hu1, -, hwords⟩ :=
      exists_of_comment hooks h.remains hinput hword (h.skips hinput hnames hword)
    -- nothing changed but the source
    cases hend.eq hs hend2
    have hreads := htwins.dictionary
    refine ⟨_, h.offers.of_inputOnly hreads, h.comments.of_inputOnly hreads, hu1, ?_, ?_, ?_, ?_⟩
    · rw [← hwords, hreads.compiling_eq]
      exact h.effects
    · exact htwins.ip_eq.trans h.ip_eq
    · rw [← hwords, htwins.data_eq]
      exact h.data_room
    · rw [htwins.returns_eq]
      exact h.returns_room
  · obtain ⟨e, he⟩ := h.exists_effect hinput hword
    obtain ⟨s, -, hreading⟩ := h.exists_firstWord hinput
    obtain ⟨u1, hu1, -, hwords, -⟩ :=
      (h.sourceFree hinput hs hword).exists_remains h.remains hinput hword
    have heffected := effected_of_nextEndsIn h.offers he hreading (h.le_capacity hinput) hend
    have hreads := m.dictionary.inputOnly_nextWord
    have hcomments := (h.comments.of_inputOnly hreads).of_agreeOn heffected.agreeOn_code
    -- one word less is left, so there is still room if a number was pushed
    rw [List.nil_append] at hwords
    refine ⟨u1, heffected.offers, hcomments, hu1 m1 hend, fun w hw => ?_, ?_, ?_, ?_⟩
    · rw [heffected.compiling_eq, afterWord, hreads.compiling_eq]
      exact h.effects w (hwords ▸ List.mem_cons_of_mem _ hw)
    · exact heffected.ip_eq.trans h.ip_eq
    · have hroom := h.data_room
      have hdepth : m1.data.depth ≤ m.data.depth + 1 := heffected.data_depth
      have hcapacity : m1.data.capacity = m.data.capacity := heffected.data_capacity
      rw [hwords, List.length_cons] at hroom
      omega
    · rw [heffected.returns_eq]
      exact h.returns_room

end Plain

/-- In a text of such words everything is a comment or has nothing to do with the source. -/
theorem commented_of_plain {fs : List Definition} {limit p q : Addr} {t : Finder → Addr}
    (hs : hooks.Steady) (hnames : NamesComments fs p q) (h : m.Plain fs limit t p q u) :
    m.Commented hooks := by
  refine commented_of_invariant (P := fun m1 => ∃ u1, m1.Plain fs limit t p q u1) ⟨u, h⟩ ?_ ?_
  · rintro m1 ⟨u1, h1⟩ hinput
    by_cases hword : m1.dictionary.nextText ∈ Text.commentWords
    · rw [if_pos hword]
      exact h1.skips hinput hnames hword
    · rw [if_neg hword]
      exact ⟨[], false, h1.sourceFree hinput hs hword⟩
  · rintro m1 m2 ⟨u1, h1⟩ hinput hend
    exact h1.exists_next hinput hs hnames hend

/-! ## Lines of phrases -/

/-- Whether a text with comments in it consists of phrases that make sense one after the other, as far as
`n` of them and of the comments go. Behind a word that nobody knows anything may follow, if such a word is
an error. -/
def legible (l : Library) (isError : Bool) : Nat → Outline → List UInt8 → Bool
  | 0, _, _ => false
  | n + 1, o, u =>
    match Text.words u with
    | [] => true
    | w :: ws =>
      if Text.commentWords.contains w then legible l isError n o (Text.beyond w (Text.behindWord u))
      else if o.lacks w then isError
      else if w = Text.encode Primitive.colon.name then
        match ws with
        | [] => false
        | name :: _ => !Text.commentWords.contains name &&
            (o.colon? name).any fun o1 => legible l isError n o1 (Text.behind 2 u)
      else decide (l.Allows w) &&
        (o.word? w).any fun o1 => legible l isError n o1 (Text.behind 1 u)

/-- A text begins with a phrase that makes sense, and is legible behind it. -/
structure BeginsWith (l : Library) (isError : Bool) (o : Outline) (u : List UInt8) (phrase : Phrase)
    (o1 : Outline) : Prop where
  words_eq : ∃ ws, Text.words u = phrase.texts ++ ws
  notMem : ∀ w ∈ phrase.texts, w ∉ Text.commentWords
  after_eq : o.after? phrase = some o1
  allowed : phrase.Allowed l
  legible : ∃ n, legible l isError n o1 (Text.behind phrase.texts.length u)

theorem BeginsWith.names_notMem {l : Library} {isError : Bool} {o o1 : Outline} {phrase : Phrase}
    (h : BeginsWith l isError o u phrase o1) : ∀ n ∈ phrase.names, n ∉ Text.commentWords := by
  intro n hn
  refine h.notMem n ?_
  cases phrase with
  | word text => exact absurd hn List.not_mem_nil
  | colon name => exact List.mem_cons_of_mem _ hn

/-- What stands in front of a legible text. -/
theorem of_legible {l : Library} {isError : Bool} {n : Nat} {o : Outline} {w : List UInt8}
    (h : legible l isError n o u = true) (hwords : Text.words u = w :: ws) :
    if w ∈ Text.commentWords then
      ∃ n', legible l isError n' o (Text.beyond w (Text.behindWord u)) = true
    else o.lacks w = true ∧ isError = true ∨ ∃ phrase o1, BeginsWith l isError o u phrase o1 := by
  cases n with
  | zero => cases h
  | succ n =>
  -- the cases of `legible` in their order: a comment, an unknown word, `:`, any other word
  rw [legible, hwords] at h
  dsimp only at h
  by_cases hword : w ∈ Text.commentWords
  · rw [if_pos (List.contains_iff_mem.2 hword)] at h
    rw [if_pos hword]
    exact ⟨n, h⟩
  rw [if_neg (mt List.contains_iff_mem.1 hword)] at h
  rw [if_neg hword]
  by_cases hlacks : o.lacks w = true
  · rw [if_pos hlacks] at h
    exact .inl ⟨hlacks, h⟩
  rw [if_neg hlacks] at h
  right
  by_cases hcolon : w = Text.encode Primitive.colon.name
  · rw [if_pos hcolon] at h
    cases ws with
    | nil => cases h
    | cons name ws =>
        dsimp only at h
        rw [Bool.and_eq_true, Bool.not_eq_true', Bool.eq_false_iff, ne_eq, List.contains_iff_mem,
          Option.any_eq_true] at h
        obtain ⟨hname, o1, ho1, hrest⟩ := h
        refine ⟨.colon name, o1, ⟨ws, by rw [hwords, hcolon]; rfl⟩, ?_, ho1, trivial, n, hrest⟩
        simp only [Phrase.texts, List.forall_mem_cons]
        exact ⟨hcolon ▸ hword, hname, by simp⟩
  · rw [if_neg hcolon, Bool.and_eq_true, decide_eq_true_iff, Option.any_eq_true] at h
    obtain ⟨hallows, o1, ho1, hrest⟩ := h
    exact ⟨.word w, o1, ⟨ws, hwords⟩, by simpa [Phrase.texts] using hword, ho1, hallows, n, hrest⟩

/-- No definition after the library has the name of a word for comments. -/
structure SparesComments (l : Library) (o : Outline) : Prop where
  names : ∃ names, o.names = names ++ l.names [] ∧ ∀ n ∈ names, n ∉ Text.commentWords
  begun : ∀ p ∈ o.begun, p.1 ∉ Text.commentWords

namespace SparesComments

variable {l : Library} {o o1 : Outline} {text : List UInt8} {phrase : Phrase}

theorem library (l : Library) : SparesComments l ⟨l.names [], none⟩ :=
  ⟨⟨[], rfl, by simp⟩, by simp⟩

theorem primitive? {p : Primitive} (h : SparesComments l o) (hp : o.primitive? p = some o1) :
    SparesComments l o1 := by
  obtain ⟨⟨names, hnames, hnotMem⟩, hbegun⟩ := h
  obtain ⟨all, begun⟩ := o
  cases p with
  | operator _ | returnDepth =>
      cases hp
      exact ⟨⟨names, hnames, hnotMem⟩, hbegun⟩
  | toReturn =>
      cases hp
      refine ⟨⟨names, hnames, hnotMem⟩, fun p hp => ?_⟩
      obtain ⟨q, hq, rfl⟩ := Option.map_eq_some_iff.1 hp
      exact hbegun q hq
  | fromReturn =>
      match begun with
      | none =>
          cases hp
          exact ⟨⟨names, hnames, hnotMem⟩, hbegun⟩
      | some (name, k + 1) =>
          cases hp
          exact ⟨⟨names, hnames, hnotMem⟩, by simpa using hbegun⟩
      | some (_, 0) => cases hp
  | semicolon =>
      match begun with
      | some (name, 0) =>
          cases hp
          refine ⟨⟨name :: names, ?_, List.forall_mem_cons.2 ⟨?_, hnotMem⟩⟩, by simp⟩
          · exact congrArg (name :: ·) hnames
          · exact hbegun (name, 0) rfl
      | none => cases hp
      | some (_, _ + 1) => cases hp
  | _ => cases hp

/-- It stays so if no phrase takes such a name. -/
theorem after? (h : SparesComments l o) (hafter : o.after? phrase = some o1)
    (hnames : ∀ n ∈ phrase.names, n ∉ Text.commentWords) : SparesComments l o1 := by
  cases phrase with
  | word text =>
      change o.word? text = some o1 at hafter
      unfold Outline.word? at hafter
      split at hafter
      · cases hafter
        exact h
      · split at hafter
        · exact h.primitive? hafter
        · obtain ⟨-, hafter⟩ := Option.ite_none_right_eq_some.1 hafter
          cases hafter
          exact h
  | colon name =>
      obtain ⟨-, hafter⟩ := Option.ite_none_right_eq_some.1 hafter
      cases hafter
      refine ⟨h.names, fun p hp => ?_⟩
      cases hp
      exact hnames name (by simp [Phrase.names])

/-- The words for comments have the meaning that they have in the library. -/
theorem namesComments {fs : List Definition} {p q : Addr} (h : SparesComments l o)
    (ho : o.names = l.names fs) (hlibrary : NamesComments l.definitions p q) :
    NamesComments (fs ++ l.definitions) p q := by
  obtain ⟨⟨names, hnames, hnotMem⟩, -⟩ := h
  rw [hnames, Library.names, Library.names, List.nil_append, List.map_append] at ho
  have hfs := List.append_cancel_right ho
  intro w hw
  have hnone : (fs.find? fun f => Text.same w f.name) = none := by
    rw [List.find?_eq_none]
    intro f hf heq
    have hname : f.name ∈ names := hfs ▸ List.mem_map_of_mem hf
    exact hnotMem f.name hname (Text.eq_of_same_commentWord hw heq ▸ hw)
  rw [List.find?_append, hnone, Option.none_or]
  exact hlibrary w hw

end SparesComments

/-- The words for comments are known, and the text is legible with the outline of the machine. -/
structure Annotated (hooks : Hooks H) (m : Machine H) (l : Library) (t : Finder → Addr) (p q : Addr)
    (o : Outline) (u : List UInt8) : Prop where
  outlines : m.Outlines l o
  comments : m.dictionary.HasComments l.limit t p q
  spares : SparesComments l o
  remains : m.dictionary.Remains u
  legible : ∃ n, legible l hooks.unknownWord?.isNone n o u = true

section Annotated

variable {l : Library} {t : Finder → Addr} {p q : Addr} {o : Outline}
  (h : m.Annotated hooks l t p q o u) (hinput : m.dictionary.hasInput = true)
include h

theorem Annotated.le_capacity : 16 ≤ m.dictionary.capacity :=
  Nat.le_trans (by decide) h.outlines.le_capacity

include hinput

theorem Annotated.exists_firstWord : m.dictionary.Buffered ∧ ∃ s, FirstWord u m.dictionary.nextText s ∧
    m.dictionary.Reading (m.dictionary.nextText :: Text.words s.tail) := by
  obtain ⟨hbuffered, -, s, hfirst, -⟩ := h.remains.exists_firstWord h.le_capacity hinput
  exact ⟨hbuffered, s, hfirst, hfirst.words_eq ▸ h.remains.reading hbuffered⟩

theorem Annotated.skips (hnames : NamesComments l.definitions p q) (hroom : m.CommentRoom)
    (hword : m.dictionary.nextText ∈ Text.commentWords) :
    m.afterWord.Skips m.dictionary.nextWord.1 m.dictionary.nextText := by
  obtain ⟨-, s, -, hreading⟩ := h.exists_firstWord hinput
  obtain ⟨fs, limit, hoffers, hfs, hip⟩ := h.outlines.exists_offers
  exact skips_of_offers hoffers h.comments (h.spares.namesComments hfs hnames) hreading
    h.le_capacity hword hip hroom

/-- What stands in front, if it is not a comment: an unknown word or a phrase. -/
theorem Annotated.unknown_or_beginsWith (hword : m.dictionary.nextText ∉ Text.commentWords) :
    o.lacks m.dictionary.nextText = true ∧ hooks.unknownWord? = none ∨
      ∃ phrase o1, BeginsWith l hooks.unknownWord?.isNone o u phrase o1 := by
  obtain ⟨-, s, hfirst, -⟩ := h.exists_firstWord hinput
  obtain ⟨n, hn⟩ := h.legible
  have hcases := of_legible hn hfirst.words_eq
  rw [if_neg hword, Option.isNone_iff_eq_none] at hcases
  exact hcases

theorem Annotated.exists_sourceFree (hs : hooks.Steady)
    (hword : m.dictionary.nextText ∉ Text.commentWords) : ∃ ns, m.SourceFree hooks ns false := by
  obtain ⟨hbuffered, s, -, hreading⟩ := h.exists_firstWord hinput
  rcases h.unknown_or_beginsWith hinput hword with ⟨hlacks, hhost⟩ | ⟨phrase, o1, hphrase⟩
  · exact ⟨[], (sourceFree_of_lacks h.outlines hlacks hhost hreading).1⟩
  · obtain ⟨ws, hwords⟩ := hphrase.words_eq
    exact ⟨phrase.names, sourceFree_of_after? hs h.outlines hphrase.after_eq hphrase.allowed
      hphrase.names_notMem (hwords ▸ h.remains.reading hbuffered)⟩

/-- After the next word or phrase the text that is left is of the same kind. -/
theorem Annotated.exists_next (hs : hooks.Steady) (hnames : NamesComments l.definitions p q)
    (hroom : m.CommentRoom) (hend : NextEndsIn hooks m (.ok () m1)) :
    ∃ o1 u1, m1.Annotated hooks l t p q o1 u1 := by
  obtain ⟨hbuffered, s, hfirst, hreading⟩ := h.exists_firstWord hinput
  by_cases hword : m.dictionary.nextText ∈ Text.commentWords
  · obtain ⟨m2, hend2, htwins, hu1, -, -⟩ :=
      exists_of_comment hooks h.remains hinput hword (h.skips hinput hnames hroom hword)
    cases hend.eq hs hend2
    obtain ⟨n, hn⟩ := h.legible
    have hrest := of_legible hn hfirst.words_eq
    rw [if_pos hword] at hrest
    exact ⟨o, _, h.outlines.of_twins htwins, h.comments.of_inputOnly htwins.dictionary, h.spares, hu1,
      hrest⟩
  · rcases h.unknown_or_beginsWith hinput hword with ⟨hlacks, hhost⟩ | ⟨phrase, o1, hphrase⟩
    · -- an unknown word does not succeed
      exact absurd hend ((sourceFree_of_lacks h.outlines hlacks hhost hreading).2 m1)
    · obtain ⟨ws, hwords⟩ := hphrase.words_eq
      obtain ⟨hleft, hbuffered', -, -, -⟩ :=
        h.remains.afterWords hbuffered h.le_capacity hwords hphrase.notMem
      have hphrases := h.remains.reading hbuffered
      rw [hwords] at hphrases
      obtain ⟨r', -, hcoupled⟩ := hend.exists_of_coupled (growing_spelled hs _)
        ((Twins.refl m).coupled_spelled hooks h.outlines hphrase.after_eq hphrase.allowed hphrases hphrases)
      cases hcoupled with
      | ok honward =>
          exact ⟨o1, _, honward.outlines,
            (h.comments.of_inputOnly (inputOnly_afterWords _ _)).of_agreeOn honward.library,
            h.spares.after? hphrase.after_eq hphrase.names_notMem,
            hleft.of_agreeOn hbuffered' honward.agreeOn, hphrase.legible⟩

end Annotated

/-- In a legible text everything is a comment or has nothing to do with the source, if there is room for
the comments. -/
theorem commented_of_annotated {l : Library} {t : Finder → Addr} {p q : Addr} {o : Outline}
    (hs : hooks.Steady) (hnames : NamesComments l.definitions p q)
    (h : m.Annotated hooks l t p q o u) (hroom : ∀ ws m1, Comes hooks m ws m1 → m1.CommentRoom) :
    m.Commented hooks := by
  -- that there is room wherever the source leads from here is carried along
  refine commented_of_invariant (P := fun m1 => (∃ o1 u1, m1.Annotated hooks l t p q o1 u1) ∧
    ∀ ws m2, Comes hooks m1 ws m2 → m2.CommentRoom) ⟨⟨o, u, h⟩, hroom⟩ ?_ ?_
  · rintro m1 ⟨⟨o1, u1, h1⟩, hroom1⟩ hinput
    by_cases hword : m1.dictionary.nextText ∈ Text.commentWords
    · rw [if_pos hword]
      exact h1.skips hinput hnames (hroom1 [] m1 (.refl m1)) hword
    · rw [if_neg hword]
      obtain ⟨ns, hfree⟩ := h1.exists_sourceFree hinput hs hword
      exact ⟨ns, false, hfree⟩
  · rintro m1 m2 ⟨⟨o1, u1, h1⟩, hroom1⟩ hinput hend
    refine ⟨h1.exists_next hinput hs hnames (hroom1 [] m1 (.refl m1)) hend, fun ws m3 hm3 => ?_⟩
    by_cases hword : m1.dictionary.nextText ∈ Text.commentWords
    · exact hroom1 ws m3 (.comment hinput hword hend hm3)
    · obtain ⟨ns, hfree⟩ := h1.exists_sourceFree hinput hs hword
      exact hroom1 _ m3 (.word hinput hword hfree hend hm3)

/-- Whether there is room for a comment before each of the next words, which are `n` at most. -/
def roomy (hooks : Hooks H) (n : Nat) : Nat → Machine H → Bool
  | 0, _ => false
  | k + 1, m => decide m.CommentRoom && (!m.dictionary.hasInput ||
      match spelled hooks m.dictionary.nextWord.1 n n m.afterWord with
      | .ok _ m1 => roomy hooks n k m1
      | .error stop _ => stop != .outOfFuel)

theorem roomy_of_nextEndsIn (hs : hooks.Steady) {n k : Nat} (h : roomy hooks n (k + 1) m = true)
    (hinput : m.dictionary.hasInput = true) (hend : NextEndsIn hooks m (.ok () m1)) :
    roomy hooks n k m1 = true := by
  rw [roomy, hinput, Bool.not_true, Bool.false_or, Bool.and_eq_true] at h
  obtain ⟨-, h⟩ := h
  cases hword : spelled hooks m.dictionary.nextWord.1 n n m.afterWord with
  | ok _ m2 =>
      rw [hword] at h
      have hend2 : NextEndsIn hooks m (.ok () m2) := ⟨by simp, n, n, hword⟩
      cases hend.eq hs hend2
      exact h
  | error stop m2 =>
      rw [hword] at h
      have hend2 : NextEndsIn hooks m (.error stop m2) := by
        refine ⟨fun m3 heq => ?_, n, n, hword⟩
        cases heq
        cases h
      cases hend.eq hs hend2

/-- Then there is room wherever the source is interpreted to. -/
theorem commentRoom_of_roomy (hs : hooks.Steady) {n k : Nat} (h : roomy hooks n k m = true)
    (hcomes : Comes hooks m ws m1) : m1.CommentRoom := by
  induction hcomes generalizing k with
  | refl m =>
      cases k with
      | zero => cases h
      | succ k =>
          rw [roomy, Bool.and_eq_true, decide_eq_true_iff] at h
          exact h.1
  | comment hinput _ hend _ ih | word hinput _ _ hend _ ih =>
      cases k with
      | zero => cases h
      | succ k => exact ih (roomy_of_nextEndsIn hs h hinput hend)

/-! ## Whole lines -/

/-- What is known of a machine before a line is known with the line as its source. -/
theorem plain_withLine {fs : List Definition} {limit p q : Addr} {t : Finder → Addr}
    (hoffers : m.dictionary.Offers fs limit.toNat) (hcomments : m.dictionary.HasComments limit t p q)
    (hlength : line.length ≤ Layout.inputCapacity) (hzero : 0 ∉ line)
    (heffects : ∀ w ∈ Text.words (Text.uncommented line),
      (Effect.of? fs m.dictionary.compiling w).isSome = true) (hip : m.ip = 0)
    (hdata : m.data.depth + (Text.words (Text.uncommented line)).length + 4 ≤ m.data.capacity)
    (hreturns : m.returns.depth + 2 ≤ m.returns.capacity) :
    (m.withLine line).Plain fs limit t p q line := by
  obtain ⟨d, -, hloaded, hinput, hremains, -⟩ :=
    exists_loadInput_withLine hoffers.linked.le_capacity hlength hzero
  rw [hloaded]
  refine ⟨hoffers.of_inputOnly hinput, hcomments.of_inputOnly hinput, hremains, ?_, hip, hdata, hreturns⟩
  change ∀ w ∈ _, (Effect.of? fs d.compiling w).isSome = true
  rw [hinput.compiling_eq]
  exact heffects

theorem annotated_withLine {l : Library} {t : Finder → Addr} {p q : Addr} {o : Outline} {n : Nat}
    (houtlines : m.Outlines l o) (hcomments : m.dictionary.HasComments l.limit t p q)
    (hspares : SparesComments l o) (hlength : line.length ≤ Layout.inputCapacity) (hzero : 0 ∉ line)
    (hlegible : legible l hooks.unknownWord?.isNone n o line = true) :
    (m.withLine line).Annotated hooks l t p q o line := by
  obtain ⟨d, -, hloaded, hinput, hremains, -⟩ :=
    exists_loadInput_withLine houtlines.le_capacity hlength hzero
  rw [hloaded]
  exact ⟨houtlines.of_twins ((Twins.refl m).withDictionaries hinput), hcomments.of_inputOnly hinput,
    hspares, hremains, n, hlegible⟩

/-- Comments are skipped exactly. A line and the same line with a blank in place of each comment end alike
if one of them ends: in twins, both with success or both for the same reason. And in the course of the line
the words of the second one are read, all of them and in their order, and besides them only words that
begin comments. -/
theorem interpretLine_uncommented (hs : hooks.Steady) (hcap : 96 ≤ m.dictionary.capacity)
    (hlength : line.length ≤ Layout.inputCapacity) (hzero : 0 ∉ line)
    (hrun : (m.withLine line).Commented hooks) :
    EndAlike Twins (fun _ n => interpretLine hooks n line) m
      (fun _ n => interpretLine hooks n (Text.uncommented line)) m ∧
    ∀ ws m1, Comes hooks (m.withLine line) ws m1 → Text.words (Text.uncommented line) =
      ws ++ Text.words (Text.uncommented m1.dictionary.unread) := by
  have hline' : LineOf (Text.uncommented line) (Text.words (Text.uncommented line)) :=
    ⟨Nat.le_trans (Text.length_uncommented_le line) hlength, Text.zero_notMem_uncommented hzero, rfl⟩
  obtain ⟨d, hload, hloaded, hinput, hremains, -⟩ := exists_loadInput_withLine hcap hlength hzero
  obtain ⟨d', hload', hinput', hreading'⟩ := hline'.exists_loadInput_eq_ok hcap
  rw [hloaded] at hrun ⊢
  have hbeside : Beside { m with dictionary := d } { m with dictionary := d' } line :=
    ⟨(Twins.refl m).withDictionaries (hinput.symm.trans hinput'), hremains, hreading'⟩
  obtain ⟨hforth, hback⟩ := hbeside.endAlike_source hs hrun
  refine ⟨⟨?_, ?_⟩, fun ws m1 hm1 => ?_⟩
  · simpa only [endsIn_interpretLine_iff hs hload, endsIn_interpretLine_iff hs hload'] using hforth
  · simpa only [endsIn_interpretLine_iff hs hload, endsIn_interpretLine_iff hs hload'] using hback
  obtain ⟨u, hu, hwords⟩ := hm1.exists_remains hs hrun hremains
  rw [hu.unread_eq]
  exact hwords

/-- The lines of the standard vocabulary in which the words for comments are defined, and the words that
they need. -/
def commentLines : List String :=
  [0, 7, 8, 9, 15, 16, 18, 19, 21, 30, 31, 35, 53, 54, 55].filterMap (Prelude.lines[·]?)

/-- A machine that knows these words. -/
def commentMachine : Machine Unit := lastState <|
  Prelude.interpretLines {} 100 commentLines (ofDictionary (.setUp ⟨.sparse (.zeros 512)⟩) () {})

/-- The machine in the middle of a definition. -/
def definingMachine : Machine Unit := lastState (interpretLine {} 100 (Text.encode ": c") commentMachine)

/-- The definitions of both. No other words are taken to keep to themselves. -/
def commentLibrary : Library where
  definitions := (commentMachine.dictionary.entries?.getD []).map fun e =>
    ⟨e.addr, commentMachine.dictionary.text e.name, e.immediate, e.body⟩
  enclosed := []
  limit := 328

/-- Where the words are that the words for comments call. -/
def commentPlaces : Finder → Addr
  | .fetch => 110
  | .store => 120
  | .fetchByte => 130
  | .increment => 100
  | .isZero => 260

def pushingLine : List UInt8 := Text.encode "1 ( two )3 ( ) \\ 4"

def compilingLine : List UInt8 := Text.encode "( n -- n )1 + \\ adds one"

/-- A line with a definition and its use. -/
def definingLine : List UInt8 := Text.encode ": c ( n -- n ) 1 + ; 1 c"

/-- A line that fails between two comments. -/
def failingLine : List UInt8 := Text.encode "( one ) 1 nope ( two"

theorem commentMachine_eq :
    (commentMachine.dictionary.Linked commentLibrary.definitions commentLibrary.limit.toNat ∧
      commentMachine.dictionary.Resting commentLibrary.definitions ∧
      commentMachine.dictionary.HasComments commentLibrary.limit commentPlaces 270 318 ∧
      commentMachine.ip = 0 ∧ commentMachine.data.depth + 6 ≤ commentMachine.data.capacity ∧
      commentMachine.returns.depth + 2 ≤ commentMachine.returns.capacity) ∧
    (definingMachine.dictionary.Unfinished commentLibrary.definitions commentLibrary.limit.toNat
        ⟨328, Text.encode "c", false, 332⟩ [] ∧
      definingMachine.dictionary.HasComments commentLibrary.limit commentPlaces 270 318 ∧
      definingMachine.ip = 0 ∧ definingMachine.data.depth + 6 ≤ definingMachine.data.capacity ∧
      definingMachine.returns.depth + 2 ≤ definingMachine.returns.capacity) ∧
    (NamesComments commentLibrary.definitions 270 318 ∧ commentLibrary.enclosed = []) ∧
    (∀ w ∈ Text.words (Text.uncommented pushingLine),
      (Effect.of? commentLibrary.definitions false w).isSome = true) ∧
    (∀ w ∈ Text.words (Text.uncommented compilingLine),
      (Effect.of? commentLibrary.definitions true w).isSome = true) ∧
    (value? (interpretLine {} 20 (Text.uncommented pushingLine) commentMachine) = some () ∧
      (lastState (interpretLine {} 20 (Text.uncommented pushingLine) commentMachine)).data.cells =
        [3, 1]) ∧
    (value? (interpretLine {} 20 (Text.uncommented compilingLine) definingMachine) = some () ∧
      (lastState (interpretLine {} 20 (Text.uncommented compilingLine)
        definingMachine)).dictionary.CellsAt 332 [shortLiteral 1, operatorCell .add]) := by
  decide +kernel

/-- In the lines with a definition and with an unknown word there is room for all comments, and without
the comments the lines end. -/
theorem definingLine_failingLine_eq :
    (legible commentLibrary true 20 ⟨commentLibrary.names [], none⟩ definingLine = true ∧
      roomy {} 500 20 (commentMachine.withLine definingLine) = true ∧
      value? (interpretLine {} 20 (Text.uncommented definingLine) commentMachine) = some () ∧
      (lastState (interpretLine {} 20 (Text.uncommented definingLine) commentMachine)).data.cells =
        [2]) ∧
    legible commentLibrary true 20 ⟨commentLibrary.names [], none⟩ failingLine = true ∧
      roomy {} 500 20 (commentMachine.withLine failingLine) = true ∧
      error? (interpretLine {} 20 (Text.uncommented failingLine) commentMachine) =
        some (.error (.wordNotFound ⟨20, 24⟩)) ∧
      (lastState (interpretLine {} 20 (Text.uncommented failingLine) commentMachine)).dictionary.text
        ⟨20, 24⟩ = Text.encode "nope" := by
  decide +kernel

/-- The lines, and what is left of them without their comments. -/
theorem uncommented_commentMachine_eq :
    (pushingLine.length ≤ Layout.inputCapacity ∧ 0 ∉ pushingLine ∧
      Text.uncommented pushingLine = Text.encode "1  3    " ∧
      (Text.words (Text.uncommented pushingLine)).length = 2) ∧
    (compilingLine.length ≤ Layout.inputCapacity ∧ 0 ∉ compilingLine ∧
      Text.uncommented compilingLine = Text.encode " 1 +  " ∧
      (Text.words (Text.uncommented compilingLine)).length = 2) ∧
    (definingLine.length ≤ Layout.inputCapacity ∧ 0 ∉ definingLine ∧
      Text.uncommented definingLine = Text.encode ": c   1 + ; 1 c") ∧
    failingLine.length ≤ Layout.inputCapacity ∧ 0 ∉ failingLine ∧
      Text.uncommented failingLine = Text.encode "  1 nope  " := by
  decide +kernel

/-- A line with a definition or an unknown word has nothing to do with the source besides its comments. -/
theorem commented_commentMachine (hlength : line.length ≤ Layout.inputCapacity) (hzero : 0 ∉ line)
    (hlegible : legible commentLibrary true 20 ⟨commentLibrary.names [], none⟩ line = true)
    (hroomy : roomy {} 500 20 (commentMachine.withLine line) = true) :
    (commentMachine.withLine line).Commented {} := by
  obtain ⟨⟨hlinked, hresting, hcode, hip, -, -⟩, -, ⟨hnames, henclosed⟩, -⟩ := commentMachine_eq
  have hstocked := Linked.stocked hlinked (by simp [henclosed]) (by rw [henclosed]; exact .nil)
  have hannotated : (commentMachine.withLine line).Annotated {} _ _ _ _ _ line :=
    annotated_withLine (outlines_library hstocked hresting hip) hcode (SparesComments.library _) hlength
      hzero hlegible
  exact commented_of_annotated Hooks.steady_default hnames hannotated
    fun _ _ hcomes => commentRoom_of_roomy Hooks.steady_default hroomy hcomes

/-- The comments are skipped in a line of numbers, in a line inside a definition, in a line with a
definition and its use, and in one that fails. -/
theorem interpretLine_uncommented_commentMachine :
    (∃ m m' : Machine Unit,
      EndsIn (fun _ n => interpretLine {} n pushingLine) commentMachine (.ok () m) ∧
      EndsIn (fun _ n => interpretLine {} n (Text.encode "1  3    ")) commentMachine (.ok () m') ∧
        m.Twins m' ∧ m.data.cells = [3, 1]) ∧
    (∃ m m' : Machine Unit,
      EndsIn (fun _ n => interpretLine {} n compilingLine) definingMachine (.ok () m) ∧
      EndsIn (fun _ n => interpretLine {} n (Text.encode " 1 +  ")) definingMachine (.ok () m') ∧
        m.Twins m' ∧ m.dictionary.CellsAt 332 [shortLiteral 1, operatorCell .add]) ∧
    (∃ m m' : Machine Unit,
      EndsIn (fun _ n => interpretLine {} n definingLine) commentMachine (.ok () m) ∧
      EndsIn (fun _ n => interpretLine {} n (Text.encode ": c   1 + ; 1 c")) commentMachine (.ok () m') ∧
        m.Twins m' ∧ m.data.cells = [2]) ∧
    ∃ (stop stop' : Stop) (m m' : Machine Unit),
      EndsIn (fun _ n => interpretLine {} n failingLine) commentMachine (.error stop m) ∧
      EndsIn (fun _ n => interpretLine {} n (Text.encode "  1 nope  ")) commentMachine
        (.error stop' m') ∧
        m.Twins m' ∧ SameStop m m' stop stop' ∧ stop' = .error (.wordNotFound ⟨20, 24⟩) ∧
          m'.dictionary.text ⟨20, 24⟩ = Text.encode "nope" := by
  obtain ⟨⟨hlinked, hresting, hcode, hip, hdata, hreturns⟩,
    ⟨hunfinished, hcode', hip', hdata', hreturns'⟩, ⟨hnames, -⟩, hpushing, hcompiling, ⟨hvalue, hcells⟩,
    hvalue', hcells'⟩ := commentMachine_eq
  obtain ⟨⟨hlegible, hroomy, hdefined, hcalled⟩, hlegible', hroomy', hfailed, htext⟩ :=
    definingLine_failingLine_eq
  obtain ⟨⟨hlength1, hzero1, htext1, hcount1⟩, ⟨hlength2, hzero2, htext2, hcount2⟩,
    ⟨hlength3, hzero3, htext3⟩, hlength4, hzero4, htext4⟩ := uncommented_commentMachine_eq
  have hcap := hlinked.le_capacity
  -- the runs of the lines without their comments
  have hend1 : EndsIn (fun _ n => interpretLine {} n (Text.uncommented pushingLine)) commentMachine _ :=
    ⟨by simp, 0, 20, eq_ok_lastState hvalue⟩
  have hend2 : EndsIn (fun _ n => interpretLine {} n (Text.uncommented compilingLine)) definingMachine _ :=
    ⟨by simp, 0, 20, eq_ok_lastState hvalue'⟩
  have hend3 : EndsIn (fun _ n => interpretLine {} n (Text.uncommented definingLine)) commentMachine _ :=
    ⟨by simp, 0, 20, eq_ok_lastState hdefined⟩
  have hend4 : EndsIn (fun _ n => interpretLine {} n (Text.uncommented failingLine)) commentMachine _ :=
    ⟨by simp, 0, 20, eq_error_lastState hfailed⟩
  generalize lastState (interpretLine {} 20 (Text.uncommented pushingLine) commentMachine) = m1 at *
  generalize lastState (interpretLine {} 20 (Text.uncommented compilingLine) definingMachine) = m2 at *
  generalize lastState (interpretLine {} 20 (Text.uncommented definingLine) commentMachine) = m3 at *
  generalize lastState (interpretLine {} 20 (Text.uncommented failingLine) commentMachine) = m4 at *
  refine ⟨?_, ?_, ?_, ?_⟩
  · have hplain := plain_withLine (.resting hlinked hresting) hcode hlength1 hzero1
      (by rw [hresting.compiling_eq]; exact hpushing) hip (by omega) hreturns
    obtain ⟨m, hend, htwins⟩ := (interpretLine_uncommented Hooks.steady_default hcap hlength1 hzero1
      (commented_of_plain Hooks.steady_default hnames hplain)).1.exists_ok hend1
    exact ⟨m, m1, hend, htext1 ▸ hend1, htwins, htwins.data_eq ▸ hcells⟩
  · have hplain := plain_withLine (.compiling hunfinished) hcode' hlength2 hzero2
      (by rw [hunfinished.progress.compiling_eq]; exact hcompiling) hip' (by omega) hreturns'
    obtain ⟨m, hend, htwins⟩ := (interpretLine_uncommented Hooks.steady_default
      hunfinished.linked.le_capacity hlength2 hzero2
      (commented_of_plain Hooks.steady_default hnames hplain)).1.exists_ok hend2
    exact ⟨m, m2, hend, htext2 ▸ hend2, htwins,
      hcells'.of_agreeOn htwins.dictionary.agreeOn_above.symm (by decide) (by decide) (by decide)⟩
  · obtain ⟨m, hend, htwins⟩ := (interpretLine_uncommented Hooks.steady_default hcap hlength3 hzero3
      (commented_commentMachine hlength3 hzero3 hlegible hroomy)).1.exists_ok hend3
    exact ⟨m, m3, hend, htext3 ▸ hend3, htwins, htwins.data_eq ▸ hcalled⟩
  · obtain ⟨stop, m, hend, htwins, hstop⟩ := (interpretLine_uncommented Hooks.steady_default hcap
      hlength4 hzero4 (commented_commentMachine hlength4 hzero4 hlegible' hroomy')).1.exists_error hend4
    exact ⟨stop, _, m, m4, hend, htext4 ▸ hend4, htwins, hstop, rfl, htext⟩

end Machine

end ThreadedForth
