import ThreadedForth.Proofs.Machine.Comments
import ThreadedForth.Proofs.Machine.SourceFree

/-!
# Lines with comments beside lines without them

A line with comments is interpreted beside the same line with a blank in place of each comment. In the
first run a word that begins a comment only moves the cursor behind it (`exists_of_comment`), and the
second run waits. All other words come up in both (`Beside.of_word`). They find different texts
around them and behind them, so they are taken to have nothing to do with the source but to read their own
names and, it may be, the names after them (`SourceFree`).

The machines are twins after each word, and so in the end (`Beside.endAlike_source`). What is read besides
the comments are the words of the second line, all of them in their order (`Comes.exists_remains`).
-/

set_option autoImplicit false

namespace ThreadedForth.Machine

open Dictionary

variable {H : Type} {hooks : Hooks H} {m m' m1 : Machine H} {u line : List UInt8}
  {ns ws : List (List UInt8)} {last : Bool} {r : EStateM.Result Stop (Machine H) Unit}

/-! ## The way through the source -/

/-- The source is interpreted up to another machine. The words that were read on the way are told, but for
those that begin comments. -/
inductive Comes (hooks : Hooks H) : Machine H → List (List UInt8) → Machine H → Prop
  | refl (m : Machine H) : Comes hooks m [] m
  | comment {m m1 m2 : Machine H} {ws : List (List UInt8)} (hinput : m.dictionary.hasInput = true)
      (hword : m.dictionary.nextText ∈ Text.commentWords) (hend : NextEndsIn hooks m (.ok () m1))
      (rest : Comes hooks m1 ws m2) : Comes hooks m ws m2
  | word {m m1 m2 : Machine H} {ns ws : List (List UInt8)} {last : Bool}
      (hinput : m.dictionary.hasInput = true) (hword : m.dictionary.nextText ∉ Text.commentWords)
      (hfree : m.SourceFree hooks ns last) (hend : NextEndsIn hooks m (.ok () m1))
      (rest : Comes hooks m1 ws m2) : Comes hooks m (m.dictionary.nextText :: (ns ++ ws)) m2

/-- Wherever the source is interpreted to, the next word begins a comment and has room for that, or it has
nothing to do with the source. -/
def Commented (hooks : Hooks H) (m : Machine H) : Prop :=
  ∀ ws m1, Comes hooks m ws m1 → m1.dictionary.hasInput = true →
    if m1.dictionary.nextText ∈ Text.commentWords then
      m1.afterWord.Skips m1.dictionary.nextWord.1 m1.dictionary.nextText
    else ∃ ns last, m1.SourceFree hooks ns last

/-- Where the next word succeeds, the rest of the source is left. -/
theorem endsIn_source_iff_of_nextEndsIn (hs : hooks.Steady) (h : m.dictionary.hasInput = true)
    (hnext : NextEndsIn hooks m (.ok () m1)) :
    EndsIn (source hooks) m r ↔ EndsIn (source hooks) m1 r := by
  rw [endsIn_source_of_hasInput hs h, EndsIn.bind_iff (growing_spelled hs _) (growing_source hs)]
  constructor
  · rintro (⟨m2, hm2, hr⟩ | ⟨stop, m2, hm2, -⟩)
    · cases hnext.eq hs hm2
      exact hr
    · cases hnext.eq hs hm2
  · intro hr
    exact .inl ⟨m1, hnext, hr⟩

/-! ## What is left to read -/

/-- A comment is skipped. -/
theorem exists_of_comment (hooks : Hooks H) (h : m.dictionary.Remains u)
    (hinput : m.dictionary.hasInput = true)
    (hword : m.dictionary.nextText ∈ Text.commentWords)
    (hskips : m.afterWord.Skips m.dictionary.nextWord.1 m.dictionary.nextText) :
    ∃ m1, NextEndsIn hooks m (.ok () m1) ∧ m.Twins m1 ∧
      let u1 := Text.beyond m.dictionary.nextText (Text.behindWord u)
      m1.dictionary.Remains u1 ∧ u1.length < u.length ∧
        Text.words (Text.uncommented u) = Text.words (Text.uncommented u1) := by
  have hcap := h.lt_capacity (h.ne_nil_of_hasInput hinput)
  obtain ⟨-, hd', s, hfirst, hrest⟩ := h.exists_firstWord (Nat.le_of_lt hcap) hinput
  have hcap' : 16 ≤ m.afterWord.dictionary.capacity := by
    rw [(Twins.self_afterWord m).dictionary.capacity_eq]
    exact Nat.le_of_lt hcap
  obtain ⟨m1, hend, htwins, hremains⟩ := exists_endsIn_comment hooks hskips hd' hcap' hrest
  rw [hfirst.tail_eq] at hremains
  refine ⟨m1, hend, (Twins.self_afterWord m).trans htwins, hremains, ?_, ?_⟩
  · have hbeyond := length_beyond_le m.dictionary.nextText (Text.behindWord u)
    have hlt := hfirst.length_tail_lt
    rw [hfirst.tail_eq] at hlt
    omega
  · rw [← hfirst.tail_eq]
    exact hfirst.words_uncommented_of_mem hword

/-- The word and those that it takes are read, and the rest is left. -/
theorem SourceFree.exists_remains (hfree : m.SourceFree hooks ns last) (h : m.dictionary.Remains u)
    (hinput : m.dictionary.hasInput = true) (hword : m.dictionary.nextText ∉ Text.commentWords) :
    ∃ u', (∀ m1, NextEndsIn hooks m (.ok () m1) → m1.dictionary.Remains u') ∧ u'.length < u.length ∧
      Text.words (Text.uncommented u) =
        m.dictionary.nextText :: (ns ++ Text.words (Text.uncommented u')) ∧
      (last = true → Text.words (Text.uncommented u') = []) := by
  obtain ⟨ws, hreading, hlast⟩ := hfree.reading
  have hcap := Nat.le_of_lt (h.lt_capacity (h.ne_nil_of_hasInput hinput))
  have hwords : Text.words u = (m.dictionary.nextText :: ns) ++ ws := by
    rw [← h.unread_eq]
    exact hreading.words_eq
  obtain ⟨hu', hbuffered, hlength, hleft, hboth⟩ :=
    h.afterWords hreading.buffered hcap hwords (List.forall_mem_cons.2 ⟨hword, hfree.names⟩)
  rw [List.length_cons] at hlength
  refine ⟨Text.behind (ns.length + 1) u, fun m1 hm1 => ?_, by omega, hboth, fun hl => ?_⟩
  · exact hu'.of_agreeOn hbuffered (hfree.kept m ws m1 (.refl m) hreading hlast hm1)
  · exact Text.words_uncommented_eq_nil (hleft.trans (hlast hl))

/-- What is read of the source besides comments are the words of the text without them. -/
theorem Comes.exists_remains (hs : hooks.Steady) (hcomes : Comes hooks m ws m1)
    (hrun : m.Commented hooks) (h : m.dictionary.Remains u) :
    ∃ u', m1.dictionary.Remains u' ∧
      Text.words (Text.uncommented u) = ws ++ Text.words (Text.uncommented u') := by
  induction hcomes generalizing u with
  | refl m => exact ⟨u, h, rfl⟩
  | comment hinput hword hend rest ih =>
      have hskips := hrun _ _ (.refl _) hinput
      rw [if_pos hword] at hskips
      obtain ⟨m1, hend1, -, hu1, -, hwords⟩ := exists_of_comment hooks h hinput hword hskips
      cases hend.eq hs hend1
      obtain ⟨u', hu', hrest⟩ := ih (fun ws m2 hm2 => hrun _ _ (.comment hinput hword hend hm2)) hu1
      exact ⟨u', hu', hwords.trans hrest⟩
  | word hinput hword hfree hend rest ih =>
      obtain ⟨u1, hu1, -, hwords, -⟩ := hfree.exists_remains h hinput hword
      obtain ⟨u', hu', hrest⟩ :=
        ih (fun ws m2 hm2 => hrun _ _ (.word hinput hword hfree hend hm2)) (hu1 _ hend)
      refine ⟨u', hu', ?_⟩
      rw [hwords, hrest, List.cons_append, List.append_assoc]

/-! ## Two runs -/

/-- The first machine has a text before it, and the second one its words without comments. -/
structure Beside (m m' : Machine H) (u : List UInt8) : Prop where
  twins : m.Twins m'
  remains : m.dictionary.Remains u
  reading : m'.dictionary.Reading (Text.words (Text.uncommented u))

/-- A word that begins no comment comes up in both machines, and does the same. -/
theorem Beside.of_word (h : Beside m m' u) (hfree : m.SourceFree hooks ns last)
    (hinput : m.dictionary.hasInput = true) (hword : m.dictionary.nextText ∉ Text.commentWords) :
    m'.dictionary.hasInput = true ∧ ∃ u', u'.length < u.length ∧
      EndAlike (fun m1 m1' => NextEndsIn hooks m (.ok () m1) ∧ Beside m1 m1' u')
        (spelled hooks m.dictionary.nextWord.1) m.afterWord
        (spelled hooks m'.dictionary.nextWord.1) m'.afterWord := by
  obtain ⟨u', hu', hlength, hwords, hlast'⟩ := hfree.exists_remains h.remains hinput hword
  obtain ⟨ws, hreading, hlast⟩ := hfree.reading
  have hreading' := h.reading
  rw [hwords] at hreading'
  have hcap : 16 ≤ m'.dictionary.capacity := by
    rw [h.twins.dictionary.capacity_eq]
    exact Nat.le_of_lt (h.remains.lt_capacity (h.remains.ne_nil_of_hasInput hinput))
  -- what is left in the second machine after the word
  have hleft : (m'.dictionary.afterWords (ns.length + 1)).Reading
      (Text.words (Text.uncommented u')) := by
    rw [← List.cons_append] at hreading'
    exact hreading'.afterWords hcap
  have hrest : ∀ m1', NextEndsIn hooks m' (.ok () m1') →
      m1'.dictionary.Reading (Text.words (Text.uncommented u')) := fun m1' hm1' =>
    hleft.of_agreeOn (hfree.kept m' _ m1' h.twins hreading' hlast' hm1')
  refine ⟨(hreading'.cons hcap).1, u', hlength, fun r hr => ?_, fun r' hr' => ?_⟩
  · obtain ⟨r', hr', halike⟩ := hfree.alike m m' ws _ r (.refl m) h.twins hreading hreading'
      (fun hl => ⟨hlast hl, hlast' hl⟩) hr
    refine ⟨r', hr', halike.imp fun m1 m1' h1 h1' htwins => ?_⟩
    subst h1 h1'
    exact ⟨hr, htwins, hu' m1 hr, hrest m1' hr'⟩
  · obtain ⟨r, hr, halike⟩ := hfree.alike m' m _ ws r' h.twins (.refl m) hreading' hreading
      (fun hl => ⟨hlast' hl, hlast hl⟩) hr'
    refine ⟨r, hr, (halike.symm fun _ _ => Twins.symm).imp fun m1 m1' h1 h1' htwins => ?_⟩
    subst h1 h1'
    exact ⟨hr, htwins, hu' m1 hr, hrest m1' hr'⟩

/-- With the same words before them apart from comments, machines end alike. -/
theorem Beside.endAlike_source (hs : hooks.Steady) (h : Beside m m' u) (hrun : m.Commented hooks) :
    EndAlike Twins (source hooks) m (source hooks) m' := by
  -- on the length of the text: what is left after a word, or after a comment, is shorter
  induction hn : u.length using Nat.strongRecOn generalizing m m' u with
  | ind n ih =>
  subst hn
  cases hinput : m.dictionary.hasInput with
  | false =>
      have hnil := Text.words_uncommented_eq_nil (h.remains.words_eq_nil hinput)
      have hinput' : m'.dictionary.hasInput = false := (hnil ▸ h.reading).hasInput_of_nil
      constructor
      · intro r hr
        rw [(endsIn_source_of_hasInput_eq_false hinput).1 hr]
        exact ⟨_, (endsIn_source_of_hasInput_eq_false hinput').2 rfl, .ok h.twins⟩
      · intro r' hr'
        rw [(endsIn_source_of_hasInput_eq_false hinput').1 hr']
        exact ⟨_, (endsIn_source_of_hasInput_eq_false hinput).2 rfl, .ok h.twins⟩
  | true =>
  have hnext := hrun [] m (.refl m) hinput
  by_cases hword : m.dictionary.nextText ∈ Text.commentWords
  · rw [if_pos hword] at hnext
    obtain ⟨m1, hend, htwins, hu1, hlength, hwords⟩ :=
      exists_of_comment hooks h.remains hinput hword hnext
    have hrest := ih _ hlength ⟨htwins.symm.trans h.twins, hu1, hwords ▸ h.reading⟩
      (fun ws m2 hm2 => hrun ws m2 (.comment hinput hword hend hm2)) rfl
    constructor
    · simpa only [endsIn_source_iff_of_nextEndsIn hs hinput hend] using hrest.forth
    · simpa only [endsIn_source_iff_of_nextEndsIn hs hinput hend] using hrest.back
  · rw [if_neg hword] at hnext
    obtain ⟨ns, last, hfree⟩ := hnext
    obtain ⟨hinput', u', hlength, hboth⟩ := h.of_word hfree hinput hword
    have hrest : ∀ m1 m1', NextEndsIn hooks m (.ok () m1) ∧ Beside m1 m1' u' →
        EndAlike Twins (source hooks) m1 (source hooks) m1' := fun m1 m1' hm1 =>
      ih _ hlength hm1.2 (fun ws m2 hm2 => hrun _ m2 (.word hinput hword hfree hm1.1 hm2)) rfl
    have hend := hboth.bind (growing_spelled hs _) (growing_spelled hs _) (growing_source hs)
      (growing_source hs) hrest
    constructor
    · simpa only [endsIn_source_of_hasInput hs hinput, endsIn_source_of_hasInput hs hinput']
        using hend.forth
    · simpa only [endsIn_source_of_hasInput hs hinput, endsIn_source_of_hasInput hs hinput']
        using hend.back

/-! ## Loaded lines -/

/-- The machine with a line as its source. -/
def withLine (line : List UInt8) (m : Machine H) : Machine H :=
  { m with dictionary := lastState (loadInput line m.dictionary) }

/-- A line is loaded, and is then what is left to read. -/
theorem exists_loadInput_withLine (hcap : 96 ≤ m.dictionary.capacity)
    (hlength : line.length ≤ Layout.inputCapacity) (hzero : 0 ∉ line) :
    ∃ d, loadInput line m.dictionary = .ok () d ∧ m.withLine line = { m with dictionary := d } ∧
      m.dictionary.InputOnly d ∧ d.Remains line ∧ d.Reading (Text.words line) := by
  have hline : LineOf line (Text.words line) := ⟨hlength, hzero, rfl⟩
  obtain ⟨d, hload, hinput, hreading⟩ := hline.exists_loadInput_eq_ok hcap
  have hunread : d.unread = line := (unread_of_loadInput hcap hload).2.2
  refine ⟨d, hload, by rw [withLine, hload]; rfl, hinput, ⟨hunread, fun b hb => ?_, fun _ =>
    hreading.buffered⟩, hreading⟩
  exact hreading.ne_zero b (hunread ▸ hb)

end ThreadedForth.Machine
