import ThreadedForth.Proofs.Machine.Session

/-!
# Typing definitions again

Definitions that once made words make them again when they are typed one after the other into an empty
machine, each word on a line of its own (`exists_forM_lines`). No line fails: there is room in the
dictionary, since there was room for the same words before.
-/

set_option autoImplicit false

namespace ThreadedForth

open Dictionary

variable {ws : List Word} {w : Word} {t : Typed} {ts : List Typed} {name text : List UInt8}

theorem typable_colonText : Typable colonText :=
  ⟨by decide, by decide, List.all_eq_true.1 (by decide)⟩

theorem typable_semicolonText : Typable semicolonText :=
  ⟨by decide, by decide, List.all_eq_true.1 (by decide)⟩

namespace Machine

variable {H : Type} {d : Dictionary} {s returns : Stack} {host : H}

/-! ## A line -/

/-- The first word of a line is interpreted, and then the rest of the line. -/
theorem exists_interpretLine_eq (rest : List UInt8) (hcap : 96 < d.capacity)
    (htext : Typable text) (hrest : ∀ b ∈ rest.head?, isWordByte b = false)
    (hlen : (text ++ rest).length ≤ 80) :
    ∃ (d1 : Dictionary) (span : Span), d.InputOnly d1 ∧ d1.Buffered ∧ d1.unread = rest.tail ∧
      d1.text span = text ∧ ∀ (k : Nat) (s returns : Stack) (host : H),
        interpretLine {} (k + 3) (text ++ rest) ⟨d, s, returns, 0, host⟩ =
          (do
            interpretWord {} (interpreter {} (k + 2)) (k + 1) span
            interpretSource {} (interpreter {} (k + 2)) (k + 1)) ⟨d1, s, returns, 0, host⟩ := by
  obtain ⟨d0, hload⟩ := exists_loadInput_eq_ok d hlen
  obtain ⟨-, -, hunread⟩ := unread_of_loadInput (Nat.le_of_lt hcap) hload
  have hinputOnly := inputOnly_of_loadInput hload
  have hbuffered := buffered_of_loadInput (by omega) hload
  have hcap0 : 16 ≤ d0.capacity := by
    rw [hinputOnly.capacity_eq]
    omega
  obtain ⟨hinput, hnext, hafter⟩ :=
    hbuffered.of_unread_eq rest hcap0 hunread htext.ne_nil htext.isWordByte hrest
  refine ⟨d0.nextWord.2, d0.nextWord.1, hinputOnly.trans d0.inputOnly_nextWord,
    (hbuffered.unread_nextWord hcap0 hinput).1, hafter, ?_, fun k s returns host => ?_⟩
  · rw [hbuffered.text_nextWord hinput (d0.agreeOn_nextWord.mono (Nat.le_refl _) (by decide)), hnext]
  · rw [interpretLine_of_loadInput (m := ⟨d, s, returns, 0, host⟩) (k + 3) hload]
    have hsource := interpretSource_succ (interpreter {} (k + 2)) (k + 1) ⟨d0, s, returns, 0, host⟩
    rw [if_pos hinput] at hsource
    exact hsource

/-- A line has come to its end when nothing is unread. -/
theorem interpretSource_of_unread {call : Interpreter H} (k : Nat) (h : d.unread = []) :
    interpretSource {} call (k + 1) ⟨d, s, returns, 0, host⟩ = .ok () ⟨d, s, returns, 0, host⟩ := by
  have hinput : d.hasInput = false := by
    rw [hasInput_eq, h]
    rfl
  rw [interpretSource_succ, hinput]
  rfl

/-! ## A definition -/

/-- The name that comes next is given where there is room for a header. -/
theorem exists_giveName (opened : d.Opened ws) (hbuffered : d.Buffered) (hunread : d.unread = name)
    (hname : Typable name) (hlen : name.length ≤ Header.maxNameLength)
    (hfits : bodyAt (nextAddr ws) (newestAddr (definitions ws)) name.length < d.capacity) :
    ∃ d2, (∀ (call : Interpreter H) (k : Nat) (s returns : Stack) (host : H),
        giveName call (k + 1) ⟨d, s, returns, 0, host⟩ = .ok () ⟨d2, s, returns, 0, host⟩) ∧
      d2.Settled ws ∧ d2.Underway ws (Word.begin ws name) ∧ d2.unread = [] ∧
      d2.capacity = d.capacity := by
  have hcap : 16 ≤ d.capacity := Nat.le_of_lt opened.settled.lt_capacity
  obtain ⟨hinput, hnext, hafter⟩ := hbuffered.of_unread_eq [] hcap
    (by rw [hunread, List.append_nil]) hname.ne_nil hname.isWordByte nofun
  obtain ⟨hstart, hend, hlength⟩ := hbuffered.nextWord_within hinput
  have htext := hbuffered.text_nextWord hinput
    (d.agreeOn_nextWord.mono (Nat.le_refl _) (by decide))
  have hbuffered1 := (hbuffered.unread_nextWord hcap hinput).1
  have opened1 := opened.of_inputOnly d.inputOnly_nextWord
  have hcap1 := d.inputOnly_nextWord.capacity_eq
  have hpos := List.length_pos_iff.2 hname.ne_nil
  rw [hnext] at hlength htext
  obtain ⟨d2, hdefine⟩ := (opened1.exists_define_iff (s := d.nextWord.1) (by omega)).2 (by
    rw [hlength, hcap1]
    exact hfits)
  obtain ⟨hsettled, hw, hagree, hcap2⟩ := opened1.begun_of_define hdefine (by omega) hstart hend
  rw [htext] at hw
  refine ⟨_, fun call k s returns host => ?_, hsettled, hw,
    (hbuffered1.unread_eq hagree).trans hafter, hcap2.trans hcap1⟩
  have hawait := awaitWord_succ call k ⟨d, s, returns, 0, host⟩
  rw [if_pos hinput] at hawait
  unfold giveName
  rw [bind_eq_of_ok hawait]
  exact beginWord_of_define hdefine

/-- A line with `:` and a name begins a word. -/
theorem exists_interpretLine_colon {s1 : Stack} (settled : d.Settled ws) (rest : d.AtRest ws)
    (hcolon : sense ws colonText = .primitive .colon) (hname : Typable name)
    (hlen : name.length ≤ Header.maxNameLength)
    (hfits : bodyAt (nextAddr ws) (newestAddr (definitions ws)) name.length < d.capacity)
    (hpush : s.push? (nextAddr ws).toInt16 = some s1) :
    ∃ d2, (∀ (k : Nat) (returns : Stack) (host : H),
        interpretLine {} (k + 3) (colonText ++ 32 :: name) ⟨d, s, returns, 0, host⟩ =
          .ok () ⟨d2, s1, returns, 0, host⟩) ∧
      d2.Settled ws ∧ d2.Underway ws (Word.begin ws name) ∧ d2.capacity = d.capacity := by
  have heven := settled.stacked.even_nextAddr
  have hle := settled.stacked.le_nextAddr
  have hbody : (nextAddr ws).toNat + 2 ≤
      bodyAt (nextAddr ws) (newestAddr (definitions ws)) name.length := by
    simp only [bodyAt]
    split <;> omega
  rw [toNat_firstEntry] at hle
  obtain ⟨d1, span, hinputOnly, hbuffered, hunread, htext, hline⟩ :=
    exists_interpretLine_eq (H := H) (d := d) (32 :: name) (by omega) typable_colonText
      (fun b hb => by cases hb; decide) (by
        rw [List.length_append, List.length_cons]
        exact Nat.le_trans (Nat.add_le_add_left (Nat.succ_le_succ hlen) _) (by decide))
  have settled1 := settled.of_inputOnly hinputOnly
  have rest1 := rest.of_inputOnly hinputOnly
  have hcap1 := hinputOnly.capacity_eq
  obtain ⟨entry, d2, halign⟩ : ∃ a d2, alignHere d1 = .ok a d2 := by
    refine exists_alignHere_eq_ok (rest1.here_eq ▸ settled.stacked.le_nextAddr) ?_
    rw [rest1.here_eq]
    omega
  obtain ⟨rfl, settled2, rest2, ready2, hdrafts⟩ := settled1.of_alignHere rest1 halign
  obtain ⟨opened, hopened⟩ := settled2.opened rest2 ready2
  have hinput := hdrafts.agreeOn_input.trans hopened
  obtain ⟨d4, hgive, hsettled, hw, hunread4, hcap4⟩ := exists_giveName (H := H) opened
    (hbuffered.of_agreeOn hinput) ((hbuffered.unread_eq hinput).trans hunread) hname hlen (by
      rw [capacity_setReservedAddr, hdrafts.ext.capacity_eq, hcap1]
      exact hfits)
  refine ⟨d4, fun k returns host => ?_, hsettled, hw, hcap4.trans ((capacity_setReservedAddr ..).trans
    (hdrafts.ext.capacity_eq.trans hcap1))⟩
  have hrun : colon {} (interpreter {} (k + 2)) (k + 1) ⟨d1, s, returns, 0, host⟩ =
      .ok () ⟨d4, s1, returns, 0, host⟩ := by
    rw [colon_of_alignHere halign, hpush]
    exact hgive _ _ _ _ _
  have hperform : perform ({} : Hooks H) (interpreter {} (k + 2)) (k + 1) .colon =
    (do colon {} (interpreter {} (k + 2)) (k + 1); return .advance) := rfl
  have hword : interpretWord {} (interpreter {} (k + 2)) (k + 1) span ⟨d1, s, returns, 0, host⟩ =
      .ok () ⟨d4, s1, returns, 0, host⟩ := by
    rw [interpretWord_of_settled (m := ⟨d1, s, returns, 0, host⟩) settled1 (Or.inl rest1), htext,
      hcolon, rest1.compiling_eq]
    exact execute_token_of_ok hperform hrun rfl
  rw [hline, bind_eq_of_ok hword]
  exact interpretSource_of_unread k hunread4

/-- A line with a word adds its code. -/
theorem exists_interpretLine_word {vs : List Cell} (settled : d.Settled ws) (hw : d.Underway ws w)
    (htext : Typable text) (hcode : (sense ws text).code? = some vs)
    (hfits : w.body.toNat + 2 * (w.extend vs).code.length < d.capacity) :
    ∃ d2, (∀ (k : Nat) (s returns : Stack) (host : H),
        interpretLine {} (k + 3) text ⟨d, s, returns, 0, host⟩ = .ok () ⟨d2, s, returns, 0, host⟩) ∧
      d2.Settled ws ∧ d2.Underway ws (w.extend vs) ∧ d2.capacity = d.capacity := by
  have hcap : 96 < d.capacity := by
    have hle := settled.stacked.le_nextAddr
    have hbody := hw.follows.lt_body
    rw [hw.follows.addr_eq] at hbody
    rw [toNat_firstEntry] at hle
    omega
  obtain ⟨d1, span, hinputOnly, hbuffered, hunread, htext1, hline⟩ :=
    exists_interpretLine_eq (H := H) [] hcap htext nofun
      (by rw [List.append_nil]; exact htext.length_le)
  rw [List.append_nil] at hline
  have settled1 := settled.of_inputOnly hinputOnly
  have hw1 := hw.of_inputOnly hinputOnly
  have hlength : (w.extend vs).code.length = w.code.length + vs.length := List.length_append
  obtain ⟨d2, happend⟩ := exists_forM_append_eq_ok vs hw1.ready (by
    rw [hw1.toNat_here, hinputOnly.capacity_eq]
    omega)
  have hdrafts := drafts_forM_append hw1.ready happend
  have hstraight : Straight ws vs := straight_of_code? hcode
  refine ⟨d2, fun k s returns host => ?_,
    settled1.of_leavesBelow (hdrafts.leavesBelow settled1.le_here), hw1.extend hstraight happend,
    hdrafts.ext.capacity_eq.trans hinputOnly.capacity_eq⟩
  rw [← htext1] at hcode
  have hword : interpretWord {} (interpreter {} (k + 2)) (k + 1) span ⟨d1, s, returns, 0, host⟩ =
      .ok () ⟨d2, s, returns, 0, host⟩ := by
    rw [interpretWord_of_code? (m := ⟨d1, s, returns, 0, host⟩) settled1 hw1 hcode]
    simp only [onDictionary, happend]
  rw [hline, bind_eq_of_ok hword]
  exact interpretSource_of_unread k ((hbuffered.unread_eq hdrafts.agreeOn_input).trans hunread)

/-- A line with `;` finishes the word. -/
theorem exists_interpretLine_semicolon {data : Stack} (settled : d.Settled ws)
    (hw : d.Underway ws w) (hsemicolon : sense ws semicolonText = .primitive .semicolon)
    (hfits : d.HasRoom) (hpop : s.pop? = some (w.addr.toInt16, data)) :
    ∃ d2, (∀ (k : Nat) (returns : Stack) (host : H),
        interpretLine {} (k + 3) semicolonText ⟨d, s, returns, 0, host⟩ =
          .ok () ⟨d2, data, returns, 0, host⟩) ∧
      d2.Settled (w :: ws) ∧ d2.AtRest (w :: ws) ∧ d2.capacity = d.capacity := by
  have hcap : 96 < d.capacity := Nat.lt_of_le_of_lt (Nat.le_trans hw.ready.le_here
    (Nat.le_refl _)) hw.ready.here_lt
  obtain ⟨d1, span, hinputOnly, hbuffered, hunread, htext1, hline⟩ :=
    exists_interpretLine_eq (H := H) [] hcap typable_semicolonText nofun (by decide)
  rw [List.append_nil] at hline
  have settled1 := settled.of_inputOnly hinputOnly
  have hw1 := hw.of_inputOnly hinputOnly
  have hfits1 := hinputOnly.hasRoom_iff.2 hfits
  obtain ⟨d2, hexecute, hsettled, hrest, hinput, hcap2, -⟩ :=
    exists_execute_semicolon (H := H) settled1 hw1 hfits1 hpop
  refine ⟨d2, fun k returns host => ?_, hsettled, hrest, hcap2.trans hinputOnly.capacity_eq⟩
  have stands : d1.Stands ws (some w) := hw1
  have hword : interpretWord {} (interpreter {} (k + 2)) (k + 1) span ⟨d1, s, returns, 0, host⟩ =
      .ok () ⟨d2, data, returns, 0, host⟩ := by
    rw [interpretWord_of_settled (m := ⟨d1, s, returns, 0, host⟩) settled1 stands.isOpen, htext1,
      hsemicolon, hw1.compiling_eq]
    exact hexecute _ _ _ _
  rw [hline, bind_eq_of_ok hword]
  exact interpretSource_of_unread k ((hbuffered.unread_eq hinput).trans hunread)

/-- The lines up to the last word begin the word and add its code. -/
theorem exists_forM_words {s1 : Stack} (hspells : Spells ws t w) (settled : d.Settled ws)
    (rest : d.AtRest ws) (hlen : w.name.length ≤ Header.maxNameLength)
    (hbody : w.body.toNat = bodyAt (nextAddr ws) (newestAddr (definitions ws)) w.name.length)
    (hfits : w.body.toNat + 2 * w.code.length < d.capacity)
    (hpush : s.push? (nextAddr ws).toInt16 = some s1) :
    ∃ d2, (∀ (k : Nat) (returns : Stack) (host : H),
        ((colonText ++ 32 :: t.name) :: t.words).forM (interpretLine {} (k + 3))
          ⟨d, s, returns, 0, host⟩ = .ok () ⟨d2, s1, returns, 0, host⟩) ∧
      d2.Settled ws ∧ d2.Underway ws w ∧ d2.capacity = d.capacity := by
  induction hspells with
  | begins hcolon hname =>
      have hroom := Nat.lt_of_le_of_lt (Nat.le_add_right _ _) hfits
      rw [hbody] at hroom
      obtain ⟨d2, hline, hrest⟩ :=
        exists_interpretLine_colon (H := H) settled rest hcolon hname hlen hroom hpush
      exact ⟨d2, fun k returns host => bind_eq_of_ok (hline k returns host) _, hrest⟩
  | @adds t w text vs earlier htext hcode ih =>
      have hlength : (w.extend vs).code.length = w.code.length + vs.length := List.length_append
      rw [hlength] at hfits
      obtain ⟨d1, hlines, settled1, hw1, hcap1⟩ := ih hlen hbody (by
        have hsame : (w.extend vs).body = w.body := rfl
        rw [hsame] at hfits
        omega)
      obtain ⟨d2, hline, settled2, hw2, hcap2⟩ :=
        exists_interpretLine_word (H := H) settled1 hw1 htext hcode (by
          rw [hlength, hcap1]
          exact hfits)
      refine ⟨d2, fun k returns host => ?_, settled2, hw2, hcap2.trans hcap1⟩
      have hsplit : (colonText ++ 32 :: (t.add text).name) :: (t.add text).words =
        ((colonText ++ 32 :: t.name) :: t.words) ++ [text] := rfl
      rw [hsplit, forM_append_eq_of_ok _ (hlines k returns host)]
      exact bind_eq_of_ok (hline k s1 returns host) _

/-- The lines of a definition make its word. -/
theorem exists_forM_lines {s1 : Stack} (hspells : Spells ws t w) (settled : d.Settled ws)
    (rest : d.AtRest ws) (hsemicolon : sense ws semicolonText = .primitive .semicolon)
    (hfollows : w.Follows ws) (hfits : w.body.toNat + 2 * w.cells.length < d.capacity)
    (hpush : s.push? (nextAddr ws).toInt16 = some s1) :
    ∃ d2, (∀ (k : Nat) (returns : Stack) (host : H),
        t.lines.forM (interpretLine {} (k + 3)) ⟨d, s, returns, 0, host⟩ =
          .ok () ⟨d2, s, returns, 0, host⟩) ∧
      d2.Settled (w :: ws) ∧ d2.AtRest (w :: ws) ∧ d2.capacity = d.capacity := by
  have hbody := hfollows.toNat_body
  have haddr := hfollows.addr_eq
  have hcells := w.length_cells
  rw [haddr] at hbody
  obtain ⟨d1, hlines, settled1, hw1, hcap1⟩ := exists_forM_words (H := H) hspells settled rest
    hfollows.length_le hbody (by omega) hpush
  have hfits1 : d1.HasRoom := by
    have hle := hw1.ready.le_here
    have hhere := hw1.toNat_here
    refine ⟨by omega, by omega⟩
  have hpop : s1.pop? = some (w.addr.toInt16, s) := by
    rw [haddr]
    exact Stack.pop?_of_push? hpush
  obtain ⟨d2, hline, settled2, rest2, hcap2⟩ :=
    exists_interpretLine_semicolon (H := H) settled1 hw1 hsemicolon hfits1 hpop
  refine ⟨d2, fun k returns host => ?_, settled2, rest2, hcap2.trans hcap1⟩
  rw [Typed.lines, forM_append_eq_of_ok _ (hlines k returns host)]
  exact bind_eq_of_ok (hline k returns host) _

/-- The definitions make their words again. -/
theorem exists_forM_flatMap {m₀ : Machine H} (hmakes : Makes m₀ ts ws) (hstacked : Stacked ws)
    (settled : d.Settled []) (rest : d.AtRest [])
    (hcap : d.capacity = m₀.dictionary.capacity) :
    ∃ d2, (∀ (k : Nat) (returns : Stack) (host : H),
        (ts.flatMap Typed.lines).forM (interpretLine {} (k + 3))
          ⟨d, .empty m₀.data.capacity, returns, 0, host⟩ =
          .ok () ⟨d2, .empty m₀.data.capacity, returns, 0, host⟩) ∧
      d2.Settled ws ∧ d2.AtRest ws ∧ d2.capacity = m₀.dictionary.capacity := by
  induction hmakes with
  | nil => exact ⟨d, fun k returns host => rfl, settled, rest, hcap⟩
  | @snoc ts ws t w older hspells hsemicolon hfits hholds ih =>
      cases hstacked with
      | cons hstacked follows hsize =>
          obtain ⟨d1, hlines, settled1, rest1, hcap1⟩ := ih hstacked
          rw [Word.toNat_stop hsize, ← hcap1] at hfits
          obtain ⟨s1, hpush, -⟩ := (Stack.empty m₀.data.capacity).exists_push?
            (nextAddr ws).toInt16 hholds
          obtain ⟨d2, hline, settled2, rest2, hcap2⟩ :=
            exists_forM_lines (H := H) hspells settled1 rest1 hsemicolon follows hfits hpush
          refine ⟨d2, fun k returns host => ?_, settled2, rest2, hcap2.trans hcap1⟩
          rw [List.flatMap_append, forM_append_eq_of_ok _ (hlines k returns host),
            List.flatMap_cons, List.flatMap_nil, List.append_nil]
          exact hline k returns host

end Machine

end ThreadedForth
