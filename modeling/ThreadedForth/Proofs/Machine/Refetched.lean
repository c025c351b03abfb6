import Mathlib.Data.List.Basic
import ThreadedForth.Proofs.Dictionary.Draft
import ThreadedForth.Proofs.Dictionary.Refilled
import ThreadedForth.Proofs.Machine.Aborted
import ThreadedForth.Proofs.Machine.Beside
import ThreadedForth.Proofs.Machine.Evaluate
import ThreadedForth.Proofs.Machine.Nested

/-!
# Lines that are fetched in the middle of a line

There is one input buffer. `evaluate` puts the cells about the source back after its text, but not the
bytes of the source. If the text fetches lines from the host, the last one of them stands in the buffer
afterwards (`fetched_of_interprets`), and the line that called `evaluate` goes on in it: with the bytes
that the fetched line has at the places of the words that were typed, and with nothing where it is
shorter. `line_after_fetching_text` says which words these are, for every text that does nothing else
to the buffer.
-/

set_option autoImplicit false

namespace ThreadedForth.Machine

open Dictionary

variable {hooks : Hooks Batch} {call : Interpreter Batch} {n : Nat} {m m' m1 m₁ m₂ : Machine Batch}
  {lines lines' : List (List UInt8)}

/-! ## What fetching does to the buffer -/

/-- Lines were taken from the queue. The last one of them is in the input buffer; if there is none,
the buffer is as it was. -/
structure Fetched (m : Machine Batch) (lines : List (List UInt8)) (m' : Machine Batch) : Prop where
  capacity_eq : m'.dictionary.capacity = m.dictionary.capacity
  queue_eq : m.host.queue = lines ++ m'.host.queue
  kept : lines = [] → m.dictionary.AgreeOn m'.dictionary 16 96
  buffers : ∀ line ∈ lines.getLast?, m'.dictionary.Buffers line

/-- What leaves the buffer and the queue alone fetches nothing. -/
theorem fetched_of_agreeOn (hcap : m'.dictionary.capacity = m.dictionary.capacity)
    (hagree : m.dictionary.AgreeOn m'.dictionary 16 96) (hhost : m'.host = m.host) :
    m.Fetched [] m' :=
  ⟨hcap, by rw [hhost]; rfl, fun _ => hagree, fun _ h => by cases h⟩

theorem Fetched.trans (h : m.Fetched lines m1) (h' : m1.Fetched lines' m') :
    m.Fetched (lines ++ lines') m' where
  capacity_eq := h'.capacity_eq.trans h.capacity_eq
  queue_eq := by rw [h.queue_eq, h'.queue_eq, List.append_assoc]
  kept hnil := by
    obtain ⟨hfirst, hrest⟩ := List.append_eq_nil_iff.1 hnil
    exact (h.kept hfirst).trans (h'.kept hrest)
  buffers line hline := by
    cases hrest : lines' with
    | nil =>
        rw [hrest, List.append_nil] at hline
        exact (h.buffers line hline).of_agreeOn (h'.kept hrest)
    | cons l ls =>
        rw [hrest, List.getLast?_append_of_ne_nil _ (List.cons_ne_nil l ls)] at hline
        exact h'.buffers line (hrest ▸ hline)

/-- A refill takes one line. -/
theorem fetched_of_refill (hcap : 96 ≤ m.dictionary.capacity) (h : Batch.refill call m = .ok () m') :
    ∃ line, m.Fetched [line] m' := by
  obtain ⟨_, m1, hget, h⟩ := exists_of_bind_eq_ok h
  cases hget
  cases hqueue : m.host.queue with
  | nil =>
      simp only [hqueue] at h
      cases h
  | cons line rest =>
      simp only [hqueue] at h
      obtain ⟨_, m2, hhost, h⟩ := exists_of_bind_eq_ok h
      cases hhost
      obtain ⟨d, hload, rfl⟩ := exists_of_onDictionary_eq_ok h
      refine ⟨line, (inputOnly_of_loadInput hload).capacity_eq, hqueue, ?_, ?_⟩
      · rintro ⟨⟩
      · rintro _ ⟨⟩
        exact buffers_of_loadInput hcap hload

/-- To take a line from the queue changes nothing but the source and the queue. -/
theorem quietRefill_batch (hrefill : hooks.refill = Batch.refill) (call : Interpreter Batch) :
    QuietRefill hooks call where
  inputOnly m := by
    rw [hrefill]
    cases hqueue : m.host.queue with
    | nil =>
        have hfail : Batch.refill call m = .error (.error .inputExhausted) m := by
          rw [Batch.refill, bind_eq_of_ok (get_apply m), hqueue]
          rfl
        rw [hfail]
        exact .refl m
    | cons line rest =>
        have hload : Batch.refill call m = onDictionary (loadInput line)
            { m with host := { m.host with queue := rest } } := by
          rw [Batch.refill, bind_eq_of_ok (get_apply m), hqueue]
          rfl
        have hinput := relates_loadInput line m.dictionary
        rw [hload]
        simp only [onDictionary]
        split <;> rename_i hd <;> rw [hd] at hinput <;> exact ⟨hinput, rfl, rfl, rfl⟩
  neverExits := by
    rw [hrefill]
    refine .bind (fun m m' h => by cases h) fun m => ?_
    cases m.host.queue with
    | nil => exact fun m m' h => by cases h
    | cons line rest => exact .bind (fun m m' h => by cases h) fun _ => .onDictionary _

/-- A word is awaited over any number of lines. -/
theorem fetched_of_awaitWord (hrefill : hooks.refill = Batch.refill) {name : Span}
    (hcap : 96 ≤ m.dictionary.capacity) (h : awaitWord hooks call n m = .ok name m') :
    ∃ lines, m.Fetched lines m' := by
  induction n generalizing m with
  | zero => cases h
  | succ n ih =>
      rw [awaitWord] at h
      obtain ⟨hasInput, m1, hget, h⟩ := exists_of_bind_eq_ok h
      cases hget
      split at h
      · cases h
        exact ⟨[], fetched_of_agreeOn (Dictionary.inputOnly_nextWord m.dictionary).capacity_eq
          (m.dictionary.agreeOn_nextWord.mono (Nat.le_refl _) (by decide)) rfl⟩
      · obtain ⟨_, m2, hline, h⟩ := exists_of_bind_eq_ok h
        rw [hrefill] at hline
        obtain ⟨line, hfirst⟩ := fetched_of_refill hcap hline
        obtain ⟨lines, hrest⟩ := ih (hfirst.capacity_eq ▸ hcap) h
        exact ⟨_, hfirst.trans hrest⟩

/-- The meaning of a name goes to the stack. -/
theorem of_pushMeaning_eq_ok {name : Span} (h : pushMeaning name m = .ok () m') :
    ∃ data, m' = { m with data } := by
  obtain ⟨meaning, m1, hget, h⟩ := exists_of_bind_eq_ok h
  cases hget
  have htwo : ∀ v w : Cell, (push v >>= fun _ => push w : MachineM Batch Unit) m = .ok () m' →
      ∃ data, m' = { m with data } := by
    intro v w hpushes
    obtain ⟨_, m1, hfirst, hsecond⟩ := exists_of_bind_eq_ok hpushes
    obtain ⟨data, -, rfl⟩ := of_push_eq_ok hfirst
    obtain ⟨data', -, rfl⟩ := of_push_eq_ok hsecond
    exact ⟨data', rfl⟩
  cases hmeaning : m.dictionary.meaning name with
  | known xt immediate => exact htwo _ _ (by simpa only [hmeaning] using h)
  | unknown => exact htwo _ _ (by simpa only [hmeaning] using h)
  | endless =>
      simp only [hmeaning] at h
      cases h

theorem neverExits_pushMeaning (name : Span) : NeverExits (pushMeaning name : MachineM Batch Unit) := by
  refine .bind (fun m m' h => by cases h) fun meaning => ?_
  cases meaning with
  | known xt immediate => exact .bind (.onData _) fun _ => .onData _
  | unknown => exact .bind (.onData _) fun _ => .onData _
  | endless => exact fun m m' h => by cases h

/-- A definition is begun: its name is awaited, and the header lies behind the buffer. -/
theorem fetched_of_colon (hrefill : hooks.refill = Batch.refill) (hcap : 96 ≤ m.dictionary.capacity)
    (h : colon hooks call n m = .ok () m') : ∃ lines, m.Fetched lines m' := by
  rw [colon_eq_awaitName_bind] at h
  obtain ⟨name, m2, hname, hbegin⟩ := exists_of_bind_eq_ok h
  have hready := (noted_of_awaitName_eq_ok (quietRefill_batch hrefill call) hname).ready
  obtain ⟨_, m1, hnote, hawait⟩ := exists_of_bind_eq_ok hname
  have hnoted := noted_of_noteEntry_eq_ok hnote
  have hfirst : m.Fetched [] m1 := by
    refine fetched_of_agreeOn hnoted.capacity_eq
      ((agreeOn_of_noteEntry_eq_ok hnote).mono (by decide) (Nat.le_refl _)) ?_
    obtain ⟨entry, d, data, -, -, rfl⟩ := of_noteEntry_eq_ok hnote
    rfl
  obtain ⟨lines, hlines⟩ := fetched_of_awaitWord hrefill (hnoted.capacity_eq ▸ hcap) hawait
  obtain ⟨_, m3, hm3, hcompiling⟩ := exists_of_bind_eq_ok hbegin
  obtain ⟨d3, hdefine, rfl⟩ := exists_of_onDictionary_eq_ok hm3
  cases hcompiling
  have hdrafts := drafts_define hready hdefine
  have hlast : m2.Fetched [] ⟨d3.setReserved .compiling 1, m2.data, m2.returns, m2.ip, m2.host⟩ :=
    fetched_of_agreeOn ((capacity_setReserved ..).trans hdrafts.ext.capacity_eq)
      ((hdrafts.agreeOn_input.mono (by decide) (Nat.le_refl _)).trans
        (d3.agreeOn_setReserved .compiling 1 (.inl (by decide)))) rfl
  exact ⟨_, (hfirst.trans hlines).trans hlast⟩

/-! ## The words that fetch -/

/-- The primitives that ask the host for lines. -/
inductive Fetcher where
  /-- `:` needs a name. -/
  | colon
  /-- `_'` needs a word. -/
  | tick
  /-- `_in` takes the next line. -/
  | refill
deriving DecidableEq

namespace Fetcher

/-- The primitive. -/
def primitive : Fetcher → Primitive
  | colon => .colon
  | tick => .tick
  | refill => .refill

/-- What it does. -/
def run (hooks : Hooks Batch) (call : Interpreter Batch) (n : Nat) : Fetcher → MachineM Batch Unit
  | colon => Machine.colon hooks call n
  | tick => awaitWord hooks call n >>= pushMeaning
  | refill => hooks.refill call

theorem perform_primitive (f : Fetcher) : perform hooks call n f.primitive =
    (do f.run hooks call n; return .advance) := by
  cases f with
  | colon => rfl
  | tick => exact (bind_assoc _ _ _).symm
  | refill => rfl

theorem neverExits_run (hrefill : hooks.refill = Batch.refill) (f : Fetcher) :
    NeverExits (f.run hooks call n) := by
  have hquiet := quietRefill_batch hrefill call
  cases f with
  | colon => exact neverExits_colon hquiet n
  | tick => exact .bind (neverExits_awaitWord hquiet n) neverExits_pushMeaning
  | refill => exact hquiet.neverExits

/-- It fetches lines, and does nothing else to the buffer and the queue. -/
theorem fetched_of_run (hrefill : hooks.refill = Batch.refill) (f : Fetcher)
    (hcap : 96 ≤ m.dictionary.capacity) (h : f.run hooks call n m = .ok () m') :
    m'.ip = m.ip ∧ ∃ lines, m.Fetched lines m' := by
  have hquiet := quietRefill_batch hrefill call
  cases f with
  | colon =>
      obtain ⟨entry, hopens⟩ := opens_of_colon_eq_ok hquiet h
      exact ⟨hopens.ip_eq, fetched_of_colon hrefill hcap h⟩
  | tick =>
      obtain ⟨name, m1, hawait, hpush⟩ := exists_of_bind_eq_ok h
      have hinput := (relates_awaitWord hquiet n).of_eq_ok hawait
      obtain ⟨lines, hlines⟩ := fetched_of_awaitWord hrefill hcap hawait
      obtain ⟨data, rfl⟩ := of_pushMeaning_eq_ok hpush
      exact ⟨hinput.ip_eq, _, hlines.trans (fetched_of_agreeOn rfl (.refl _ _ _) rfl)⟩
  | refill =>
      have hinput := hquiet.inputOnly.of_eq_ok h
      change hooks.refill call m = .ok () m' at h
      rw [hrefill] at h
      obtain ⟨line, hfetched⟩ := fetched_of_refill hcap h
      exact ⟨hinput.ip_eq, _, hfetched⟩

end Fetcher

/-- The name stands for one of these words, and the word is run. -/
structure Fetches (m : Machine Batch) (name : Span) : Prop where
  meaning : ∃ (f : Fetcher) (immediate : Bool),
    m.dictionary.meaning name = .known f.primitive.token immediate
  compiling : m.dictionary.compiling = false
  ip_eq : m.ip = 0

theorem Fetches.fetched {name : Span} (h : m.Fetches name) (hrefill : hooks.refill = Batch.refill)
    (hcap : 96 ≤ m.dictionary.capacity) (hend : EndsIn (spelled hooks name) m (.ok () m')) :
    ∃ lines, m.Fetched lines m' := by
  obtain ⟨-, N, n, hrun⟩ := hend
  obtain ⟨f, immediate, hmeaning⟩ := h.meaning
  rw [spelled, interpretWord_eq_execute hmeaning (.inl h.compiling)] at hrun
  refine (f.fetched_of_run hrefill hcap (of_execute_token_eq_ok f.perform_primitive
    (f.neverExits_run hrefill m) (fun m1 hm1 => ?_) hrun)).2
  rw [(f.fetched_of_run hrefill hcap hm1).1, h.ip_eq]

/-! ## A text that fetches -/

/-- A text succeeds word by word, and these are the lines that it fetched. Each word is one of those that
fetch, or it does no more to the buffer and the queue than such words do: most words nothing, and a
defined word what the words that it runs do. -/
inductive Interprets (hooks : Hooks Batch) : Machine Batch → List (List UInt8) → Machine Batch → Prop
  | done {m : Machine Batch} (ended : m.dictionary.hasInput = false) : Interprets hooks m [] m
  | fetch {m m1 m2 : Machine Batch} {lines lines' : List (List UInt8)}
      (more : m.dictionary.hasInput = true) (word : m.afterWord.Fetches m.dictionary.nextWord.1)
      (hend : NextEndsIn hooks m (.ok () m1)) (queue_eq : m.host.queue = lines ++ m1.host.queue)
      (rest : Interprets hooks m1 lines' m2) : Interprets hooks m (lines ++ lines') m2
  | word {m m1 m2 : Machine Batch} {lines lines' : List (List UInt8)}
      (more : m.dictionary.hasInput = true) (hend : NextEndsIn hooks m (.ok () m1))
      (fetched : m.afterWord.Fetched lines m1) (rest : Interprets hooks m1 lines' m2) :
      Interprets hooks m (lines ++ lines') m2

theorem endsIn_source_of_interprets (hs : hooks.Steady) (h : Interprets hooks m lines m') :
    EndsIn (source hooks) m (.ok () m') := by
  induction h with
  | done ended => exact (endsIn_source_of_hasInput_eq_false ended).2 rfl
  | fetch more _ hend _ _ ih => exact (endsIn_source_iff_of_nextEndsIn hs more hend).2 ih
  | word more hend _ _ ih => exact (endsIn_source_iff_of_nextEndsIn hs more hend).2 ih

/-- To read a word does nothing to the buffer. -/
theorem fetched_afterWord (m : Machine Batch) : m.Fetched [] m.afterWord :=
  fetched_of_agreeOn (Dictionary.inputOnly_nextWord m.dictionary).capacity_eq
    (m.dictionary.agreeOn_nextWord.mono (Nat.le_refl _) (by decide)) rfl

/-- After the text the last line that was fetched is in the buffer. -/
theorem fetched_of_interprets (hrefill : hooks.refill = Batch.refill)
    (hcap : 96 ≤ m.dictionary.capacity) (h : Interprets hooks m lines m') : m.Fetched lines m' := by
  induction h with
  | done _ => exact fetched_of_agreeOn rfl (.refl _ _ _) rfl
  | @fetch m m1 m2 lines lines' _ word hend queue_eq _ ih =>
      have hread := fetched_afterWord m
      obtain ⟨fetched, hfetched⟩ := word.fetched hrefill (hread.capacity_eq ▸ hcap) hend
      have hfirst : m.Fetched fetched m1 := hread.trans hfetched
      -- the queue tells which lines these are
      obtain rfl : fetched = lines :=
        List.append_cancel_right (hfirst.queue_eq.symm.trans queue_eq)
      exact hfirst.trans (ih (hfirst.capacity_eq ▸ hcap))
  | @word m m1 m2 lines lines' _ _ fetched _ ih =>
      have hfirst : m.Fetched lines m1 := (fetched_afterWord m).trans fetched
      exact hfirst.trans (ih (hfirst.capacity_eq ▸ hcap))

/-! ## Back from `evaluate` -/

section Returned

variable {H : Type} {hooks : Hooks H} {m m₁ m₂ : Machine H} {limit ev fetch store : Addr}
  {addr length : Cell} {vs : List Cell} {name : Span} {immediate : Bool}
  {r : EStateM.Result Stop (Machine H) Unit}

/-- The machine of the caller of `evaluate` after a text that came to `m₂`. -/
def returned (m m₂ : Machine H) : Machine H :=
  ⟨m₂.dictionary.withSourceOf m.dictionary, m₂.data, m.returns, m.ip, m₂.host⟩

/-- With large bounds the text is interpreted when it is asked for. -/
theorem exists_forall_interpreter_eq_ok (hs : hooks.Steady)
    (h : EndsIn (source hooks) m₁ (.ok () m₂)) :
    ∃ k, ∀ N, k ≤ N → interpreter hooks (N + 1) .interpretSource m₁ = .ok () m₂ := by
  obtain ⟨k, hk⟩ := h.exists_forall (growing_source hs)
  exact ⟨k, fun N hN => hk N N hN hN⟩

variable (hs : hooks.Steady) (hcode : m.dictionary.HasEvaluate limit ev fetch store)
  (hdata : m.data.cells = length :: addr :: vs) (hC : m.data.depth + 2 ≤ m.data.capacity)
  (hR : m.returns.depth + 5 ≤ m.returns.capacity) (henters : m.Enters addr length m₁)
  (htext : EndsIn (source hooks) m₁ (.ok () m₂)) (hbehaves : Behaves limit ev fetch store m₁ m₂)

include hs hcode hdata hC hR henters htext hbehaves

/-- With large bounds the code of `evaluate` comes to its exit. -/
theorem exists_forall_goes_evaluate {returns' : Stack}
    (hpush : m.returns.push? m.ip.toInt16 = some returns') :
    ∃ k, ∀ N, k ≤ N → ∃ stop returns'',
      (m₂.dictionary.withSourceOf m.dictionary).readCell stop = Primitive.exit.token.toInt16 ∧
      returns''.pop? = some (m.ip.toInt16, m.returns) ∧
      Goes hooks (interpreter hooks (N + 1)) ⟨m.dictionary, m.data, returns', ev, m.host⟩
        ⟨m₂.dictionary.withSourceOf m.dictionary, m₂.data, returns'', stop, m₂.host⟩ := by
  obtain ⟨k, hk⟩ := exists_forall_interpreter_eq_ok hs htext
  refine ⟨k, fun N hN => ?_⟩
  obtain ⟨m', henters', hgoes⟩ :=
    exists_goes_evaluate hooks (interpreter hooks (N + 1)) hcode hdata hC hR hpush
  obtain rfl := henters.eq henters'
  exact hgoes m₂ (hk N hN) hbehaves

/-- A name of `evaluate` in a line succeeds. -/
theorem endsIn_spelled_evaluate (hip : m.ip = 0)
    (hmeaning : m.dictionary.meaning name = .known ev immediate)
    (hcompiling : m.dictionary.compiling = false) :
    EndsIn (spelled hooks name) m (.ok () (m.returned m₂)) := by
  obtain ⟨returns', hpush, -, -⟩ := m.returns.exists_push? m.ip.toInt16 (by omega)
  obtain ⟨k, hk⟩ :=
    exists_forall_goes_evaluate hs hcode hdata hC hR henters htext hbehaves hpush
  obtain ⟨stop, returns'', hexit, hpop, hgoes⟩ := hk k (Nat.le_refl k)
  have hhalts := hgoes.halts (halts_of_runToken fun n => by
    rw [nextToken_eq _ _ _ hexit, runToken_exit _ _ _ _ _ _ hpop, hip]
    exact if_pos rfl)
  obtain ⟨n, hn⟩ := hhalts
  refine ⟨fun m' hm' => (by cases hm'), k + 1, 0 + n, ?_⟩
  rw [spelled, interpretWord_eq_execute hmeaning (.inl hcompiling)]
  rcases m with ⟨d, s, returns, ip, host⟩
  obtain rfl : ip = 0 := hip
  simp only [execute, runFrom_of_push? _ _ _ _ hcode.evaluate.firstEntry_le hpush, hn]
  rfl

/-- Code that calls `evaluate` goes on behind the call. -/
theorem endsIn_code_evaluate_iff (hip : m.ip ≠ 0) (htoken : m.nextToken = ev) :
    EndsIn (code hooks) m r ↔
      EndsIn (code hooks) { m.returned m₂ with ip := m.ip + cellSize } r := by
  obtain ⟨returns', hpush, -, -⟩ := m.returns.exists_push? m.ip.toInt16 (by omega)
  obtain ⟨k, hk⟩ :=
    exists_forall_goes_evaluate hs hcode hdata hC hR henters htext hbehaves hpush
  refine EndsIn.iff_of_forall (growing_code hs) (growing_code hs) fun k' => ?_
  -- a bound as large as is asked for, and large enough for the text
  obtain ⟨stop, returns'', hexit, hpop, hgoes⟩ := hk (max k k') (Nat.le_max_left k k')
  have hcall : Goes hooks (interpreter hooks (max k k' + 1)) m
      ⟨m.dictionary, m.data, returns', ev, m.host⟩ := by
    refine goes_of_runToken fun n => ?_
    rw [htoken]
    rcases m with ⟨d, s, returns, ip, host⟩
    rw [runToken_call _ _ _ _ _ _ hcode.evaluate.firstEntry_le, hpush]
  obtain ⟨j, hj⟩ := (hcall.trans hgoes).trans (goes_of_runToken fun n => by
    rw [nextToken_eq _ _ _ hexit, runToken_exit _ _ _ _ _ _ hpop, UInt16.toUInt16_toInt16,
      if_neg hip])
  exact ⟨max k k' + 1, k' + j, max k k' + 1, k', by omega, by omega, hj k'⟩

end Returned

/-! ## The main result -/

variable {limit ev fetch store : Addr} {addr length : Cell} {vs : List Cell} {line last : List UInt8}
  {k : Nat}

/-- The buffer is as the text left it, and the cells about the source are those of the line. -/
theorem Resumes.sourced {m₃ : Machine Batch} (h : m.Resumes m₂ m₃)
    (hcap : 16 ≤ m₃.dictionary.capacity) (hbuffers : m₂.dictionary.Buffers last)
    (hline : m.dictionary.Sourced Layout.inputBuffer line k)
    (hlen : line.length ≤ Layout.inputCapacity) :
    m₃.dictionary.Sourced Layout.inputBuffer ((padded last).take line.length) k := by
  have hcells : ∀ c ∈ [SystemCell.source, .sourceLength, .cursor],
      m₃.dictionary.reservedAddr c = m.dictionary.reservedAddr c :=
    fun c hc => congrArg Int16.toUInt16 (h.source_eq c hc)
  have hagree : m₂.dictionary.AgreeOn m₃.dictionary 16 96 :=
    fun a hlo _ => h.readByte_eq a (.inr hlo)
  refine (hbuffers.of_agreeOn hagree).sourced hcap ?_ ?_ hlen ?_
  · rw [hcells .source (by decide), hline.source_eq]
  · rw [hcells .sourceLength (by decide), hline.length_eq]
  · rw [hcells .cursor (by decide), hline.cursor_eq]

/-- **A text that fetches lines.** If `k` bytes of a line in the input buffer were read when `evaluate`
was called, and the text succeeds and behaves, the caller goes on as after any other text, and with the
source as it was. But from the byte `k` on the words of the line are now those of the last line that was
fetched, as far as the line went. So they are the words that were typed only if both lines have the same
words there. -/
theorem line_after_fetching_text (hs : hooks.Steady) (hrefill : hooks.refill = Batch.refill)
    (hcode : m.dictionary.HasEvaluate limit ev fetch store)
    (hdata : m.data.cells = length :: addr :: vs) (hC : m.data.depth + 2 ≤ m.data.capacity)
    (hR : m.returns.depth + 5 ≤ m.returns.capacity)
    (hline : m.dictionary.Sourced Layout.inputBuffer line k)
    (hlen : line.length ≤ Layout.inputCapacity) :
    ∃ m₁, m.Enters addr length m₁ ∧ ∀ lines last m₂, Interprets hooks m₁ (lines ++ [last]) m₂ →
      Behaves limit ev fetch store m₁ m₂ → ∃ m₃, m.Resumes m₂ m₃ ∧
        (m.ip ≠ 0 → m.nextToken = ev → ∀ r, EndsIn (code hooks) m r ↔
          EndsIn (code hooks) { m₃ with ip := m.ip + cellSize } r) ∧
        (m.ip = 0 → ∀ m₀, m₀.dictionary.hasInput = true → m = m₀.afterWord →
          (∃ immediate, m.dictionary.meaning m₀.dictionary.nextWord.1 = .known ev immediate) →
          m.dictionary.compiling = false → ∀ r, EndsIn (source hooks) m₀ r ↔
            EndsIn (source hooks) m₃ r) ∧
        m₃.dictionary.Sourced Layout.inputBuffer ((padded last).take line.length) k ∧
        (last.length ≤ k → m₃.dictionary.ReadsOut []) ∧
        ∀ ws, m.dictionary.ReadsOut ws → (m₃.dictionary.ReadsOut ws ↔
          Text.wordsFrom ((padded last).take line.length) k = Text.wordsFrom line k) := by
  obtain ⟨returns', hpush, -, -⟩ := m.returns.exists_push? m.ip.toInt16 (by omega)
  -- how the text begins does not depend on who interprets it
  obtain ⟨m₁, henters, -⟩ := exists_goes_evaluate hooks (interpreter hooks 0) hcode hdata hC hR hpush
  refine ⟨m₁, henters, fun lines last m₂ hrun hbehaves => ?_⟩
  have htext := endsIn_source_of_interprets hs hrun
  have hcap₁ : 96 ≤ m₁.dictionary.capacity := by
    rw [henters.dictionary_eq]
    exact Nat.le_of_lt ((HasEvaluate.withText hcode addr length).fetch.lt_capacity (by decide))
  have hfetched := fetched_of_interprets hrefill hcap₁ hrun
  have hcap₂ : 16 ≤ m₂.dictionary.capacity := by
    rw [hfetched.capacity_eq]
    omega
  have hcap₃ : 16 ≤ (m.returned m₂).dictionary.capacity := by
    rw [returned, withSourceOf, capacity_setReserved, capacity_setReserved, capacity_setReserved]
    exact hcap₂
  have hresumes : m.Resumes m₂ (m.returned m₂) := resumes_withSourceOf hcap₂
  have hsourced := hresumes.sourced hcap₃ (hfetched.buffers last (by simp)) hline hlen
  refine ⟨m.returned m₂, hresumes, fun hip htoken r => ?_, fun hip m₀ hinput hm hknown hcompiling r => ?_,
    hsourced, fun hshort => ?_, fun ws hws => ?_⟩
  · exact endsIn_code_evaluate_iff hs hcode hdata hC hR henters htext hbehaves hip htoken
  · obtain ⟨immediate, hknown⟩ := hknown
    refine endsIn_source_iff_of_nextEndsIn hs hinput ?_
    rw [NextEndsIn, ← hm]
    exact endsIn_spelled_evaluate hs hcode hdata hC hR henters htext hbehaves hip hknown hcompiling
  · rw [hsourced.readsOut_iff, wordsFrom_padded_eq_nil hshort]
  · obtain rfl := hline.readsOut_iff.1 hws
    rw [hsourced.readsOut_iff]
    exact eq_comm

/-- A number fetches nothing. -/
theorem fetched_of_numeral {name : Span} {v : Cell} (hcompiling : m.dictionary.compiling = false)
    (hunknown : m.dictionary.meaning name = .unknown)
    (hread : Numeral.read? m.dictionary.base (m.dictionary.text name) = some v)
    (hend : EndsIn (spelled hooks name) m (.ok () m')) : m.Fetched [] m' := by
  obtain ⟨-, N, n, hrun⟩ := hend
  rw [spelled, interpretWord_eq_interpretLiteral hunknown hread,
    interpretLiteral_of_not_compiling hcompiling] at hrun
  obtain ⟨data, -, rfl⟩ := of_push_eq_ok hrun
  exact fetched_of_agreeOn rfl (.refl _ _ _) rfl

/-- A host that supplies the lines of its queue. -/
def queueHost : Hooks Batch := Batch.hooks false true false

/-- A line that evaluates the text at 512. The text asks for a line, and one is in the queue. -/
def callingMachine : Machine Batch := lastState <|
  (do
    Prelude.interpretLines queueHost 100 ([7, 8, 56, 57].filterMap (Prelude.lines[·]?))
    modifyDictionary (·.writeBytes 512 (Text.encode "_in"))
    push 512
    push 3
    onDictionary (loadInput (Text.encode "evaluate 7 8")) : MachineM Batch Unit)
  (ofDictionary (.setUp ⟨.sparse (.zeros 1024)⟩) { queue := [Text.encode "          5"] } ⟨64, 64, 0⟩)

/-- The machine in which the text is interpreted for the line. -/
def textBegin (m : Machine Batch) : Machine Batch :=
  ⟨m.dictionary.withText 512 3, m.data.drop 2, lastState ((do
    StackM.push 0
    StackM.push (m.dictionary.reserved .source)
    StackM.push (m.dictionary.reserved .sourceLength)
    StackM.push (m.dictionary.reserved .cursor) : StackM Unit) (.empty 64)), 0, m.host⟩

theorem enters_textBegin (hdata : m.data.cells = [3, 512]) (hreturns : m.returns.cells = [])
    (hcap : m.returns.capacity = 64) (hip : m.ip = 0) : m.Enters 512 3 (textBegin m) := by
  refine ⟨rfl, ?_, rfl, ?_, hcap.symm, rfl, rfl⟩
  · rw [hdata, textBegin, Stack.cells_drop, hdata]
    rfl
  · rw [hip, hreturns]
    rfl

/-- The machine after the next word. -/
def wordEnd (m : Machine Batch) : Machine Batch :=
  lastState (spelled queueHost m.dictionary.nextWord.1 5 5 m.afterWord)

theorem nextEndsIn_wordEnd
    (h : value? (spelled queueHost m.dictionary.nextWord.1 5 5 m.afterWord) = some ()) :
    NextEndsIn queueHost m (.ok () (wordEnd m)) :=
  ⟨fun m' hm' => (by cases hm'), 5, 5, eq_ok_lastState h⟩

/-- The machine in which the text at 512 is interpreted. -/
def fetchingMachine : Machine Batch := textBegin callingMachine.afterWord

/-- The machine that has fetched the line. -/
def fetchedMachine : Machine Batch := wordEnd fetchingMachine

/-- The machine after the text. -/
def readMachine : Machine Batch := wordEnd fetchedMachine

/-- The line has come to the text. -/
theorem callingMachine_eq :
    callingMachine.dictionary.hasInput = true ∧
      callingMachine.afterWord.dictionary.HasEvaluate 512 126 100 110 ∧
      callingMachine.afterWord.dictionary.meaning callingMachine.dictionary.nextWord.1 =
        .known 126 false ∧
      callingMachine.afterWord.dictionary.compiling = false ∧
      callingMachine.afterWord.dictionary.Scanning Layout.inputBuffer (Text.encode "evaluate 7 8") 9 ∧
      callingMachine.afterWord.data.cells = [3, 512] ∧
      callingMachine.afterWord.data.depth + 2 ≤ callingMachine.afterWord.data.capacity ∧
      callingMachine.afterWord.returns.cells = [] ∧
      callingMachine.afterWord.returns.depth + 5 ≤ callingMachine.afterWord.returns.capacity ∧
      callingMachine.afterWord.returns.capacity = 64 ∧ callingMachine.afterWord.ip = 0 := by
  decide +kernel

/-- The text fetches the line. -/
theorem fetchingMachine_eq :
    fetchingMachine.dictionary.hasInput = true ∧
      fetchingMachine.afterWord.dictionary.meaning fetchingMachine.dictionary.nextWord.1 =
        .known Primitive.refill.token false ∧
      fetchingMachine.afterWord.dictionary.compiling = false ∧ fetchingMachine.afterWord.ip = 0 ∧
      value? (spelled queueHost fetchingMachine.dictionary.nextWord.1 5 5 fetchingMachine.afterWord) =
        some () ∧
      fetchingMachine.host.queue = [Text.encode "          5"] ++ fetchedMachine.host.queue := by
  decide +kernel

/-- The number in the line is read, and then the text has ended. -/
theorem fetchedMachine_eq :
    fetchedMachine.dictionary.hasInput = true ∧ fetchedMachine.afterWord.dictionary.compiling = false ∧
      fetchedMachine.afterWord.dictionary.meaning fetchedMachine.dictionary.nextWord.1 = .unknown ∧
      Numeral.read? fetchedMachine.afterWord.dictionary.base
        (fetchedMachine.afterWord.dictionary.text fetchedMachine.dictionary.nextWord.1) = some 5 ∧
      value? (spelled queueHost fetchedMachine.dictionary.nextWord.1 5 5 fetchedMachine.afterWord) =
        some () ∧
      readMachine.dictionary.hasInput = false ∧ readMachine.data.cells = [5] ∧
      readMachine.returns.cells = fetchingMachine.returns.cells ∧
      readMachine.returns.capacity = fetchingMachine.returns.capacity ∧
      readMachine.dictionary.HasEvaluate 512 126 100 110 ∧
      readMachine.data.depth + 3 ≤ readMachine.data.capacity := by
  decide +kernel

theorem interprets_fetchingMachine :
    Interprets queueHost fetchingMachine ([] ++ [Text.encode "          5"]) readMachine := by
  obtain ⟨hinput, hmeaning, hcompiling, hip, hvalue, hqueue⟩ := fetchingMachine_eq
  obtain ⟨hinput', hcompiling', hunknown, hread, hvalue', hended, -⟩ := fetchedMachine_eq
  change Interprets queueHost fetchingMachine ([Text.encode "          5"] ++ ([] ++ [])) readMachine
  have hfetch : NextEndsIn queueHost fetchingMachine (.ok () fetchedMachine) := nextEndsIn_wordEnd hvalue
  have hnumber : NextEndsIn queueHost fetchedMachine (.ok () readMachine) := nextEndsIn_wordEnd hvalue'
  refine .fetch hinput ⟨⟨.refill, false, hmeaning⟩, hcompiling, hip⟩ hfetch hqueue ?_
  exact .word hinput' hnumber (fetched_of_numeral hcompiling' hunknown hread hnumber) (.done hended)

/-- The words `7` and `8` were typed, and `5` is read for a second time instead. -/
theorem line_after_fetching_text_callingMachine :
    callingMachine.afterWord.dictionary.ReadsOut [Text.encode "7", Text.encode "8"] ∧
    ∃ m₃ : Machine Batch, (∀ r, EndsIn (source queueHost) callingMachine r ↔
        EndsIn (source queueHost) m₃ r) ∧
      m₃.data.cells = [5] ∧ m₃.dictionary.ReadsOut [Text.encode "5"] ∧
      ¬ m₃.dictionary.ReadsOut [Text.encode "7", Text.encode "8"] := by
  obtain ⟨hinput, hcode, hmeaning, hcompiling, hscanning, hdata, hC, hreturns, hR, hcap, hip⟩ :=
    callingMachine_eq
  obtain ⟨-, -, -, -, -, -, hfive, hcells, hcapacity, hcode', hroom⟩ := fetchedMachine_eq
  have hsourced := hscanning.sourced
  obtain ⟨m₁, henters, hafter⟩ := line_after_fetching_text (steady_batch false true false) rfl hcode
    hdata hC hR hsourced (by decide)
  obtain rfl : m₁ = fetchingMachine := henters.eq (enters_textBegin hdata hreturns hcap hip)
  obtain ⟨m₃, hresumes, -, hline, hrest, -, hwords⟩ := hafter _ _ _ interprets_fetchingMachine
    ⟨Stack.ext hcapacity hcells, hcode', hroom⟩
  have htyped : callingMachine.afterWord.dictionary.ReadsOut [Text.encode "7", Text.encode "8"] :=
    hsourced.readsOut_iff.2 (by decide +kernel)
  refine ⟨htyped, m₃, hline hip callingMachine hinput rfl ⟨false, hmeaning⟩ hcompiling, ?_,
    hrest.readsOut_iff.2 (by decide +kernel), fun hsame => ?_⟩
  · rw [hresumes.data_eq, hfive]
  · exact absurd ((hwords _ htyped).1 hsame) (by decide +kernel)

end ThreadedForth.Machine
