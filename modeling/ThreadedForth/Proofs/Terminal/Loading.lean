import ThreadedForth.Proofs.Machine.Nested
import ThreadedForth.Proofs.Machine.Returns
import ThreadedForth.Proofs.Terminal.Images

/-!
# What comes after an image

The word that loads an image is code in the memory that the image replaces. When the host has
restored the image, the code goes on at the cell after the call, and this cell is now one of the
restored dictionary (`goes_loading`). So the word comes back to the line if, and only if, what lies
there comes to an end, and it comes back with what that code has left behind
(`endsIn_load_iff`).

Where an exit lies there, the word does what it is for: the rest of the line, which is as it was, is
interpreted in the restored dictionary. There is one if both sessions have defined this word at the
same address, and also if the image is so short that it ends before the cell. Where something else
lies there, this is run, even if it is not code.
-/

set_option autoImplicit false

namespace ThreadedForth

namespace Machine

variable {H : Type} {hooks : Hooks H} {N n : Nat} {m : Machine H} {name : Span}

/-! ## The word -/

/-- A word that is not compiled is executed. -/
theorem spelled_of_meaning {body : Addr} {immediate : Bool}
    (hmeaning : m.dictionary.meaning name = .known body immediate)
    (hcompiling : m.dictionary.compiling = false) :
    spelled hooks name N n m = execute hooks (interpreter hooks N) n body m :=
  interpretWord_eq_execute hmeaning (.inl hcompiling)

end Machine

namespace Terminal

open Machine

variable {call : Interpreter Terminal} {m : Machine Terminal} {d : Dictionary}
  {s returns : Stack} {body : Addr} {host : Terminal} {image : List UInt8} {name : Span} {N n : Nat}

/-- The terminal host asks the interpreter for nothing. -/
theorem steady_hooks : hooks.Steady where
  sys _ _ := .refl _
  refill _ := .refl _
  unknownWord _ _ hf := by cases hf

/-! ## The code of the word -/

/-- The code of the word that loads an image. -/
def loadCode : List Cell :=
  [shortLiteral 4, Primitive.sys.token.toInt16, Primitive.exit.token.toInt16]

/-- The cell after the call of the host in this code. -/
def afterCall (body : Addr) : Addr := body + cellSize + cellSize

theorem toNat_afterCall (h : body.toNat + 4 < 65536) : (afterCall body).toNat = body.toNat + 4 := by
  have hfirst : (body + cellSize).toNat = body.toNat + 2 := toNat_add_cellSize (by omega)
  rw [afterCall, toNat_add_cellSize (by omega), hfirst]

/-- The call of the host restores the image. -/
theorem runToken_sys_load {s' : Stack} (hpop : s.pop? = some (4, s'))
    (hread : host.files.read host.imagePath = .ok image) (n : Nat) (ip : Addr) :
    runToken hooks call n Primitive.sys.token ⟨d, s, returns, ip, host⟩ =
      .ok () ⟨d.restore image, s', returns, ip + cellSize, host⟩ := by
  have hfirst : pop (⟨d, s, returns, ip, host⟩ : Machine Terminal) =
      .ok 4 ⟨d, s', returns, ip, host⟩ := pop_eq_of_pop? hpop
  have hcall : hooks.sys call 4 ⟨d, s', returns, ip, host⟩ =
      .ok () ⟨d.restore image, s', returns, ip, host⟩ :=
    loadImage_of_read (t := ⟨d, s', returns, ip, host⟩) hread
  unfold runToken
  rw [decode_token]
  change ((pop >>= fun selector => hooks.sys call selector >>= fun _ => pure Flow.advance) >>= _) _ =
    _
  rw [bind_assoc, bind_eq_of_ok hfirst, bind_assoc, bind_eq_of_ok hcall]
  rfl

/-- The code goes on after the call, in the restored dictionary. -/
theorem goes_loading (hcode : d.CellsAt body loadCode) (hroom : s.depth < s.capacity)
    (hread : host.files.read host.imagePath = .ok image) :
    Goes hooks call ⟨d, s, returns, body, host⟩
      ⟨d.restore image, s, returns, afterCall body, host⟩ := by
  obtain ⟨hselector, hsys, -⟩ := hcode
  obtain ⟨s', hpush, -, -⟩ := s.exists_push? 4 hroom
  have hpushed : Goes hooks call ⟨d, s, returns, body, host⟩
      ⟨d, s', returns, body + cellSize, host⟩ := by
    refine goes_of_runToken fun n => ?_
    have hfour : Token.ofLiteral? 4 = some (.literal 4) := by decide
    rw [nextToken_eq _ _ _ hselector, runToken_of_ofLiteral? _ _ _ _ _ _ hfour, hpush]
  refine hpushed.trans (goes_of_runToken fun n => ?_)
  rw [nextToken_eq _ _ _ hsys]
  exact runToken_sys_load (Stack.pop?_of_push? hpush) hread n _

/-! ## The word in a line -/

/-- In the machine the name stands for the word that loads an image, and it can be executed there:
nothing is compiled, the stacks have room, and the file holds the image. -/
structure Loads (m : Machine Terminal) (name : Span) (body : Addr) (image : List UInt8) : Prop where
  meaning_eq : ∃ immediate, m.dictionary.meaning name = .known body immediate
  le_body : Layout.firstEntry ≤ body
  body_le : body.toNat + 6 ≤ 65536
  cellsAt : m.dictionary.CellsAt body loadCode
  compiling_eq : m.dictionary.compiling = false
  ip_eq : m.ip = 0
  data_lt : m.data.depth < m.data.capacity
  returns_lt : m.returns.depth < m.returns.capacity
  read_eq : m.host.files.read m.host.imagePath = .ok image

/-- The machine with the restored dictionary. -/
def restored (m : Machine Terminal) (image : List UInt8) : Machine Terminal :=
  { m with dictionary := m.dictionary.restore image }

/-- This machine after the call of the host, in the code of the word. On the return stack there is
the zero that leads back to the line. -/
def resumed (m : Machine Terminal) (body : Addr) (image : List UInt8) : Machine Terminal :=
  { restored m image with
    returns := (m.returns.push? (0 : Addr).toInt16).getD m.returns
    ip := afterCall body }

/-- How code that was called from the line ends for the line: an exit is the good end, and after
anything else no code runs. -/
def inLine : EStateM.Result Stop (Machine Terminal) Unit → EStateM.Result Stop (Machine Terminal) Unit
  | .ok _ m => .ok () m
  | .error .exit m => .ok () m
  | .error stop m => .error stop { m with ip := 0 }

theorem execute_eq_inLine (xt : Addr) :
    execute hooks call n xt m = inLine (runFrom hooks call n xt m) := by
  unfold execute
  cases runFrom hooks call n xt m with
  | ok u m' => rfl
  | error stop m' => cases stop <;> rfl

namespace Loads

variable (h : Loads m name body image)

include h

theorem exists_returns : ∃ returns, m.returns.push? (0 : Addr).toInt16 = some returns ∧
    resumed m body image =
      ⟨m.dictionary.restore image, m.data, returns, afterCall body, m.host⟩ := by
  obtain ⟨returns, hpush, -, -⟩ := m.returns.exists_push? (0 : Addr).toInt16 h.returns_lt
  refine ⟨returns, hpush, ?_⟩
  rw [resumed, hpush]
  rfl

/-- To interpret the word is to run the code after the call, until it returns or fails. -/
theorem exists_spelled_eq (N : Nat) : ∃ k, ∀ n, spelled hooks name N (n + k) m =
    inLine (code hooks N n (resumed m body image)) := by
  obtain ⟨immediate, hmeaning⟩ := h.meaning_eq
  obtain ⟨returns, hpush, hresumed⟩ := h.exists_returns
  have hgoes : Goes hooks (interpreter hooks N) ⟨m.dictionary, m.data, returns, body, m.host⟩
      ⟨m.dictionary.restore image, m.data, returns, afterCall body, m.host⟩ :=
    goes_loading h.cellsAt h.data_lt h.read_eq
  obtain ⟨k, hk⟩ := hgoes
  refine ⟨k, fun n => ?_⟩
  have hrun : runFrom hooks (interpreter hooks N) (n + k) body
      ⟨m.dictionary, m.data, m.returns, m.ip, m.host⟩ = code hooks N n (resumed m body image) := by
    rw [h.ip_eq, runFrom_of_push? _ _ _ _ h.le_body hpush, hk, hresumed]
    rfl
  rw [spelled_of_meaning hmeaning h.compiling_eq, execute_eq_inLine]
  exact congrArg inLine hrun

/-- The word comes back to the line where the code after the call returns. -/
theorem endsIn_spelled_iff {m' : Machine Terminal} :
    EndsIn (spelled hooks name) m (.ok () m') ↔
      EndsIn (code hooks) (resumed m body image) (.error .exit m') := by
  constructor
  · intro hends
    obtain ⟨l, hl⟩ := hends.exists_forall (growing_spelled steady_hooks name)
    obtain ⟨k, hk⟩ := h.exists_spelled_eq l
    have hline := (hk l).symm.trans (hl l (l + k) (by omega) (by omega))
    refine ⟨fun _ => by simp, l, l, ?_⟩
    cases hcode : code hooks l l (resumed m body image) with
    | ok u m1 => exact absurd hcode (runCode_ne_ok _ _ _)
    | error stop m1 =>
        rw [hcode] at hline
        cases stop with
        | exit =>
            cases hline
            rfl
        | outOfFuel => cases hline
        | error e => cases hline
  · rintro ⟨-, N, n, hcode⟩
    obtain ⟨k, hk⟩ := h.exists_spelled_eq N
    refine ⟨fun _ => by simp, N, n + k, ?_⟩
    rw [hk n, hcode]
    rfl

variable (hexit : (m.dictionary.restore image).readCell (afterCall body) =
  Primitive.exit.token.toInt16)

include hexit

/-- An exit after the call leads back to the line. -/
theorem code_resumed (N n : Nat) :
    code hooks N (n + 1) (resumed m body image) = .error .exit (restored m image) := by
  obtain ⟨returns, hpush, hresumed⟩ := h.exists_returns
  have hip := h.ip_eq
  rw [hresumed, code_succ, nextToken_eq _ _ _ hexit]
  refine bind_eq_of_error ?_ _
  rw [runToken_exit _ _ _ _ _ _ (Stack.pop?_of_push? hpush), UInt16.toUInt16_toInt16, if_pos rfl,
    restored, hip]

/-- The rest of the line is interpreted in the restored dictionary. -/
theorem endsIn_source_iff {before : Machine Terminal} {r : EStateM.Result Stop (Machine Terminal) Unit}
    (hinput : before.dictionary.hasInput = true) (hname : before.dictionary.nextWord.1 = name)
    (hm : before.afterWord = m) :
    EndsIn (source hooks) before r ↔ EndsIn (source hooks) (restored m image) r := by
  refine EndsIn.iff_of_forall (growing_source steady_hooks) (growing_source steady_hooks)
    fun l => ?_
  obtain ⟨k, hk⟩ := h.exists_spelled_eq l
  have hword : spelled hooks name l (l + 1 + k) m = .ok () (restored m image) := by
    rw [hk, h.code_resumed hexit]
    rfl
  refine ⟨l, l + 1 + k + 1, l, l + 1 + k, by omega, by omega, ?_⟩
  rw [source_succ hinput, hname, hm]
  exact bind_eq_of_ok hword _

end Loads

/-! ## What lies after the call -/

/-- After the call there is an exit if the image ends before that cell, because the one of the word
is left alone, or if there is one in the image. -/
theorem readCell_restore_image_afterCall {s t : Dictionary} (hle : Layout.firstEntry ≤ body)
    (hcode : t.CellsAt body loadCode) (htop : body.toNat + 6 ≤ 65536)
    (hcap : s.here.toNat ≤ t.capacity)
    (h : s.here.toNat ≤ body.toNat + 4 ∨ body.toNat + 6 ≤ s.here.toNat ∧
      s.readCell (afterCall body) = Primitive.exit.token.toInt16) :
    (t.restore s.image).readCell (afterCall body) = Primitive.exit.token.toInt16 := by
  have hafter : (afterCall body).toNat = body.toNat + 4 := toNat_afterCall (by omega)
  have hlo : 96 ≤ body.toNat := UInt16.le_iff_toNat_le.1 hle
  rcases h with hshort | ⟨hlong, hexit⟩
  · rw [(Dictionary.agreeOn_restore_rest s t).readCell (by omega) (by omega) (by omega)]
    exact hcode.2.2.1
  · rw [(Dictionary.agreeOn_restore_entries hcap).readCell (by omega) (by omega) (by omega), hexit]

/-! ## The line -/

/-- The word that loads an image comes back to the line where the code that then lies after the call
returns. If an exit lies there, it comes back at once, and the rest of the line, which is as it was,
is interpreted in the restored dictionary. -/
theorem endsIn_load_iff {t : Dictionary}
    (h : Loads m.afterWord m.dictionary.nextWord.1 body t.image)
    (hinput : m.dictionary.hasInput = true) (hcap : t.here.toNat ≤ m.afterWord.dictionary.capacity) :
    (∀ m', EndsIn (spelled hooks m.dictionary.nextWord.1) m.afterWord (.ok () m') ↔
        EndsIn (code hooks) (resumed m.afterWord body t.image) (.error .exit m')) ∧
      (t.here.toNat ≤ body.toNat + 4 ∨ body.toNat + 6 ≤ t.here.toNat ∧
          t.readCell (afterCall body) = Primitive.exit.token.toInt16 →
        EndsIn (spelled hooks m.dictionary.nextWord.1) m.afterWord
            (.ok () (restored m.afterWord t.image)) ∧
          m.afterWord.dictionary.AgreeOn (restored m.afterWord t.image).dictionary
            SystemCell.compiling.addr.toNat Layout.firstEntry.toNat ∧
          (m.afterWord.dictionary.Buffered →
            (restored m.afterWord t.image).dictionary.unread = m.afterWord.dictionary.unread) ∧
          ∀ r, EndsIn (source hooks) m r ↔
            EndsIn (source hooks) (restored m.afterWord t.image) r) := by
  refine ⟨fun m' => h.endsIn_spelled_iff, fun hafter => ?_⟩
  have hexit := readCell_restore_image_afterCall h.le_body h.cellsAt h.body_le hcap hafter
  have hkept := Dictionary.agreeOn_restore_kept t m.afterWord.dictionary
  refine ⟨?_, hkept, fun hbuffered => ?_, fun r => h.endsIn_source_iff hexit hinput rfl rfl⟩
  · exact h.endsIn_spelled_iff.2 ⟨fun _ => by simp, 0, 1, h.code_resumed hexit 0 0⟩
  · exact hbuffered.unread_eq (hkept.mono (by decide) (Nat.le_refl _))

/-! ## Two images -/

/-- The dictionary of a session without any other words than those of the host. -/
def plainDictionary : Dictionary := dictionaryAfter hostWords

/-- The dictionary of a session in which a word was defined before them. -/
def longerDictionary : Dictionary := dictionaryAfter (": two 2 ; " ++ hostWords)

/-- The first of these sessions has read a line that loads an image and leaves seven. -/
def lineDictionary : Dictionary :=
  lastState (Dictionary.loadInput (Text.encode "load 7") plainDictionary)

/-- This session, with an image in its file. -/
def loadLine (image : List UInt8) : Machine Terminal :=
  .ofDictionary lineDictionary { imagePath := "i", files := ({} : Files).put ["i"] image } ⟨4, 4, 65536⟩

theorem lineDictionary_facts : lineDictionary.hasInput = true ∧
    lineDictionary.nextWord.2.meaning lineDictionary.nextWord.1 = .known 114 false ∧
    lineDictionary.nextWord.2.CellsAt 114 loadCode ∧
    lineDictionary.nextWord.2.compiling = false ∧ lineDictionary.nextWord.2.capacity = 65536 := by
  decide +kernel

theorem loads_loadLine (image : List UInt8) :
    Loads (loadLine image).afterWord (loadLine image).dictionary.nextWord.1 114 image := by
  obtain ⟨-, hmeaning, hcode, hcompiling, -⟩ := lineDictionary_facts
  have htarget : ({} : Files).target "i" = .ok ["i"] := by cbv
  exact {
    meaning_eq := ⟨false, hmeaning⟩
    le_body := by decide
    body_le := by decide
    cellsAt := hcode
    compiling_eq := hcompiling
    ip_eq := rfl
    data_lt := Nat.zero_lt_succ 3
    returns_lt := Nat.zero_lt_succ 3
    read_eq := Files.read_put_of_target_eq_ok htarget (by decide) }

/-- An image of any dictionary fits. -/
theorem here_le_capacity_loadLine (t : Dictionary) (image : List UInt8) :
    t.here.toNat ≤ (loadLine image).afterWord.dictionary.capacity := by
  have hcapacity : (loadLine image).afterWord.dictionary.capacity = 65536 :=
    lineDictionary_facts.2.2.2.2
  have hlt : t.here.toNat < 65536 := t.here.toNat_lt
  omega

/-- The session goes on with the line after it has loaded its own image. After the other one it does
not come back to the line: where the exit was there is now the header of a word. -/
theorem endsIn_load_loadLine :
    (∃ m', EndsIn (source hooks) (loadLine plainDictionary.image) (.ok () m') ∧
        m'.data.cells = [7]) ∧
      ¬ ∃ m', EndsIn (spelled hooks lineDictionary.nextWord.1)
        (loadLine longerDictionary.image).afterWord (.ok () m') := by
  have hinput := lineDictionary_facts.1
  have hplain := endsIn_load_iff (loads_loadLine plainDictionary.image) hinput
    (here_le_capacity_loadLine _ _)
  have hlonger := endsIn_load_iff (loads_loadLine longerDictionary.image) hinput
    (here_le_capacity_loadLine _ _)
  constructor
  · have hexit : 114 + 6 ≤ plainDictionary.here.toNat ∧
        plainDictionary.readCell (afterCall 114) = Primitive.exit.token.toInt16 := by
      decide +kernel
    have hrest : value? (source hooks 9 9
          (restored (loadLine plainDictionary.image).afterWord plainDictionary.image)) = some () ∧
        (lastState (source hooks 9 9 (restored (loadLine plainDictionary.image).afterWord
          plainDictionary.image))).data.cells = [7] := by
      decide +kernel
    obtain ⟨-, -, -, hsource⟩ := hplain.2 (.inr hexit)
    exact ⟨_, (hsource _).2 ⟨fun _ => by simp, 9, 9, eq_ok_lastState hrest.1⟩, hrest.2⟩
  · rintro ⟨m', hends⟩
    have hfails : error? (code hooks 40 40 (resumed (loadLine longerDictionary.image).afterWord 114
        longerDictionary.image)) = some (.error .stackOverflow) := by
      decide +kernel
    have herror := (hlonger.1 m').1 hends
    have heq := herror.eq (growing_code steady_hooks)
      ⟨fun _ => by simp, 40, 40, eq_error_lastState hfails⟩
    cases heq

end Terminal

end ThreadedForth
