import ThreadedForth.Dictionary.Code
import ThreadedForth.Dictionary.Source
import ThreadedForth.Proofs.Dictionary.Definition
import ThreadedForth.Proofs.Memory.Storage

/-!
# What a dictionary asks of its memory

A dictionary is used by way of its operations, and each of them is a program of requests to the memory
(`served_perform`): it can be run in any storage. Storages that hold the same give the same replies, so
a single block of memory and any storage that supplies bytes only give the same results, for requests
as well as for operations (`interchangeable`).
-/

set_option autoImplicit false

namespace ThreadedForth

namespace Dictionary

variable {α β γ : Type}

/-- A program of requests computes the same. -/
def Served (x : Dictionary → α × Dictionary) : Prop :=
  ∃ p : Access α, ∀ m : Memory, p.run Memory.storage m = ((x ⟨m⟩).1, (x ⟨m⟩).2.memory)

namespace Served

theorem pure (a : α) : Served fun d => (a, d) := ⟨.done a, fun _ => rfl⟩

theorem bind {x : Dictionary → α × Dictionary} {f : α → Dictionary → β × Dictionary} (hx : Served x)
    (hf : ∀ a, Served (f a)) : Served fun d => f (x d).1 (x d).2 := by
  obtain ⟨p, hp⟩ := hx
  obtain ⟨q, hq⟩ := Classical.skolem.1 hf
  exact ⟨p.bind q, fun m => by rw [Access.run_bind, hp, hq]⟩

theorem ask (r : Storage.Request) :
    Served fun d => let (reply, m) := Memory.storage.serve r d.memory; (reply, ⟨m⟩) :=
  ⟨.ask r .done, fun _ => rfl⟩

end Served

/-! ## Reading -/

/-- A program of requests finds a value and changes nothing. -/
def Looks (f : Dictionary → α) : Prop := Served fun d => (f d, d)

namespace Looks

theorem congr {f g : Dictionary → α} (h : ∀ d, f d = g d) (hf : Looks f) : Looks g := funext h ▸ hf

theorem const (a : α) : Looks fun _ => a := .pure a

theorem bind {f : Dictionary → α} {g : α → Dictionary → β} (hf : Looks f) (hg : ∀ a, Looks (g a)) :
    Looks fun d => g (f d) d := Served.bind hf hg

theorem map {f : Dictionary → α} (hf : Looks f) (g : α → β) : Looks fun d => g (f d) :=
  hf.bind fun a => const (g a)

theorem map₂ {f : Dictionary → α} {g : Dictionary → β} (hf : Looks f) (hg : Looks g)
    (k : α → β → γ) : Looks fun d => k (f d) (g d) := hf.bind fun a => hg.map (k a)

theorem ite {c : Dictionary → Bool} {f g : Dictionary → α} (hc : Looks c) (hf : Looks f)
    (hg : Looks g) : Looks fun d => if c d then f d else g d := by
  refine hc.bind (g := fun b d => if b then f d else g d) fun b => ?_
  cases b with
  | true => exact hf
  | false => exact hg

theorem capacity : Looks capacity := Served.ask .capacity

theorem readByte (a : Addr) : Looks (readByte · a) := Served.ask (.readByte a)

theorem readCell (a : Addr) : Looks (readCell · a) := Served.ask (.readCell a)

theorem reserved (c : SystemCell) : Looks (reserved · c) := readCell c.addr

theorem reservedAddr (c : SystemCell) : Looks (reservedAddr · c) := (reserved c).map Int16.toUInt16

theorem bytesFrom (a : Addr) (n : Nat) : Looks fun d => d.memory.bytesFrom a n := by
  induction n generalizing a with
  | zero => exact const []
  | succ n ih =>
      simp only [Memory.bytesFrom_succ]
      exact (readByte a).map₂ (ih (a + 1)) List.cons

theorem text (s : Span) : Looks (text · s) := bytesFrom s.start s.length.toNat

theorem linkDistance (entry : Addr) : Looks (linkDistance · entry) :=
  (readCell entry).bind (g := fun info d =>
      if Header.isLong info then (d.readCell (entry + cellSize)).toUInt16 else Header.distance info)
    fun info => (const (Header.isLong info)).ite ((readCell _).map _) (const _)

theorem entryName (entry : Addr) : Looks (entryName · entry) :=
  (readCell entry).map fun info =>
    Span.ofLength (entry + cellSize + (if Header.isLong info then cellSize else 0))
      (Header.nameLength info)

theorem isImmediate (entry : Addr) : Looks (isImmediate · entry) :=
  (readCell entry).map Header.isImmediate

theorem entryBody (entry : Addr) : Looks (entryBody · entry) :=
  (entryName entry).map fun s => aligned s.stop

theorem entryAt (entry : Addr) : Looks (entryAt · entry) :=
  ((entryName entry).map₂ (isImmediate entry) (Entry.mk entry)).map₂ (entryBody entry) id

theorem isVisible (entry : Addr) : Looks (isVisible · entry) :=
  ((reservedAddr .here).map₂ ((reserved .compiling).map₂ (reservedAddr .openEntry)
    fun v a => !(v != 0 && a == entry)) fun a b => a != Layout.firstEntry && b)

theorem older? (entry : Addr) : Looks (older? · entry) :=
  (linkDistance entry).map fun distance =>
    if entry = Layout.firstEntry ∨ distance = 0 then none else some (entry - distance)

theorem mapM {f : α → Dictionary → β} (hf : ∀ a, Looks (f a)) (as : List α) :
    Looks fun d => as.map (f · d) := by
  induction as with
  | nil => exact const []
  | cons a as ih => exact (hf a).map₂ ih List.cons

theorem filter {f : α → Dictionary → Bool} (hf : ∀ a, Looks (f a)) (as : List α) :
    Looks fun d => as.filter (f · d) := by
  induction as with
  | nil => exact const []
  | cons a as ih =>
      simp only [List.filter_cons]
      exact (hf a).ite (ih.map (a :: ·)) ih

/-- What follows depends on whether there is something that was looked up. -/
theorem elim {f : Dictionary → Option α} {g : Dictionary → β} {k : α → Dictionary → β}
    (hf : Looks f) (hg : Looks g) (hk : ∀ a, Looks (k a)) :
    Looks fun d => (f d).elim (g d) fun a => k a d := by
  refine hf.bind (g := fun a? d => a?.elim (g d) fun a => k a d) fun a? => ?_
  cases a? with
  | none => exact hg
  | some a => exact hk a

/-- A walk is a program of requests by induction on its bound. -/
theorem chainFrom? (n : Nat) (a : Addr) : Looks fun d => d.chainFrom? n a := by
  induction n generalizing a with
  | zero => exact const none
  | succ n ih =>
      unfold Dictionary.chainFrom?
      split
      · exact const (some [])
      · refine congr (fun d => ?_) <|
          (older? a).elim (const (some [a])) fun b => (ih b).map (Option.map (a :: ·))
        cases d.older? a <;> rfl

theorem sameText (s t : Span) : Looks (sameText · s t) :=
  (text s).map₂ (text t) fun l l' => s.length == t.length && Text.same l l'

theorem searchFrom (name : Span) (n : Nat) (a : Addr) : Looks fun d => d.searchFrom name n a := by
  induction n generalizing a with
  | zero => exact const Search.endless
  | succ n ih =>
      unfold Dictionary.searchFrom
      split
      · exact const Search.absent
      · have hname : Looks fun d => d.sameText name (d.entryName a) :=
          (entryName a).bind (g := fun s d => d.sameText name s) (sameText name)
        refine (hname.map₂ (isVisible a) and).ite (const (Search.found a)) ?_
        refine congr (fun d => ?_) ((older? a).elim (const Search.absent) ih)
        cases d.older? a <;> rfl

theorem find (name : Span) : Looks (find · name) := by
  unfold Dictionary.find
  split
  · exact const Search.absent
  · exact (reservedAddr .latest).bind (searchFrom name walkLimit)

theorem entries? : Looks entries? := by
  have hchain : Looks chain? := (reservedAddr .latest).bind (chainFrom? walkLimit)
  refine hchain.bind (g := fun addrs? d => addrs?.map fun addrs =>
    (addrs.filter d.isVisible).map d.entryAt) fun addrs? => ?_
  cases addrs? with
  | none => exact const none
  | some addrs =>
      exact ((filter isVisible addrs).bind (g := fun as d => as.map d.entryAt)
        (mapM entryAt)).map some

theorem isText (s : Span) (other : List UInt8) : Looks (isText · s other) :=
  (text s).map fun l => s.length.toNat == other.length && Text.same l other

theorem runLengthFrom (p : UInt8 → Bool) (count : Nat) (a : Addr) (n : Nat) :
    Looks fun d => d.memory.runLengthFrom p count a n := by
  induction n generalizing count a with
  | zero => exact const count
  | succ n ih => exact ((readByte a).map p).ite (ih (count + 1) (a + 1)) (const count)

theorem unreadStart : Looks unreadStart := (reservedAddr .source).map₂ (reservedAddr .cursor) _

theorem unreadLength : Looks unreadLength :=
  (reservedAddr .sourceLength).map₂ (reservedAddr .cursor) fun n k => n.toNat - k.toNat

theorem leadingBlanks : Looks leadingBlanks :=
  unreadStart.bind (g := fun a d => d.memory.runLength Text.isBlank a d.unreadLength) fun a =>
    unreadLength.bind (runLengthFrom Text.isBlank 0 a)

theorem hasInput : Looks hasInput := by
  refine leadingBlanks.bind (g := fun blanks d =>
    blanks < d.unreadLength && d.readByte (d.unreadStart + UInt16.ofNat blanks) != 0) fun blanks => ?_
  refine unreadLength.map₂ ?_ fun n b => blanks < n && b
  exact (unreadStart.bind (g := fun a d => d.readByte (a + UInt16.ofNat blanks))
    fun a => readByte _).map fun b => b != 0

end Looks

/-! ## Writing -/

/-- A program of requests makes a change. -/
def Changes (f : Dictionary → Dictionary) : Prop := Served fun d => ((), f d)

namespace Changes

theorem id : Changes fun d => d := .pure ()

theorem comp {f g : Dictionary → Dictionary} (hf : Changes f) (hg : Changes g) :
    Changes fun d => g (f d) := Served.bind hf fun _ => hg

theorem of_looks {f : Dictionary → α} {g : α → Dictionary → Dictionary} (hf : Looks f)
    (hg : ∀ a, Changes (g a)) : Changes fun d => g (f d) d := Served.bind hf hg

theorem writeByte (a : Addr) (v : UInt8) : Changes (writeByte · a v) := Served.ask (.writeByte a v)

theorem writeCell (a : Addr) (v : Cell) : Changes (writeCell · a v) := Served.ask (.writeCell a v)

theorem setReserved (c : SystemCell) (v : Cell) : Changes (setReserved · c v) := writeCell c.addr v

theorem setReservedAddr (c : SystemCell) (a : Addr) : Changes (setReservedAddr · c a) :=
  setReserved c a.toInt16

theorem setUp : Changes setUp :=
  (setReserved .base 10).comp <| (setReservedAddr .here Layout.firstEntry).comp <|
    (setReservedAddr .latest Layout.firstEntry).comp <| (setReserved .compiling 0).comp <|
    (setReserved .openEntry 0).comp <| (setReservedAddr .source Layout.inputBuffer).comp <|
    (setReserved .sourceLength 0).comp <| (setReserved .cursor 0).comp (writeCell Layout.firstEntry 0)

theorem writeBytes (a : Addr) (bytes : List UInt8) : Changes (writeBytes · a bytes) := by
  induction bytes generalizing a with
  | nil => exact id
  | cons b bs ih => exact (writeByte a b).comp (ih (a + 1))

theorem copyBytes (source target : Addr) (n : Nat) :
    Changes fun d => d.copyBytes source target n := by
  induction n generalizing source target with
  | zero => exact id
  | succ n ih =>
      exact (of_looks (Looks.readByte source) (writeByte target)).comp (ih (source + 1) (target + 1))

end Changes

/-! ## Programs with a value -/

namespace Served

theorem of_looks {f : Dictionary → α} {g : α → Dictionary → β × Dictionary} (hf : Looks f)
    (hg : ∀ a, Served (g a)) : Served fun d => g (f d) d := bind hf hg

theorem of_changes {f : Dictionary → Dictionary} (hf : Changes f) (a : α) :
    Served fun d => (a, f d) := bind hf fun _ => pure a

theorem nextWord : Served nextWord := by
  have hlength : ∀ blanks, Looks fun d => d.memory.runLength isWordByte
      (d.unreadStart + UInt16.ofNat blanks) (d.unreadLength - blanks) := fun blanks =>
    Looks.unreadStart.bind (g := fun a d => d.memory.runLength isWordByte (a + UInt16.ofNat blanks)
      (d.unreadLength - blanks)) fun a => Looks.unreadLength.bind fun n =>
        .runLengthFrom isWordByte 0 (a + UInt16.ofNat blanks) (n - blanks)
  exact of_looks (Looks.leadingBlanks.bind fun blanks => (hlength blanks).map (Prod.mk blanks))
    (g := fun r d => (Span.ofLength (d.unreadStart + UInt16.ofNat r.1) (UInt16.ofNat r.2),
      d.setReservedAddr .cursor
        (d.reservedAddr .cursor + UInt16.ofNat r.1 + UInt16.ofNat r.2 + 1)))
    fun r => of_looks (Looks.unreadStart.map₂ (.reservedAddr .cursor) Prod.mk) fun r' =>
      of_changes (.setReservedAddr .cursor (r'.2 + UInt16.ofNat r.1 + UInt16.ofNat r.2 + 1))
        (Span.ofLength (r'.1 + UInt16.ofNat r.1) (UInt16.ofNat r.2))

end Served

/-! ## Programs that can fail -/

/-- The value or the error of a program, and the dictionary after it. -/
def outcome (x : DictionaryM α) (d : Dictionary) : Except Error α × Dictionary :=
  match x d with
  | .ok a d' => (.ok a, d')
  | .error e d' => (.error e, d')

/-- How a program goes on after another one, which may have failed. -/
def proceed (f : α → DictionaryM β) : Except Error α → Dictionary → Except Error β × Dictionary
  | .ok a, d => outcome (f a) d
  | .error e, d => (.error e, d)

theorem outcome_bind (x : DictionaryM α) (f : α → DictionaryM β) (d : Dictionary) :
    outcome (x >>= f) d = proceed f (outcome x d).1 (outcome x d).2 := by
  cases hx : x d with
  | ok a d' => simp only [outcome, bind_eq_of_ok hx, hx, proceed]
  | error e d' => simp only [outcome, bind_eq_of_error hx, hx, proceed]

/-- A program of requests succeeds and fails in the same way. -/
def Attempts (x : DictionaryM α) : Prop := Served (outcome x)

namespace Attempts

theorem ok {f : Dictionary → Dictionary} (hf : Changes f) (a : α) :
    Attempts fun d => .ok a (f d) := .of_changes hf (Except.ok a)

theorem error (e : Error) : Attempts fun d => (.error e d : EStateM.Result Error Dictionary α) :=
  .pure (Except.error e)

theorem of_looks {f : Dictionary → α} {g : α → DictionaryM β} (hf : Looks f)
    (hg : ∀ a, Attempts (g a)) : Attempts fun d => g (f d) d := Served.bind hf hg

theorem bind {x : DictionaryM α} {f : α → DictionaryM β} (hx : Attempts x)
    (hf : ∀ a, Attempts (f a)) : Attempts (x >>= f) := by
  -- after a failure no more requests are made
  rw [Attempts, funext (outcome_bind x f)]
  refine Served.bind hx fun r => ?_
  cases r with
  | ok a => exact hf a
  | error e => exact .pure _

theorem discard {x : DictionaryM α} (h : Attempts x) : Attempts (discard x) :=
  h.bind fun _ => ok .id PUnit.unit

theorem allot (amount : Cell) : Attempts (allot amount) := by
  refine of_looks ((Looks.reservedAddr .here).map₂ .capacity Prod.mk) (g := fun r d =>
    if Layout.firstEntry.toNat ≤ (r.1.toNat + amount.toInt : Int) ∧
        (r.1.toNat + amount.toInt : Int) < r.2 then
      .ok r.1 (d.setReservedAddr .here (r.1 + amount.toUInt16))
    else .error (.dictionaryFull r.1 amount) d) fun r => ?_
  split
  · exact ok (.setReservedAddr .here _) r.1
  · exact error _

theorem append (v : Cell) : Attempts (append v) :=
  (allot _).bind fun a => ok (.writeCell a v) ()

theorem alignHere : Attempts alignHere :=
  of_looks (g := fun a => do
      Functor.discard (Dictionary.allot (aligned a - a).toInt16)
      fun d => .ok d.here d) (.reservedAddr .here)
    fun _ => (allot _).discard.bind fun _ => .of_looks (Looks.reservedAddr .here) fun a => ok .id a

theorem appendHeader (info : Cell) : Attempts (appendHeader info) := by
  refine (append info).bind fun _ => ?_
  split
  · exact append 0
  · exact ok .id ()

theorem appendName (name : Span) : Attempts (appendName name) :=
  (allot _).bind fun target => (ok (.copyBytes name.start target _) ()).bind fun _ =>
    alignHere.discard

theorem define (name : Span) : Attempts (define name) := by
  rw [define_eq]
  split
  · exact error _
  · refine alignHere.bind fun entry => of_looks (f := fun d => d.newHeader entry name.length)
      (g := fun info => do Dictionary.appendHeader info; Dictionary.appendName name) ?_ fun info =>
        (appendHeader info).bind fun _ => appendName name
    exact (Looks.reservedAddr .latest).map fun a => Header.make name.length
      (if Header.longDistance ≤ entry - a then Header.longDistance else 0)

theorem link (entry : Addr) : Attempts (link entry) := by
  -- whether it links, and what is written, depends on the header and the latest entry
  refine of_looks ((Looks.readCell entry).map₂ (.reservedAddr .latest) Prod.mk) (g := fun r d =>
    if r.2 ≤ entry ∧ (Header.isLong r.1 ∨ entry - r.2 < Header.longDistance) then
      .ok () (((if Header.isLong r.1 then d.writeCell (entry + cellSize) (entry - r.2).toInt16
        else d).writeCell entry (Header.withDistance r.1
          (if Header.isLong r.1 then Header.longDistance else entry - r.2))).setReservedAddr
            .latest entry)
    else .error (.badLink entry r.2) d) fun r => ?_
  split
  · refine ok (Changes.comp (Changes.comp ?_ (.writeCell entry _)) (.setReservedAddr .latest entry)) ()
    split
    · exact .writeCell _ _
    · exact .id
  · exact error _

theorem loadInput (line : List UInt8) : Attempts (loadInput line) := by
  unfold Dictionary.loadInput
  split
  · exact ok ((Changes.setReservedAddr .source _).comp <| (Changes.setReserved .sourceLength _).comp <|
      (Changes.setReserved .cursor 0).comp (.writeBytes _ _)) ()
  · exact error _

end Attempts

/-! ## The operations -/

/-- What can be done with a dictionary. -/
inductive Operation where
  | setUp
  | capacity
  | readCell (a : Addr)
  | writeCell (a : Addr) (v : Cell)
  | readByte (a : Addr)
  | writeByte (a : Addr) (v : UInt8)
  | here
  | setHere (a : Addr)
  | latest
  | setLatest (a : Addr)
  | base
  | allot (amount : Cell)
  | append (v : Cell)
  | alignHere
  | define (name : Span)
  | link (entry : Addr)
  | entryName (entry : Addr)
  | isImmediate (entry : Addr)
  | entryBody (entry : Addr)
  | find (name : Span)
  | entries
  | text (s : Span)
  | isText (s : Span) (other : List UInt8)
  | sameText (s t : Span)
  | loadInput (line : List UInt8)
  | hasInput
  | nextWord

/-- The values that an operation can return. -/
def Operation.Answer : Operation → Type
  | setUp | writeCell _ _ | writeByte _ _ | setHere _ | setLatest _ => Unit
  | capacity => Nat
  | readCell _ | base => Cell
  | readByte _ => UInt8
  | here | latest | entryBody _ => Addr
  | allot _ | alignHere => Except Error Addr
  | append _ | define _ | link _ | loadInput _ => Except Error Unit
  | entryName _ | nextWord => Span
  | isImmediate _ | isText _ _ | sameText _ _ | hasInput => Bool
  | find _ => Search
  | entries => Option (List Entry)
  | text _ => List UInt8

/-- What an operation returns, and the dictionary after it. -/
def perform : (o : Operation) → Dictionary → o.Answer × Dictionary
  | .setUp, d => ((), d.setUp)
  | .capacity, d => (d.capacity, d)
  | .readCell a, d => (d.readCell a, d)
  | .writeCell a v, d => ((), d.writeCell a v)
  | .readByte a, d => (d.readByte a, d)
  | .writeByte a v, d => ((), d.writeByte a v)
  | .here, d => (d.here, d)
  | .setHere a, d => ((), d.setReservedAddr .here a)
  | .latest, d => (d.latest, d)
  | .setLatest a, d => ((), d.setReservedAddr .latest a)
  | .base, d => (d.base, d)
  | .allot amount, d => outcome (Dictionary.allot amount) d
  | .append v, d => outcome (Dictionary.append v) d
  | .alignHere, d => outcome Dictionary.alignHere d
  | .define name, d => outcome (Dictionary.define name) d
  | .link entry, d => outcome (Dictionary.link entry) d
  | .entryName entry, d => (d.entryName entry, d)
  | .isImmediate entry, d => (d.isImmediate entry, d)
  | .entryBody entry, d => (d.entryBody entry, d)
  | .find name, d => (d.find name, d)
  | .entries, d => (d.entries?, d)
  | .text s, d => (d.text s, d)
  | .isText s other, d => (d.isText s other, d)
  | .sameText s t, d => (d.sameText s t, d)
  | .loadInput line, d => outcome (Dictionary.loadInput line) d
  | .hasInput, d => (d.hasInput, d)
  | .nextWord, d => d.nextWord

/-- What one operation after the other returns, and the dictionary after all of them. -/
def performAll : List Operation → Dictionary → List (Σ o : Operation, o.Answer) × Dictionary
  | [], d => ([], d)
  | o :: os, d =>
    let (answer, d') := perform o d
    let (answers, d'') := performAll os d'
    (⟨o, answer⟩ :: answers, d'')

theorem served_perform (o : Operation) : Served (perform o) := by
  cases o with
  | setUp => exact Changes.setUp
  | capacity => exact Looks.capacity
  | readCell a => exact Looks.readCell a
  | writeCell a v => exact Changes.writeCell a v
  | readByte a => exact Looks.readByte a
  | writeByte a v => exact Changes.writeByte a v
  | here => exact Looks.reservedAddr .here
  | setHere a => exact Changes.setReservedAddr .here a
  | latest => exact Looks.reservedAddr .latest
  | setLatest a => exact Changes.setReservedAddr .latest a
  | base => exact Looks.reserved .base
  | allot amount => exact Attempts.allot amount
  | append v => exact Attempts.append v
  | alignHere => exact Attempts.alignHere
  | define name => exact Attempts.define name
  | link entry => exact Attempts.link entry
  | entryName entry => exact Looks.entryName entry
  | isImmediate entry => exact Looks.isImmediate entry
  | entryBody entry => exact Looks.entryBody entry
  | find name => exact Looks.find name
  | entries => exact Looks.entries?
  | text s => exact Looks.text s
  | isText s other => exact Looks.isText s other
  | sameText s t => exact Looks.sameText s t
  | loadInput line => exact Attempts.loadInput line
  | hasInput => exact Looks.hasInput
  | nextWord => exact Served.nextWord

theorem served_performAll (os : List Operation) : Served (performAll os) := by
  induction os with
  | nil => exact .pure []
  | cons o os ih =>
      exact (served_perform o).bind (f := fun answer d =>
          (⟨o, answer⟩ :: (performAll os d).1, (performAll os d).2)) fun answer =>
        ih.bind fun answers => .pure (⟨o, answer⟩ :: answers)

/-- A program of requests that performs the operations, whatever the memory. -/
def Performs (p : Access (List (Σ o : Operation, o.Answer))) (os : List Operation) : Prop :=
  ∀ m : Memory, p.run Memory.storage m = ((performAll os ⟨m⟩).1, (performAll os ⟨m⟩).2.memory)

/-- **A block of memory and a storage that supplies bytes only are interchangeable**, if they hold the
same at the start. Every sequence of requests gets the same replies. Every sequence of operations on a
dictionary is a program of requests, and each program that performs it returns in the other storage
what the operations return in the block. -/
theorem interchangeable {σ : Type} (B : ByteAccess σ) {s : σ} {m : FlatMemory}
    (h : Alike B.storage FlatMemory.storage s m) :
    (∀ rs : List Storage.Request,
      (B.storage.serveAll rs s).1 = (FlatMemory.storage.serveAll rs m).1) ∧
    ∀ os : List Operation, (∃ p, Performs p os) ∧
      ∀ p, Performs p os → (p.run B.storage s).1 = (performAll os ⟨.flat m⟩).1 := by
  refine ⟨fun rs => (h.serveAll B.bytewise_storage FlatMemory.bytewise_storage rs).1, fun os =>
    ⟨served_performAll os, fun p hp => ?_⟩⟩
  -- the operations are those of a dictionary over a memory, here one with a single block
  have hm : Alike B.storage Memory.storage s (Memory.flat m) := ⟨h.capacity_eq, h.readByte_eq⟩
  rw [(hm.run B.bytewise_storage Memory.bytewise_storage p).1, hp]

/-- A cell at the last of seventeen bytes lies in the memory by half. -/
theorem interchangeable_seventeenBytes :
    Alike SparseMemory.access.storage FlatMemory.storage (SparseMemory.zeros 17) (.zeros 17) ∧
    (SparseMemory.access.storage.serveAll [.writeCell 16 0x0102, .readCell 16, .readByte 17]
        (SparseMemory.zeros 17)).1 =
      [⟨.writeCell 16 0x0102, ()⟩, ⟨.readCell 16, (2 : Cell)⟩, ⟨.readByte 17, (0 : UInt8)⟩] ∧
    ∀ os, ∃ p, Performs p os ∧
      (p.run SparseMemory.access.storage (SparseMemory.zeros 17)).1 =
        (performAll os ⟨.flat (.zeros 17)⟩).1 := by
  have h : Alike SparseMemory.access.storage FlatMemory.storage (SparseMemory.zeros 17)
      (FlatMemory.zeros 17) :=
    ⟨(FlatMemory.capacity_zeros 17).symm, fun a _ =>
      (SparseMemory.readByte_zeros 17 a).trans (FlatMemory.readByte_zeros 17 a).symm⟩
  obtain ⟨hreplies, hanswers⟩ := interchangeable SparseMemory.access h
  refine ⟨h, (hreplies _).trans rfl, fun os => ?_⟩
  obtain ⟨⟨p, hp⟩, hall⟩ := hanswers os
  exact ⟨p, hp, hall p hp⟩

end Dictionary

end ThreadedForth
