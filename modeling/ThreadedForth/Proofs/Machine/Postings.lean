import ThreadedForth.Proofs.Machine.Recorded

/-!
# What is entered in a book

A line that makes a variable or a constant, defines a word or changes a variable is a `Posting`. It
changes the book in one place (`Book.post`). So what a name holds after many postings is seen from
those that concern it: a variable holds what was last stored in it with all that was added since
(`Book.holding?_postAll_var`), and a constant holds its number (`Book.holding?_postAll_const`).
-/

set_option autoImplicit false

namespace ThreadedForth

/-- How a variable is changed. -/
inductive Change where
  | set | add
deriving DecidableEq

namespace Change

/-- The word that makes the change. -/
def word : Change → Fixture
  | set => .tool .store
  | add => .addStore

/-- What the variable holds after the change. -/
def apply : Change → Cell → Cell → Cell
  | set, _, v => v
  | add, old, v => old + v

end Change

/-- What is entered in one line. A number stands beside the numeral that is written for it. -/
inductive Posting where
  | var (name : List UInt8)
  | const (numeral : List UInt8) (v : Cell) (name : List UInt8)
  | define (name : List UInt8) (body : List (List UInt8))
  | change (c : Change) (numeral : List UInt8) (v : Cell) (name : List UInt8)

/-- The words of the line. -/
def Posting.words : Posting → List (List UInt8)
  | var name => [Text.encode Fixture.var.name, name]
  | const numeral _ name => [numeral, Text.encode Fixture.const.name, name]
  | define name body => Text.encode Primitive.colon.name :: name ::
      (body ++ [Text.encode Primitive.semicolon.name])
  | change c numeral _ name => [numeral, name, Text.encode c.word.name]

namespace Book

/-- Whether a text is the name of a variable. -/
def holdsVar (book : Book) (text : List UInt8) : Bool :=
  match book.holding? text with
  | some (.var _) => true
  | _ => false

/-- The book after a posting. -/
def post (book : Book) : Posting → Book
  | .var name => (name, .var 0) :: book
  | .const _ v name => (name, .const v) :: book
  | .define name _ => (name, .code) :: book
  | .change c _ v name =>
    match book.holding? name with
    | some (.var old) => book.assign name (c.apply old v)
    | _ => book

/-- The book after one posting after the other. -/
def postAll (book : Book) (ps : List Posting) : Book := ps.foldl post book

end Book

namespace Posting

/-- A new name is free, a numeral is one, the words of a definition can be compiled, and what is
changed is a variable. -/
def Fits (lib : List Definition) (book : Book) : Posting → Prop
  | var name => Book.isFree lib name = true
  | const numeral v name => Book.number? lib numeral = some v ∧ Book.isFree lib name = true
  | define name body =>
    Book.isFree lib name = true ∧ ∀ text ∈ body, book.compiles lib text = true
  | change _ numeral v name => Book.number? lib numeral = some v ∧ book.holdsVar name = true

instance (lib : List Definition) (book : Book) : ∀ p : Posting, Decidable (p.Fits lib book)
  | var name => inferInstanceAs (Decidable (Book.isFree lib name = true))
  | const numeral v name =>
    inferInstanceAs (Decidable (Book.number? lib numeral = some v ∧ Book.isFree lib name = true))
  | define name body => inferInstanceAs
      (Decidable (Book.isFree lib name = true ∧ ∀ text ∈ body, book.compiles lib text = true))
  | change _ numeral v name =>
    inferInstanceAs (Decidable (Book.number? lib numeral = some v ∧ book.holdsVar name = true))

/-- Each posting fits the book at its time. -/
def AllFit (lib : List Definition) : Book → List Posting → Prop
  | _, [] => True
  | book, p :: ps => p.Fits lib book ∧ AllFit lib (book.post p) ps

instance decidableAllFit (lib : List Definition) :
    ∀ (book : Book) (ps : List Posting), Decidable (AllFit lib book ps)
  | _, [] => isTrue trivial
  | book, p :: ps =>
    have := decidableAllFit lib (book.post p) ps
    inferInstanceAs (Decidable (p.Fits lib book ∧ AllFit lib (book.post p) ps))

/-- Whether the posting gives a name, letters of either case being equal. -/
def gives (text : List UInt8) : Posting → Bool
  | var name | const _ _ name | define name _ => Text.same text name
  | change _ _ _ _ => false

/-- What a variable holds after the posting, if it held `old`. -/
def value (text : List UInt8) (old : Cell) : Posting → Cell
  | change c _ v name => if Text.same text name then c.apply old v else old
  | _ => old

/-- What a variable holds after one posting after the other, if it held `old`. -/
def total (text : List UInt8) (old : Cell) (ps : List Posting) : Cell := ps.foldl (value text) old

theorem allFit_append {lib : List Definition} {book : Book} {ps qs : List Posting} :
    AllFit lib book (ps ++ qs) ↔ AllFit lib book ps ∧ AllFit lib (book.postAll ps) qs := by
  induction ps generalizing book with
  | nil =>
      show AllFit lib book qs ↔ True ∧ AllFit lib book qs
      rw [true_and]
  | cons p ps ih =>
      show p.Fits lib book ∧ AllFit lib (book.post p) (ps ++ qs) ↔ (_ ∧ _) ∧ _
      rw [ih, and_assoc]
      rfl

end Posting

namespace Book

variable {lib : List Definition} {book : Book} {p : Posting} {ps : List Posting}
  {text name : List UInt8} {x : Holding} {v : Cell}

theorem holding?_eq_of_same (h : Text.same text name = true) :
    book.holding? text = book.holding? name := by
  have hlower := Text.same_iff.1 h
  induction book with
  | nil => rfl
  | cons e book ih =>
      rw [holding?, holding?, ih]
      unfold Text.same
      rw [hlower]

theorem holding?_cons_of_not_same (h : Text.same text name = false) :
    holding? ((name, x) :: book) text = book.holding? text := by
  rw [holding?, h, if_neg (by decide)]

theorem holdsVar_iff : book.holdsVar text = true ↔ ∃ v, book.holding? text = some (.var v) := by
  rw [holdsVar]
  constructor
  · intro h
    split at h
    · rename_i v hv
      exact ⟨v, hv⟩
    · cases h
  · rintro ⟨v, hv⟩
    rw [hv]

theorem post_change {c : Change} {numeral : List UInt8} {old : Cell}
    (h : book.holding? name = some (.var old)) :
    book.post (.change c numeral v name) = book.assign name (c.apply old v) := by
  rw [post, h]

/-- A name that the posting does not give holds what it held, if it is no variable. -/
theorem holding?_post_of_ne_var (hfits : p.Fits lib book) (hgives : p.gives text = false)
    (h : book.holding? text = some x) (hx : ∀ v, x ≠ .var v) :
    (book.post p).holding? text = some x := by
  cases p with
  | var name => exact (holding?_cons_of_not_same hgives).trans h
  | const numeral v name => exact (holding?_cons_of_not_same hgives).trans h
  | define name body => exact (holding?_cons_of_not_same hgives).trans h
  | change c numeral v name =>
      obtain ⟨old, hold⟩ := holdsVar_iff.1 hfits.2
      rw [post_change hold]
      -- it is a variable that is changed, so its name is another one
      have hname : Text.same name text = false := by
        rw [Bool.eq_false_iff]
        intro hsame
        rw [holding?_eq_of_same hsame, h] at hold
        cases hold
        exact hx old rfl
      rw [holding?_assign_of_not_same _ hname, h]

/-- A variable that the posting does not give holds its value after it. -/
theorem holding?_post_of_var (hfits : p.Fits lib book) (hgives : p.gives text = false)
    (h : book.holding? text = some (.var v)) :
    (book.post p).holding? text = some (.var (p.value text v)) := by
  cases p with
  | var name => exact (holding?_cons_of_not_same hgives).trans h
  | const numeral v name => exact (holding?_cons_of_not_same hgives).trans h
  | define name body => exact (holding?_cons_of_not_same hgives).trans h
  | change c numeral w name =>
      obtain ⟨old, hold⟩ := holdsVar_iff.1 hfits.2
      rw [post_change hold, Posting.value]
      by_cases hsame : Text.same text name = true
      · have hv : v = old := by
          rw [holding?_eq_of_same hsame, hold] at h
          cases h
          rfl
        rw [if_pos hsame, holding?_eq_of_same hsame, holding?_assign _ hold, hv]
      · have hname : Text.same name text = false := by
          rw [Text.same_comm]
          exact Bool.eq_false_iff.2 hsame
        rw [if_neg hsame, holding?_assign_of_not_same _ hname, h]

theorem holding?_postAll_of_ne_var (hfit : Posting.AllFit lib book ps)
    (hgives : ∀ p ∈ ps, p.gives text = false) (h : book.holding? text = some x)
    (hx : ∀ v, x ≠ .var v) : (book.postAll ps).holding? text = some x := by
  induction ps generalizing book with
  | nil => exact h
  | cons p ps ih =>
      obtain ⟨hp, hps⟩ := List.forall_mem_cons.1 hgives
      exact ih hfit.2 hps (holding?_post_of_ne_var hfit.1 hp h hx)

theorem holding?_postAll_of_var (hfit : Posting.AllFit lib book ps)
    (hgives : ∀ p ∈ ps, p.gives text = false) (h : book.holding? text = some (.var v)) :
    (book.postAll ps).holding? text = some (.var (Posting.total text v ps)) := by
  induction ps generalizing book v with
  | nil => exact h
  | cons p ps ih =>
      obtain ⟨hp, hps⟩ := List.forall_mem_cons.1 hgives
      exact ih hfit.2 hps (holding?_post_of_var hfit.1 hp h)

theorem postAll_append_cons (before after : List Posting) :
    book.postAll (before ++ p :: after) = ((book.postAll before).post p).postAll after := by
  rw [postAll, List.foldl_append]
  rfl

/-- What a variable holds after it was made and other postings were entered. -/
theorem holding?_postAll_var {before after : List Posting}
    (hfit : Posting.AllFit lib book (before ++ .var name :: after))
    (hsame : Text.same text name = true) (hgives : ∀ p ∈ after, p.gives text = false) :
    (book.postAll (before ++ .var name :: after)).holding? text =
      some (.var (Posting.total text 0 after)) := by
  rw [postAll_append_cons]
  refine holding?_postAll_of_var (Posting.allFit_append.1 hfit).2.2 hgives ?_
  rw [post, holding?, if_pos hsame]

/-- What a constant holds after it was made and other postings were entered. -/
theorem holding?_postAll_const {before after : List Posting} {numeral : List UInt8}
    (hfit : Posting.AllFit lib book (before ++ .const numeral v name :: after))
    (hsame : Text.same text name = true) (hgives : ∀ p ∈ after, p.gives text = false) :
    (book.postAll (before ++ .const numeral v name :: after)).holding? text = some (.const v) := by
  rw [postAll_append_cons]
  refine holding?_postAll_of_ne_var (Posting.allFit_append.1 hfit).2.2 hgives ?_ (by simp)
  rw [post, holding?, if_pos hsame]

end Book

end ThreadedForth
