import ThreadedForth.Proofs.Machine.Run

/-!
# Structured programs

A program is a list of statements: numbers, operators, choices and loops, nested to any depth.
`Statement.Ends` and `Statement.EndsAll` are its meaning, without any memory. A test takes a cell
off the stack, and zero means false. A program that goes on for ever ends in no way.

`CodeAt` says how the code of a program lies in memory: a choice is a jump over what is not
chosen, a loop has a jump back. Code that lies so ends in every way in which the program does
(`does_of_endsAll`).
-/

set_option autoImplicit false

namespace ThreadedForth

/-- What a structured program consists of. -/
inductive Statement where
  | literal (v : Cell)
  | operator (op : Operator)
  | ifThen (yes : List Statement)
  | ifElse (yes no : List Statement)
  /-- Runs the body until it leaves a flag that is not zero. -/
  | loopUntil (body : List Statement)
  /-- Runs the test, and then the body as long as the test leaves a flag that is not zero. -/
  | loopWhile (test body : List Statement)

namespace Statement

/-! ## Meaning -/

mutual

/-- A statement that is begun with a stack ends with an outcome. -/
inductive Ends : Statement → Stack → Machine.Outcome → Prop
  | literal (v : Cell) (s : Stack) : Ends (.literal v) s (StackM.push v s)
  | operator (op : Operator) (s : Stack) : Ends (.operator op) s (op.apply s)
  | ifThen {yes : List Statement} {s s' : Stack} {flag : Cell} {o : Machine.Outcome}
      (test : StackM.pop s = .ok flag s') (chosen : EndsAll (if flag = 0 then [] else yes) s' o) :
      Ends (.ifThen yes) s o
  | ifThenFails {yes : List Statement} {s s' : Stack} {e : Error}
      (test : StackM.pop s = .error e s') : Ends (.ifThen yes) s (.error e s')
  | ifElse {yes no : List Statement} {s s' : Stack} {flag : Cell} {o : Machine.Outcome}
      (test : StackM.pop s = .ok flag s') (chosen : EndsAll (if flag = 0 then no else yes) s' o) :
      Ends (.ifElse yes no) s o
  | ifElseFails {yes no : List Statement} {s s' : Stack} {e : Error}
      (test : StackM.pop s = .error e s') : Ends (.ifElse yes no) s (.error e s')
  | untilDone {body : List Statement} {s s1 s2 : Stack} {flag : Cell}
      (once : EndsAll body s (.ok () s1)) (test : StackM.pop s1 = .ok flag s2) (done : flag ≠ 0) :
      Ends (.loopUntil body) s (.ok () s2)
  | untilAgain {body : List Statement} {s s1 s2 : Stack} {o : Machine.Outcome}
      (once : EndsAll body s (.ok () s1)) (test : StackM.pop s1 = .ok 0 s2)
      (again : Ends (.loopUntil body) s2 o) : Ends (.loopUntil body) s o
  | untilBodyFails {body : List Statement} {s s1 : Stack} {e : Error}
      (once : EndsAll body s (.error e s1)) : Ends (.loopUntil body) s (.error e s1)
  | untilTestFails {body : List Statement} {s s1 s2 : Stack} {e : Error}
      (once : EndsAll body s (.ok () s1)) (test : StackM.pop s1 = .error e s2) :
      Ends (.loopUntil body) s (.error e s2)
  | whileDone {test body : List Statement} {s s1 s2 : Stack}
      (tested : EndsAll test s (.ok () s1)) (done : StackM.pop s1 = .ok 0 s2) :
      Ends (.loopWhile test body) s (.ok () s2)
  | whileAgain {test body : List Statement} {s s1 s2 s3 : Stack} {flag : Cell} {o : Machine.Outcome}
      (tested : EndsAll test s (.ok () s1)) (holds : StackM.pop s1 = .ok flag s2) (ne : flag ≠ 0)
      (once : EndsAll body s2 (.ok () s3)) (again : Ends (.loopWhile test body) s3 o) :
      Ends (.loopWhile test body) s o
  | whileTestFails {test body : List Statement} {s s1 : Stack} {e : Error}
      (tested : EndsAll test s (.error e s1)) : Ends (.loopWhile test body) s (.error e s1)
  | whileFlagFails {test body : List Statement} {s s1 s2 : Stack} {e : Error}
      (tested : EndsAll test s (.ok () s1)) (holds : StackM.pop s1 = .error e s2) :
      Ends (.loopWhile test body) s (.error e s2)
  | whileBodyFails {test body : List Statement} {s s1 s2 s3 : Stack} {flag : Cell} {e : Error}
      (tested : EndsAll test s (.ok () s1)) (holds : StackM.pop s1 = .ok flag s2) (ne : flag ≠ 0)
      (once : EndsAll body s2 (.error e s3)) : Ends (.loopWhile test body) s (.error e s3)

/-- A program that is begun with a stack ends with an outcome. -/
inductive EndsAll : List Statement → Stack → Machine.Outcome → Prop
  | nil (s : Stack) : EndsAll [] s (.ok () s)
  | cons {i : Statement} {is : List Statement} {s s' : Stack} {o : Machine.Outcome}
      (first : Ends i s (.ok () s')) (rest : EndsAll is s' o) : EndsAll (i :: is) s o
  | fails {i : Statement} {is : List Statement} {s s' : Stack} {e : Error}
      (first : Ends i s (.error e s')) : EndsAll (i :: is) s (.error e s')

end

end Statement

/-! ## Code -/

namespace Dictionary

/-- A jump lies at an address: its token, and how far it goes from the cell that says so. -/
def JumpAt (d : Dictionary) (p : Primitive) (a target : Addr) : Prop :=
  a.toNat + 4 < 65536 ∧
    d.CellsAt a [p.token.toInt16, target.toInt16 - (a + cellSize).toInt16]

/-- The address after a jump. -/
def afterJump (a : Addr) : Addr := a + cellSize + cellSize

mutual

/-- The code of a statement lies from one address up to another. -/
def CodeOf (d : Dictionary) : Statement → Addr → Addr → Prop
  | .literal v, a, c => d.CellsAt a (literalCells v) ∧
      a.toNat + 2 * (literalCells v).length < 65536 ∧ c = after a (literalCells v)
  | .operator op, a, c => a.toNat + 2 < 65536 ∧
      d.readCell a = (Primitive.operator op).token.toInt16 ∧ c = a + cellSize
  | .ifThen yes, a, c => d.JumpAt .branchIfZero a c ∧ d.CodeAt yes (afterJump a) c
  | .ifElse yes no, a, c => ∃ b, d.JumpAt .branchIfZero a (afterJump b) ∧
      d.CodeAt yes (afterJump a) b ∧ d.JumpAt .branch b c ∧ d.CodeAt no (afterJump b) c
  | .loopUntil body, a, c => ∃ b, d.CodeAt body a b ∧ d.JumpAt .branchIfZero b a ∧ c = afterJump b
  | .loopWhile test body, a, c => ∃ b b', d.CodeAt test a b ∧ d.JumpAt .branchIfZero b c ∧
      d.CodeAt body (afterJump b) b' ∧ d.JumpAt .branch b' a ∧ c = afterJump b'

/-- The code of a program lies from one address up to another. -/
def CodeAt (d : Dictionary) : List Statement → Addr → Addr → Prop
  | [], a, c => a = c
  | i :: is, a, c => ∃ b, d.CodeOf i a b ∧ d.CodeAt is b c

end

variable {d d' : Dictionary} {p : Primitive} {a b : Addr} {lo hi : Nat}

theorem JumpAt.toNat_afterJump (h : d.JumpAt p a b) : (afterJump a).toNat = a.toNat + 4 := by
  have h2 : (a + cellSize).toNat = a.toNat + 2 := toNat_add_cellSize (by have := h.1; omega)
  unfold afterJump
  rw [toNat_add_cellSize (by have := h.1; omega), h2]

theorem JumpAt.of_agreeOn (h : d.JumpAt p a b) (hd : d.AgreeOn d' lo hi) (hlo : lo ≤ a.toNat)
    (hhi : a.toNat + 4 ≤ hi) : d'.JumpAt p a b :=
  ⟨h.1, h.2.of_agreeOn hd hlo hhi h.1⟩

mutual

theorem CodeOf.le {i : Statement} {a c : Addr} (h : d.CodeOf i a c) : a.toNat ≤ c.toNat := by
  match i with
  | .literal v =>
      unfold CodeOf at h
      rcases h with ⟨-, htop, rfl⟩
      rw [toNat_after htop]
      omega
  | .operator op =>
      unfold CodeOf at h
      rcases h with ⟨htop, -, rfl⟩
      rw [toNat_add_cellSize htop]
      omega
  | .ifThen yes =>
      unfold CodeOf at h
      rcases h with ⟨hjump, hyes⟩
      have h4 := hjump.toNat_afterJump
      have hle := hyes.le
      omega
  | .ifElse yes no =>
      unfold CodeOf at h
      rcases h with ⟨b, hjump, hyes, hskip, hno⟩
      have h4 := hjump.toNat_afterJump
      have h4' := hskip.toNat_afterJump
      have hle := hyes.le
      have hle' := hno.le
      omega
  | .loopUntil body =>
      unfold CodeOf at h
      rcases h with ⟨b, hbody, hjump, rfl⟩
      have h4 := hjump.toNat_afterJump
      have hle := hbody.le
      omega
  | .loopWhile test body =>
      unfold CodeOf at h
      rcases h with ⟨b, b', htest, hjump, hbody, hback, rfl⟩
      have h4 := hjump.toNat_afterJump
      have h4' := hback.toNat_afterJump
      have hle := htest.le
      have hle' := hbody.le
      omega

theorem CodeAt.le {is : List Statement} {a c : Addr} (h : d.CodeAt is a c) :
    a.toNat ≤ c.toNat := by
  match is with
  | [] =>
      unfold CodeAt at h
      exact Nat.le_of_eq (congrArg UInt16.toNat h)
  | i :: is =>
      unfold CodeAt at h
      rcases h with ⟨b, hfirst, hrest⟩
      exact Nat.le_trans hfirst.le hrest.le

end

mutual

/-- The code of a statement is kept with its bytes. -/
theorem CodeOf.of_agreeOn {i : Statement} {a c : Addr} (h : d.CodeOf i a c)
    (hd : d.AgreeOn d' lo hi) (hlo : lo ≤ a.toNat) (hhi : c.toNat ≤ hi) : d'.CodeOf i a c := by
  match i with
  | .literal v =>
      unfold CodeOf at h ⊢
      rcases h with ⟨hcells, htop, rfl⟩
      rw [toNat_after htop] at hhi
      exact ⟨hcells.of_agreeOn hd hlo hhi htop, htop, rfl⟩
  | .operator op =>
      unfold CodeOf at h ⊢
      rcases h with ⟨htop, htoken, rfl⟩
      rw [toNat_add_cellSize htop] at hhi
      exact ⟨htop, (hd.readCell hlo hhi (by omega)).trans htoken, rfl⟩
  | .ifThen yes =>
      unfold CodeOf at h ⊢
      rcases h with ⟨hjump, hyes⟩
      have h4 := hjump.toNat_afterJump
      have hle := hyes.le
      constructor
      · exact hjump.of_agreeOn hd hlo (by omega)
      · exact hyes.of_agreeOn hd (by omega) hhi
  | .ifElse yes no =>
      unfold CodeOf at h ⊢
      rcases h with ⟨b, hjump, hyes, hskip, hno⟩
      have h4 := hjump.toNat_afterJump
      have h4' := hskip.toNat_afterJump
      have hle := hyes.le
      have hle' := hno.le
      exact ⟨b, hjump.of_agreeOn hd hlo (by omega), hyes.of_agreeOn hd (by omega) (by omega),
        hskip.of_agreeOn hd (by omega) (by omega), hno.of_agreeOn hd (by omega) hhi⟩
  | .loopUntil body =>
      unfold CodeOf at h ⊢
      rcases h with ⟨b, hbody, hjump, rfl⟩
      have h4 := hjump.toNat_afterJump
      have hle := hbody.le
      exact ⟨b, hbody.of_agreeOn hd hlo (by omega), hjump.of_agreeOn hd (by omega) (by omega), rfl⟩
  | .loopWhile test body =>
      unfold CodeOf at h ⊢
      rcases h with ⟨b, b', htest, hjump, hbody, hback, rfl⟩
      have h4 := hjump.toNat_afterJump
      have h4' := hback.toNat_afterJump
      have hle := htest.le
      have hle' := hbody.le
      exact ⟨b, b', htest.of_agreeOn hd hlo (by omega), hjump.of_agreeOn hd (by omega) (by omega),
        hbody.of_agreeOn hd (by omega) (by omega), hback.of_agreeOn hd (by omega) (by omega), rfl⟩

/-- The code of a program is kept with its bytes. -/
theorem CodeAt.of_agreeOn {is : List Statement} {a c : Addr} (h : d.CodeAt is a c)
    (hd : d.AgreeOn d' lo hi) (hlo : lo ≤ a.toNat) (hhi : c.toNat ≤ hi) : d'.CodeAt is a c := by
  match is with
  | [] =>
      unfold CodeAt at h ⊢
      exact h
  | i :: is =>
      unfold CodeAt at h ⊢
      rcases h with ⟨b, hfirst, hrest⟩
      have hle := hfirst.le
      have hle' := hrest.le
      exact ⟨b, hfirst.of_agreeOn hd hlo (by omega), hrest.of_agreeOn hd (by omega) hhi⟩

end

end Dictionary

namespace Machine

open Dictionary

variable {H : Type} {hooks : Hooks H} {call : Interpreter H} {d : Dictionary} {a b c : Addr}
  {s s' : Stack}

/-! ## Jumps -/

/-- What a jump adds to the address of its second cell is the way to its target. -/
theorem add_toUInt16_sub (a b : Addr) : a + (b.toInt16 - a.toInt16).toUInt16 = b := by
  rw [← UInt16.toInt16_sub, UInt16.toUInt16_toInt16, UInt16.add_comm, UInt16.sub_add_cancel]

theorem does_branch (h : d.JumpAt .branch a b) (s : Stack) :
    Does hooks call d 0 a b s (.ok () s) := by
  rcases h with ⟨-, htoken, hoffset, -⟩
  refine does_of_runToken s htoken (c := a) fun n returns host => ?_
  rw [runToken_branch, hoffset, add_toUInt16_sub]

variable (hooks call) in
/-- A jump that depends on a flag takes it off the stack. -/
theorem does_branchIfZero {flag : Cell} (h : d.JumpAt .branchIfZero a b)
    (hpop : StackM.pop s = .ok flag s') :
    Does hooks call d 0 a (if flag = 0 then b else afterJump a) s (.ok () s') := by
  rcases h with ⟨-, htoken, hoffset, -⟩
  refine does_of_runToken s htoken (c := a) fun n returns host => ?_
  rw [runToken_branchIfZero, hpop, hoffset, add_toUInt16_sub]
  rfl

theorem does_branchIfZero_error {e : Error} (h : d.JumpAt .branchIfZero a b)
    (hpop : StackM.pop s = .error e s') : Does hooks call d 0 a c s (.error e s') := by
  rcases h with ⟨-, htoken, -⟩
  refine does_of_runToken s htoken (c := a) fun n returns host => ?_
  rw [runToken_branchIfZero, hpop]

/-- Code after which there is only a jump comes to the target of the jump. -/
theorem Does.followed {free : Nat} {o : Outcome} (h : Does hooks call d free a b s o)
    (hjump : ∀ s', Does hooks call d free b c s' (.ok () s')) : Does hooks call d free a c s o := by
  cases o with
  | ok u s' => exact h.trans (hjump s')
  | error e s' => exact h.of_error

/-! ## Running a program -/

section Induction

open Statement

mutual

/-- The code of a statement ends in every way in which the statement does. -/
theorem does_of_ends {i : Statement} {s : Stack} {o : Outcome} (h : Ends i s o) {a c : Addr}
    (hcode : d.CodeOf i a c) : Does hooks call d 0 a c s o := by
  match h with
  | .literal v s =>
      unfold CodeOf at hcode
      rcases hcode with ⟨hcells, -, rfl⟩
      exact does_literal s hcells
  | .operator op s =>
      unfold CodeOf at hcode
      rcases hcode with ⟨-, htoken, rfl⟩
      exact does_operator s htoken
  | @Ends.ifThen yes s s' flag o test chosen =>
      unfold CodeOf at hcode
      rcases hcode with ⟨hjump, hyes⟩
      refine (does_branchIfZero hooks call hjump test).trans (does_of_endsAll chosen ?_)
      by_cases hflag : flag = 0
      · rw [if_pos hflag, if_pos hflag, CodeAt]
      · rw [if_neg hflag, if_neg hflag]
        exact hyes
  | .ifThenFails test =>
      unfold CodeOf at hcode
      exact does_branchIfZero_error hcode.1 test
  | @Ends.ifElse yes no s s' flag o test chosen =>
      unfold CodeOf at hcode
      rcases hcode with ⟨b, hjump, hyes, hskip, hno⟩
      have hchosen : ∀ x y, d.CodeAt (if flag = 0 then no else yes) x y →
          Does hooks call d 0 x y s' o := fun x y => does_of_endsAll chosen
      refine (does_branchIfZero hooks call hjump test).trans ?_
      by_cases hflag : flag = 0
      · rw [if_pos hflag] at hchosen ⊢
        exact hchosen _ _ hno
      · -- the other part is jumped over
        rw [if_neg hflag] at hchosen ⊢
        exact (hchosen _ _ hyes).followed (does_branch hskip)
  | .ifElseFails test =>
      unfold CodeOf at hcode
      rcases hcode with ⟨b, hjump, -⟩
      exact does_branchIfZero_error hjump test
  | .untilDone once test done =>
      unfold CodeOf at hcode
      rcases hcode with ⟨b, hbody, hjump, rfl⟩
      have htest := does_branchIfZero hooks call hjump test
      rw [if_neg done] at htest
      exact (does_of_endsAll once hbody).trans htest
  | .untilAgain once test again =>
      have hagain := does_of_ends again hcode
      unfold CodeOf at hcode
      rcases hcode with ⟨b, hbody, hjump, rfl⟩
      have htest := does_branchIfZero hooks call hjump test
      rw [if_pos rfl] at htest
      exact ((does_of_endsAll once hbody).trans htest).trans hagain
  | .untilBodyFails once =>
      unfold CodeOf at hcode
      rcases hcode with ⟨b, hbody, -⟩
      exact (does_of_endsAll once hbody).of_error
  | .untilTestFails once test =>
      unfold CodeOf at hcode
      rcases hcode with ⟨b, hbody, hjump, -⟩
      exact (does_of_endsAll once hbody).trans (does_branchIfZero_error hjump test)
  | .whileDone tested done =>
      unfold CodeOf at hcode
      rcases hcode with ⟨b, b', htest, hjump, -⟩
      have hleave := does_branchIfZero hooks call hjump done
      rw [if_pos rfl] at hleave
      exact (does_of_endsAll tested htest).trans hleave
  | .whileAgain tested holds ne once again =>
      have hagain := does_of_ends again hcode
      unfold CodeOf at hcode
      rcases hcode with ⟨b, b', htest, hjump, hbody, hback, -⟩
      have henter := does_branchIfZero hooks call hjump holds
      rw [if_neg ne] at henter
      have honce := (does_of_endsAll once hbody).trans (does_branch hback _)
      exact (((does_of_endsAll tested htest).trans henter).trans honce).trans hagain
  | .whileTestFails tested =>
      unfold CodeOf at hcode
      rcases hcode with ⟨b, b', htest, -⟩
      exact (does_of_endsAll tested htest).of_error
  | .whileFlagFails tested holds =>
      unfold CodeOf at hcode
      rcases hcode with ⟨b, b', htest, hjump, -⟩
      exact (does_of_endsAll tested htest).trans (does_branchIfZero_error hjump holds)
  | .whileBodyFails tested holds ne once =>
      unfold CodeOf at hcode
      rcases hcode with ⟨b, b', htest, hjump, hbody, -⟩
      have henter := does_branchIfZero hooks call hjump holds
      rw [if_neg ne] at henter
      exact ((does_of_endsAll tested htest).trans henter).trans (does_of_endsAll once hbody).of_error

/-- The code of a program ends in every way in which the program does. -/
theorem does_of_endsAll {is : List Statement} {s : Stack} {o : Outcome} (h : EndsAll is s o)
    {a c : Addr} (hcode : d.CodeAt is a c) : Does hooks call d 0 a c s o := by
  match h with
  | .nil s =>
      unfold CodeAt at hcode
      obtain rfl := hcode
      exact .refl d 0 a s
  | .cons first rest =>
      unfold CodeAt at hcode
      rcases hcode with ⟨b, hfirst, hrest⟩
      exact (does_of_ends first hfirst).trans (does_of_endsAll rest hrest)
  | .fails first =>
      unfold CodeAt at hcode
      rcases hcode with ⟨b, hfirst, -⟩
      exact (does_of_ends first hfirst).of_error

end

end Induction

end Machine

end ThreadedForth
