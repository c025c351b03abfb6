import ThreadedForth.Dictionary.Entry
import ThreadedForth.Text.Ascii

/-!
# The chain of entries

From the latest entry each entry leads back to an older one, until one has no distance or lies
where the first definition is. The distances are cells of memory, so in a memory with arbitrary
contents the way back can return to where it was. There are only `2 ^ 16` addresses: a walk
longer than that never ends, and `chain?` and `find` say so instead of going on.

An entry on the way can be hidden. None is seen before anything was defined, and the entry that
the current definition began is not seen while it is compiled.
-/

set_option autoImplicit false

namespace ThreadedForth.Dictionary

/-- The next older entry after the one at `a`. -/
def older? (d : Dictionary) (a : Addr) : Option Addr :=
  let distance := d.linkDistance a
  if a = Layout.firstEntry ∨ distance = 0 then none else some (a - distance)

/-- Whether an entry in the chain is seen. -/
def isVisible (d : Dictionary) (a : Addr) : Bool :=
  d.here != Layout.firstEntry && !(d.compiling && d.reservedAddr .openEntry == a)

/-- The number of addresses. No walk that ends is longer. -/
def walkLimit : Nat := 65536

/-- The addresses of a chain in at most `n` steps, if it ends in so many. -/
def chainFrom? (d : Dictionary) : Nat → Addr → Option (List Addr)
  | 0, _ => none
  | n + 1, a =>
    if a < Layout.firstEntry then some []
    else
      match d.older? a with
      | none => some [a]
      | some b => (chainFrom? d n b).map (a :: ·)

/-- The addresses of the linked entries, newest first, unless they go round in a circle. -/
def chain? (d : Dictionary) : Option (List Addr) := d.chainFrom? walkLimit d.latest

/-- The entries that are seen, newest first, unless the chain goes round in a circle. -/
def entries? (d : Dictionary) : Option (List Entry) :=
  d.chain?.map fun addrs => (addrs.filter d.isVisible).map d.entryAt

/-- Whether the bytes of a span are a text, letters of either case being equal. -/
def isText (d : Dictionary) (s : Span) (other : List UInt8) : Bool :=
  s.length.toNat == other.length && Text.same (d.text s) other

/-- Whether two spans hold the same text, letters of either case being equal. -/
def sameText (d : Dictionary) (s t : Span) : Bool :=
  s.length == t.length && Text.same (d.text s) (d.text t)

/-- What became of a search. -/
inductive Search where
  | found (entry : Addr)
  | absent
  /-- The chain goes round in a circle without what was sought. -/
  | endless
deriving DecidableEq

/-- Looks for a name along a chain in at most `n` steps. -/
def searchFrom (d : Dictionary) (name : Span) : Nat → Addr → Search
  | 0, _ => .endless
  | n + 1, a =>
    if a < Layout.firstEntry then .absent
    else if d.sameText name (d.entryName a) && d.isVisible a then .found a
    else
      match d.older? a with
      | none => .absent
      | some b => searchFrom d name n b

/-- Looks for the newest entry with a name. Nothing has the empty name. -/
def find (d : Dictionary) (name : Span) : Search :=
  if name.isEmpty then .absent else d.searchFrom name walkLimit d.latest

end ThreadedForth.Dictionary
