import ThreadedForth.Text.Hex

/-!
# Spans

A name is known by the place where it lies in memory: a span from its first address up to, and
not including, its end. Addresses wrap, so the end may be the smaller number, and the length is
their difference modulo `2 ^ 16`.
-/

set_option autoImplicit false

namespace ThreadedForth

/-- The addresses from `start` up to, and not including, `stop`. -/
structure Span where
  start : Addr
  stop : Addr
deriving DecidableEq, Inhabited

namespace Span

/-- The span of so many bytes. -/
def ofLength (start length : Addr) : Span := ⟨start, start + length⟩

/-- The number of bytes. -/
def length (s : Span) : Addr := s.stop - s.start

/-- Whether there is no byte in the span. -/
def isEmpty (s : Span) : Bool := s.length == 0

/-- The addresses in order. -/
def addrs (s : Span) : List Addr :=
  (List.range s.length.toNat).map fun i => s.start + UInt16.ofNat i

/-- How a message speaks of a span. -/
def describe (s : Span) : String :=
  s!"{s.length.toNat} bytes at {Text.hexAddr s.start}"

@[simp] theorem start_ofLength (start n : Addr) : (ofLength start n).start = start := rfl

@[simp] theorem length_ofLength (start n : Addr) : (ofLength start n).length = n := by
  rw [ofLength, Span.length, UInt16.add_comm, UInt16.add_sub_cancel]

end Span

end ThreadedForth
