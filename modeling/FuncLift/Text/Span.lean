/-!
# Spans

A span is a half-open range of byte offsets. One offset is kept free to mean that a position is
not known yet, so that a node can be built first and placed later.
-/
namespace FuncLift

/-- Byte range from `start` up to but not including `stop`. -/
structure Span where
  start : Nat
  stop : Nat
deriving DecidableEq, Repr, Inhabited

namespace Span

/-- The offset that no text reaches, the largest of 32 bits. -/
def unknown : Nat := 4294967295

/-- The span of a node that was not laid out yet. -/
def unset : Span := ⟨unknown, unknown⟩

def length (s : Span) : Nat := s.stop - s.start

def isEmpty (s : Span) : Bool := s.length == 0

def isUnset (s : Span) : Bool := s.start == unknown

/-- Both ends belong to what a span covers; an unset span covers nothing. -/
def covers (s : Span) (offset : Nat) : Bool :=
  !s.isUnset && decide (s.start ≤ offset) && decide (offset ≤ s.stop)

/-- Smallest span that contains both. -/
def hull (s t : Span) : Span := ⟨min s.start t.start, max s.stop t.stop⟩

end Span

end FuncLift
