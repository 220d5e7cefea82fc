/-!
# Spans

A span is a half-open range of byte offsets into a text.  The order of its two ends is part of the
type, so a length is never negative and a span can always be drawn.
-/

namespace Directive

/-- The bytes from `start` up to, and not including, `stop`. -/
structure Span where
  start : Nat
  stop : Nat
  start_le_stop : start ≤ stop
deriving DecidableEq, Repr

namespace Span

/-- The span between two offsets; an end before the start counts as the start. -/
def ofBounds (start stop : Nat) : Span :=
  ⟨start, max stop start, Nat.le_max_right stop start⟩

/-- The empty span at an offset. -/
def point (offset : Nat) : Span :=
  ⟨offset, offset, Nat.le_refl offset⟩

/-- The span that starts at `start` and covers `size` bytes. -/
def ofSize (start size : Nat) : Span :=
  ⟨start, start + size, Nat.le_add_right start size⟩

/-- The number of bytes covered. -/
def size (s : Span) : Nat :=
  s.stop - s.start

/-- Whether the span covers nothing. -/
def isEmpty (s : Span) : Bool :=
  s.start == s.stop

/-- The least span that covers both. -/
def union (s t : Span) : Span :=
  ⟨min s.start t.start, max s.stop t.stop, by
    have := s.start_le_stop
    omega⟩

end Span

end Directive
