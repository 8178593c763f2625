/-!
# Byte ranges

A **`Span`** is the half-open range of byte offsets that a piece of source text occupies.  Tokens,
tree nodes and diagnostics all carry one.
-/

namespace Bluespec

/-- A half-open range of byte offsets into the UTF-8 source. -/
structure Span where
  /-- Offset of the first byte. -/
  start : Nat
  /-- Offset just after the last byte. -/
  stop : Nat
deriving DecidableEq, Repr, Inhabited

namespace Span

/-- A span is empty when it holds no byte. -/
def isEmpty (s : Span) : Bool := s.stop ≤ s.start

/-- The empty span at one offset. -/
def point (offset : Nat) : Span := ⟨offset, offset⟩

theorem isEmpty_point (offset : Nat) : (point offset).isEmpty = true := by simp [point, isEmpty]

end Span

end Bluespec
