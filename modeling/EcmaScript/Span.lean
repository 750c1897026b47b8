namespace EcmaScript

/-!
# Spans

A span is a range of a source text, given by the UTF-8 byte offsets of its two ends.

* `Span.union` — the least span that covers two spans;
* `Span.point` — the empty span at an offset.
-/

/-- A range of a source text. A span with `stop ≤ start` covers nothing. -/
structure Span where
  /-- Offset of the first byte. -/
  start : Nat
  /-- Offset just past the last byte. -/
  stop : Nat
deriving DecidableEq, Repr, Inhabited

namespace Span

/-- The empty span at an offset. -/
def point (offset : Nat) : Span := ⟨offset, offset⟩

/-- Does the span hold no byte? -/
def isEmpty (s : Span) : Bool := s.stop ≤ s.start

/-- Number of bytes covered. -/
def length (s : Span) : Nat := s.stop - s.start

/-- The least span that covers both. -/
def union (a b : Span) : Span := ⟨min a.start b.start, max a.stop b.stop⟩

instance : Union Span := ⟨union⟩

@[simp] theorem union_start (a b : Span) : (a ∪ b).start = min a.start b.start := rfl
@[simp] theorem union_stop (a b : Span) : (a ∪ b).stop = max a.stop b.stop := rfl

end Span

end EcmaScript
