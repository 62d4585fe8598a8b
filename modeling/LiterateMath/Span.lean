/-! Places in a text, counted in characters from its start. -/
namespace LiterateMath

/-- The characters from `start` up to, but not including, `stop`. -/
structure Span where
  start : Nat
  stop : Nat
  deriving DecidableEq, Repr

namespace Span

def through (first last : Span) : Span := ⟨first.start, last.stop⟩

def shift (s : Span) (offset : Nat) : Span := ⟨s.start + offset, s.stop + offset⟩

end Span
end LiterateMath
