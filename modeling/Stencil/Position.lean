/-! # Places in a source text, counted from zero and shown counted from one -/
namespace Stencil

structure Position where
  line : Nat
  column : Nat
  deriving DecidableEq

namespace Position

def compare (a b : Position) : Ordering :=
  (Ord.compare a.line b.line).then (Ord.compare a.column b.column)

def render (p : Position) : String :=
  toString (p.line + 1) ++ ":" ++ toString (p.column + 1)

end Position

structure Span where
  start : Position
  stop : Position
  deriving DecidableEq

namespace Span

def point (p : Position) : Span := ⟨p, p⟩

/-- The columns bound a position only on the first and the last line. -/
def contains (s : Span) (p : Position) : Bool :=
  decide (s.start.line ≤ p.line) && decide (p.line ≤ s.stop.line) &&
    (p.line != s.start.line || decide (s.start.column ≤ p.column)) &&
    (p.line != s.stop.line || decide (p.column ≤ s.stop.column))

end Span
end Stencil
