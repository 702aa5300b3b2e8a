/-! Half-open byte ranges of a script text. -/
namespace RasterScript

/-- The bytes from `start` up to, and not including, `stop`. -/
structure Span where
  start : Nat
  stop : Nat
deriving DecidableEq, Repr, Inhabited

namespace Span

/-- The range that covers two others. -/
def join (a b : Span) : Span := ⟨min a.start b.start, max a.stop b.stop⟩

def point (offset : Nat) : Span := ⟨offset, offset⟩

/-- Ranges are listed by their start, then by their end. -/
def before (a b : Span) : Bool := a.start < b.start || (a.start == b.start && a.stop ≤ b.stop)

end Span

end RasterScript
