import ContextFree.Decimal.Notation

/-! # Time stamps

A time stamp counts microseconds from an epoch. It is written in seconds, as the number of
double precision that is nearest to them.
-/

namespace ContextFree.Event

/-- A moment, in microseconds from the epoch. -/
structure Stamp where
  micros : Int
  deriving DecidableEq, Repr

namespace Stamp

/-- The moment in seconds. -/
def seconds (s : Stamp) : Double :=
  .nearest (s.micros < 0) s.micros.natAbs 1000000

/-- The written form of a moment. -/
def text (s : Stamp) : String :=
  s.seconds.text

end Stamp

end ContextFree.Event
