import TurtleAlloc.Interval
import TurtleAlloc.Line
import TurtleAlloc.Log

/-!
# The live intervals of a stream

Every register that a stream names gets one interval, from the first line that names it to the
last.  Intervals are listed in the order in which their registers are met, each line being read
from its last operand to its first.

* `Code.liveIntervals` — the intervals of a stream;
* `Code.liveness` — the same, telling each first reference: `determine_live_intervals`.
-/

namespace TurtleAlloc

namespace Interval

/-- The interval of a register that is named on one line only.  A pinned register is kept in
itself. -/
def ofReference (index : Nat) (register : String) : Interval where
  register := register
  start := index
  stop := index + 1
  physical := if Register.isPinned register then some register else none

/-- The interval stretched so that it includes a line. -/
def extend (index : Nat) (interval : Interval) : Interval :=
  { interval with stop := index + 1 }

/-- Note that a line names a register: its interval is stretched, or begun at the end of the
list. -/
def reference (index : Nat) (intervals : List Interval) (register : String) : List Interval :=
  if intervals.any fun interval => interval.register == register then
    intervals.map fun interval =>
      if interval.register = register then interval.extend index else interval
  else
    intervals ++ [ofReference index register]

end Interval

namespace Code

/-- The live intervals of a stream. -/
def liveIntervals (code : Code) : List Interval :=
  code.zipIdx.foldl
    (fun intervals (line, index) => line.referenced.foldl (Interval.reference index) intervals) []

/-- The live intervals of a stream, telling where each register is met first. -/
def liveness (code : Code) : Logged (List Interval) :=
  let intervals := code.liveIntervals
  ⟨intervals.map fun interval => .firstReference interval.register interval.start, intervals⟩

@[simp] theorem value_liveness (code : Code) : code.liveness.value = code.liveIntervals := rfl

end Code

end TurtleAlloc
