/-!
# Wake-ups

The signal by which a producer wakes who waits for a list. Any number of wake-ups posted while
nobody takes one are one wake-up.
-/

namespace DisplayList

/-- A coalescing wake-up signal. -/
structure Wake where
  /-- Whether a wake-up was posted that nobody has taken. -/
  pending : Bool := false
  deriving DecidableEq, Repr

namespace Wake

/-- Posts a wake-up. -/
def post (_ : Wake) : Wake := { pending := true }

/-- Takes the pending wake-up, if there is one. -/
def take (w : Wake) : Bool × Wake := (w.pending, { pending := false })

/-- Drops the pending wake-up. -/
def clear (_ : Wake) : Wake := { pending := false }

end Wake

end DisplayList
