/-!
# List status

The status of a display list, with the codes and the names under which the guest knows it.
-/

namespace DisplayList

/-- The status of a display list. -/
inductive Status where
  | done
  | queued
  | drawing
  | stallReached
  | cancelled
  deriving DecidableEq, Repr

namespace Status

/-- The code that the guest sees. -/
def code : Status → UInt32
  | done => 0
  | queued => 1
  | drawing => 2
  | stallReached => 3
  | cancelled => 5

/-- The status that has the given code. -/
def ofCode? (c : UInt32) : Option Status :=
  [done, queued, drawing, stallReached, cancelled].find? (·.code == c)

/-- The guest's name of the status. -/
def name : Status → String
  | done => "PSP_GE_LIST_DONE"
  | queued => "PSP_GE_LIST_QUEUED"
  | drawing => "PSP_GE_LIST_DRAWING"
  | stallReached => "PSP_GE_LIST_STALL_REACHED"
  | cancelled => "PSP_GE_LIST_CANCEL_DONE"

/-- The short name used in diagnostic texts. -/
def label : Status → String
  | done => "Done"
  | queued => "Queued"
  | drawing => "Drawing"
  | stallReached => "StallReached"
  | cancelled => "CancelDone"

/-- Whether a list of this status has completed, so that its slot is free. -/
def isOver : Status → Bool
  | done | cancelled => true
  | _ => false

end Status

end DisplayList
