import DisplayList.Backend
import DisplayList.Outcome
import DisplayList.Slot.Basic

/-!
# Requests

All that can be asked of a front end, and the answers, as data. What a host does while the front
end calls it is a list of requests to carry out at that point, each with the name under which it is
written down.
-/

namespace DisplayList

/-- A cursor to be made: where, in which steps, and how far moved. -/
structure CursorPlan where
  address : Address
  step : UInt32
  moved : Int := 0
  deriving DecidableEq, Repr

/-- The cursor that a plan describes. -/
def CursorPlan.make (p : CursorPlan) : Except Memory.Fault Cursor :=
  (Cursor.openAt p.address p.step).map (·.advance p.moved)

/-- Something asked of a front end. Lists are named by their position. -/
inductive Request where
  /-- Write words to guest memory. -/
  | write (address : Address) (words : List UInt32)
  /-- Admit a list to the pool and start it. -/
  | submit (sub : Submission) (placement : Placement)
  /-- The id of a slot of the pool. -/
  | poolSlot (i : Nat)
  /-- How large and how busy the pool is. -/
  | pool
  | resetAll
  /-- The ids of the queued lists. -/
  | queue
  /-- Take the first list from the queue. -/
  | dequeue
  /-- Select or deselect the external renderer. -/
  | route (external : Bool)
  /-- Show the switch between engine and renderer. -/
  | router
  /-- Nobody takes events from the channel any more. -/
  | hangUp
  | setRegisters (registers : Registers)
  /-- Run the queued lists; a drawer looks on if `watched`. -/
  | run (watched : Bool)
  /-- Run one list. -/
  | execute (i : Nat)
  | enqueue (i : Nat) (placement : Placement)
  | withdraw (i : Nat)
  | init (i : Nat) (sub : Submission)
  | reset (i : Nat)
  | moveTo (i : Nat) (address : Address)
  | jump (i : Nat) (mode : Mode) (arg : UInt32)
  | call (i : Nat) (mode : Mode) (arg : UInt32)
  | ret (i : Nat)
  | setStall (i : Nat) (address : Address)
  | setStallWith (i : Nat) (address : Address) (cursor : CursorPlan) (start stop : Address)
  | useCursor (i : Nat) (cursor : CursorPlan)
  | setStatus (i : Nat) (status : Status)
  | signal (i : Nat)
  /-- Wait for a wake-up. -/
  | wait (i : Nat)
  /-- Wait for a wake-up that somebody posts meanwhile, if the wait is long enough. -/
  | waitSignalled (i : Nat) (longEnough : Bool)
  | start (i : Nat) (placement : Placement)
  | pause (i : Nat)
  | clearPaused (i : Nat)
  | restart (i : Nat)
  | clearRestart (i : Nat)
  | finish (i : Nat)
  | endList (i : Nat)
  | signalCallback (i list : Nat) (behavior signal : UInt32)
  | finishCallback (i list : Nat) (arg : UInt32)
  | access (i : Nat) (a : Slot.Access)
  | setSave (i : Nat) (address : Address)
  | block (i : Nat) (thread : UInt32)
  | takeBlocked (i : Nat)
  | isInUse (i : Nat) (list stack : Address)
  | status (i : Nat)
  | text (i : Nat)
  | diagnostic (i : Nat)
  /-- Show the backend of a list. -/
  | services (i : Nat)
  /-- Answers for the bounding box tests to come. -/
  | expect (visible : List Bool)
  /-- What the host does each time it is handed this word. -/
  | onCommand (word : UInt32) (reaction : List (String × Request))
  /-- What the host does at the next callback that has no reaction yet. -/
  | onCallback (reaction : List (String × Request))
  /-- What the host does the next time a cursor is looked for. -/
  | onCursor (reaction : List (String × Request))

/-- The answer to a request. -/
inductive Reply where
  | unit
  | bool (b : Bool)
  | word (w : UInt32)
  | words (ws : List UInt32)
  | id (n : Nat)
  | ids (ns : List Nat)
  | text (s : String)
  | fault (f : Memory.Fault)
  | failure (f : Failure)
  | status (stored reported : Status) (pc : Address)
  | pool (size active : Nat)
  | routed (active : Bool) (kind : Kind)
  | router (text : String) (queue : List Nat)
  | services (kind : Kind) (text : String)
  | outcome (o : Outcome)
  | outcomes (os : List (Nat × Outcome))

namespace Reply

/-- The answer of a request that may fail. -/
def ofExcept {α : Type} (f : α → Reply) : Except Failure α → Reply
  | .ok a => f a
  | .error e => .failure e

end Reply

end DisplayList
