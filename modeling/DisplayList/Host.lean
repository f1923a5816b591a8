import DisplayList.Request

/-!
# The host

The front end calls out at three points: when it hands a word to whoever draws, when it makes a
callback to the guest, and when it looks for a cursor. No lock is held there, so the host may act on
the front end in turn; what it does is laid down beforehand, as lists of requests. The
journal holds, in order, what the host was told and what it did.
-/

namespace DisplayList

/-- What the host does when it is called: requests, each with a name. -/
abbrev Reaction := List (String × Request)

/-- What the host is told. -/
inductive Report where
  /-- A word for whoever draws, with the list and the address it came from. -/
  | command (list : Nat) (pc : Address) (word : UInt32)
  | signalCallback (callbackId : Int32) (list : Nat) (pc : Address) (behavior signal : UInt32)
  | finishCallback (callbackId : Int32) (list : Nat) (pc : Address) (arg : UInt32)
  /-- A cursor is looked for. -/
  | cursor (address : Address) (step : UInt32)
  deriving DecidableEq

/-- A line of the journal. -/
inductive Entry where
  | told (report : Report)
  /-- A bounding box was tested, with this answer. -/
  | tested (visible : Bool)
  /-- A recorder heard of an event. -/
  | heard (event : Event)
  /-- The host carried out a request, with this answer. -/
  | did (name : String) (reply : Reply)

/-- What the host does when it is called. -/
structure Host where
  /-- Whether somebody takes the callbacks. -/
  takesCallbacks : Bool := true
  onCommand : List (UInt32 × Reaction) := []
  onCallback : List Reaction := []
  onCursor : List Reaction := []
  /-- The answers of the bounding box tests to come; visible once they are used up. -/
  visible : List Bool := []

namespace Host

/-- Whether the host hears of a report at all. -/
def hears (h : Host) : Report → Bool
  | .signalCallback .. | .finishCallback .. => h.takesCallbacks
  | _ => true

/-- What the host does about a report that it hears, and the host after that. -/
def react (h : Host) : Report → Reaction × Host
  | .command _ _ word => ((h.onCommand.lookup word).getD [], h)
  | .signalCallback .. | .finishCallback .. =>
    (h.onCallback.headD [], { h with onCallback := h.onCallback.tail })
  | .cursor .. => (h.onCursor.headD [], { h with onCursor := h.onCursor.tail })

end Host

end DisplayList
