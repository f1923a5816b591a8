import DisplayList.FrontEnd

/-!
# Actions

An action is one step of an operation that nothing can come between: what one lock protects, or one
flag. Whatever runs at the same time happens between two actions.
-/

namespace DisplayList

/-- A change of one slot under its lock. -/
inductive Change where
  | init (sub : Submission)
  | reset
  | moveTo (address : Address)
  | call (target : Address) (offset : UInt32)
  | ret
  | moveStall (address : Address)
  | moveStallWith (address : Address) (window : Window)
  | setStatus (status : Status)
  | useCursor (cursor : Cursor)
  | setPaused (paused : Bool)
  | setRestarted (restarted : Bool)
  | setFinished
  | setEnded (ended : Bool)
  | postWake
  | setSave (address : Address)
  | block (thread : UInt32)
  | takeBlocked

namespace Change

/-- What a change answers. -/
abbrev Answer : Change → Type
  | call .. => Except Failure Unit
  | ret => Option UInt32
  | moveStall _ => Bool
  | moveStallWith .. => Bool
  | takeBlocked => List UInt32
  | _ => Unit

/-- Carries out a change. -/
def perform (s : Slot) : (c : Change) → c.Answer × Slot
  | init sub => ((), s.init sub)
  | reset => ((), s.reset)
  | moveTo a => ((), s.moveTo a)
  | call target offset =>
    match s.call target offset with
    | .ok s => (.ok (), s)
    | .error e => (.error e, s)
  | ret =>
    match s.ret? with
    | some (offset, s) => (some offset, s)
    | none => (none, s)
  | moveStall a => s.moveStall a
  | moveStallWith a w => s.moveStallWith a w
  | setStatus status => ((), { s with status })
  | useCursor c => ((), { s with fetcher := s.fetcher.useCursor c })
  | setPaused paused => ((), { s with flags := { s.flags with paused } })
  | setRestarted restarted => ((), { s with flags := { s.flags with restarted } })
  | setFinished => ((), { s with flags := { s.flags with finished := true } })
  | setEnded ended => ((), { s with flags := { s.flags with ended } })
  | postWake => ((), { s with wake := s.wake.post })
  | setSave save => ((), { s with save })
  | block thread => ((), { s with blocked := s.blocked ++ [thread] })
  | takeBlocked => (s.blocked, { s with blocked := [] })

end Change

/-- One step that nothing can come between. -/
inductive Action where
  /-- Look at a slot. -/
  | look (i : Nat)
  | change (i : Nat) (c : Change)
  /-- Take a wake-up if one is pending. An action of this kind that finds none is a wait that was
  given up; a wait that goes on has not come to it yet. -/
  | await (i : Nat)
  /-- Access the words of a list, or learn where a cursor has to be found. -/
  | access (i : Nat) (a : Slot.Access)
  /-- Install a cursor and access the words of a list through it. -/
  | accessWith (i : Nat) (address : Address) (cursor : Cursor) (a : Slot.Access)
  | write (address : Address) (words : List UInt32)
  | enqueue (i : Nat) (placement : Placement)
  | dequeue
  | withdraw (i : Nat)
  /-- The ids of the queued lists. -/
  | queuedIds
  /-- Tell the backend about a list. -/
  | notify (i : Nat) (notice : Notice)
  /-- Who runs the lists started now. -/
  | kind
  | route (external : Bool)
  | routerText
  | servicesText
  | registers
  | setRegisters (registers : Registers)
  | poolSize
  | testVisible
  /-- Write down that the host carried out a request. -/
  | note (name : String) (reply : Reply)
  | setHost (f : Host → Host)
  /-- Nobody takes events from the channel any more; those not yet taken are lost. -/
  | hangUp
  /-- The producer has handed over its last word. -/
  | close
  | isClosed

namespace Action

/-- What an action answers. -/
abbrev Answer : Action → Type
  | look _ => Slot
  | change _ c => c.Answer
  | await _ => Bool
  | access _ a => Address ⊕ Except Failure a.Answer
  | accessWith _ _ _ a => Option (Except Failure a.Answer)
  | write .. => Except Memory.Fault Unit
  | dequeue => Option Nat
  | withdraw _ => Bool
  | queuedIds => List Nat
  | kind => Kind
  | route _ => Bool
  | routerText => String
  | servicesText => String
  | registers => Registers
  | poolSize => Nat
  | testVisible => Bool
  | isClosed => Bool
  | _ => Unit

/-- Applies a step of one slot to the slot at position `i`. -/
def onSlot {α : Type} (w : FrontEnd) (i : Nat) (f : Slot → α × Slot) : α × FrontEnd :=
  let (r, s) := f (w.slot i)
  (r, w.setSlot i s)

/-- Carries out an action. -/
def perform (w : FrontEnd) : (a : Action) → a.Answer × FrontEnd
  | look i => (w.slot i, w)
  | change i c => onSlot w i fun s => c.perform s
  | await i => onSlot w i fun s => (s.wake.take.1, { s with wake := s.wake.take.2 })
  | access i a => onSlot w i (·.tryAccess w.memory a)
  | accessWith i address c a => onSlot w i (·.accessWith w.memory address c a)
  | write a ws =>
    match w.memory.writeWords a ws with
    | .ok memory => (.ok (), { w with memory })
    | .error f => (.error f, w)
  | enqueue i p => ((), w.enqueue i p)
  | dequeue => w.dequeue
  | withdraw i => w.withdraw i
  | queuedIds => (w.queuedIds, w)
  | notify i n => ((), w.notify i n)
  | kind => (w.kind, w)
  | route b => w.route b
  | routerText => (w.routerText, w)
  | servicesText => (w.servicesText, w)
  | registers => (w.registers, w)
  | setRegisters r => ((), { w with registers := r })
  | poolSize => (w.poolSize, w)
  | testVisible => w.testVisible
  | note name reply => ((), w.note (.did name reply))
  | setHost f => ((), { w with host := f w.host })
  | hangUp => ((), { w with listening := false, events := #[] })
  | close => ((), { w with closed := true })
  | isClosed => (w.closed, w)

end Action

end DisplayList
