import DisplayList.Engine
import DisplayList.Pool
import DisplayList.Slot.Text

/-!
# Carrying out requests

Each request is a process that ends with its answer.
-/

namespace DisplayList

open Process

/-- Carries out a request that answers nothing. -/
def Process.thenUnit (p : Process Unit) : Process Reply := do
  p
  return .unit

namespace Request

/-- Makes the cursor that a plan describes and goes on with it. -/
def withCursor (plan : CursorPlan) (f : Cursor → Process Unit) : Process Reply :=
  match plan.make with
  | .error fault => return .fault fault
  | .ok c => (f c).thenUnit

/-- Carries out a request. -/
def serve : Request → Process Reply
  | write a ws => do
    match ← perform (.write a ws) with
    | .ok () => return .unit
    | .error f => return .fault f
  | submit sub p => do
    match ← Pool.submit sub p with
    | .ok i => return .id (← look i).id
    | .error e => return .failure e
  | poolSlot i => do
    if i < (← perform .poolSize) then
      return .id (← look i).id
    else
      return .unit
  | pool => do
    let size ← perform .poolSize
    return .pool size (← Pool.countActive (List.range size))
  | resetAll => Pool.resetAll.thenUnit
  | queue => return .ids (← perform .queuedIds)
  | dequeue => do
    match ← perform .dequeue with
    | some i => return .id (← look i).id
    | none => return .unit
  | route external => do
    let active ← perform (.route external)
    return .routed active (← perform .kind)
  | router => do
    let text ← perform .routerText
    return .router text (← perform .queuedIds)
  | hangUp => (perform .hangUp).thenUnit
  | setRegisters r => (perform (.setRegisters r)).thenUnit
  | run watched => return .ofExcept .outcomes (← Engine.drain watched)
  | execute i => return .ofExcept .outcome (← Engine.execute true i)
  | enqueue i p => (perform (.enqueue i p)).thenUnit
  | withdraw i => return .bool (← perform (.withdraw i))
  | init i sub => (change i (.init sub)).thenUnit
  | reset i => (Operation.reset i).thenUnit
  | moveTo i a => (change i (.moveTo a)).thenUnit
  | jump i mode arg => (Operation.jump i mode arg).thenUnit
  | call i mode arg => return .ofExcept (fun _ => .unit) (← Operation.call i mode arg)
  | ret i => (Operation.ret i).thenUnit
  | setStall i a => (Operation.setStall i a).thenUnit
  | setStallWith i a plan lo hi =>
    withCursor plan fun c => Operation.setStallWith i a ⟨c, lo, hi⟩
  | useCursor i plan => withCursor plan fun c => change i (.useCursor c)
  | setStatus i s => (change i (.setStatus s)).thenUnit
  | signal i => (change i .postWake).thenUnit
  | wait i => return .bool (← perform (.await i))
  | waitSignalled i longEnough => do
    if ← perform (.await i) then
      change i .postWake
      return .bool true
    else
      change i .postWake
      return .bool (← if longEnough then perform (.await i) else pure false)
  | start i p => (Operation.start i p).thenUnit
  | pause i => (change i (.setPaused true)).thenUnit
  | clearPaused i => (change i (.setPaused false)).thenUnit
  | restart i => (Operation.restart i).thenUnit
  | clearRestart i => (change i (.setRestarted false)).thenUnit
  | finish i => (Operation.finish i).thenUnit
  | endList i => (Operation.endList i).thenUnit
  | signalCallback i list behavior payload =>
    (Operation.signalCallback i list behavior payload).thenUnit
  | finishCallback i list arg => (Operation.finishCallback i list arg).thenUnit
  | access i .next => return .ofExcept .word (← Operation.access i .next)
  | access i .previous => return .ofExcept .word (← Operation.access i .previous)
  | access i (.rewind n) => return .ofExcept (fun _ => .unit) (← Operation.access i (.rewind n))
  | setSave i a => (change i (.setSave a)).thenUnit
  | block i thread => (change i (.block thread)).thenUnit
  | takeBlocked i => return .words (← change i .takeBlocked)
  | isInUse i list stack => return .bool ((← look i).isInUse list stack)
  | status i => do
    let stored := (← look i).status
    let reported := (← look i).reported
    return .status stored reported (← look i).pc
  | text i => return .text (← look i).text
  | diagnostic i => return .text (← look i).diagnostic
  | services _ => do
    let kind ← perform .kind
    return .services kind (← perform .servicesText)
  | expect visible =>
    (perform (.setHost fun h => { h with visible := h.visible ++ visible })).thenUnit
  | onCommand word reaction =>
    (perform (.setHost fun h =>
      { h with onCommand := (word, reaction) :: h.onCommand })).thenUnit
  | onCallback reaction =>
    (perform (.setHost fun h => { h with onCallback := h.onCallback ++ [reaction] })).thenUnit
  | onCursor reaction =>
    (perform (.setHost fun h => { h with onCursor := h.onCursor ++ [reaction] })).thenUnit

/-- Carries out what the host does when it is called, and writes it down. -/
def serveAll : List (String × Request) → Process Unit
  | [] => return
  | (name, r) :: rest => do
    let reply ← r.serve
    perform (.note name reply)
    serveAll rest

end Request

end DisplayList
