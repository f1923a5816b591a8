import DisplayList.Process

/-!
# List operations

The operations on a list that take more than one step, as processes. What a producer does to move
the stall address and what the engine does to take note of it can come in any order, step by step.
-/

namespace DisplayList.Operation

open Process

/-! ## Life cycle -/

/-- Takes a list out of use and out of the backend's hands. -/
def reset (i : Nat) : Process Unit := do
  change i .reset
  perform (.notify i .reset)

/-- Hands a list to the backend. Only a list that goes to the tail gets a wake-up. -/
def start (i : Nat) (p : Placement) : Process Unit := do
  change i (.setPaused false)
  perform (.notify i (.announced p))
  perform (.notify i (.submitted p))
  match p with
  | .tail => change i .postWake
  | .head => pure ()

/-- Lets a paused list go on. -/
def restart (i : Nat) : Process Unit := do
  change i (.setPaused false)
  change i (.setRestarted true)
  change i .postWake
  perform (.notify i .restarted)

/-- Marks a list finished. -/
def finish (i : Nat) : Process Unit := do
  change i .setFinished
  perform (.notify i .finished)

/-- Marks a list ended if it has finished, and not ended otherwise. -/
def endList (i : Nat) : Process Unit := do
  let s ← look i
  change i (.setEnded s.flags.finished)

/-! ## The stall address -/

/-- Tells the backend of a new stall address and wakes who waits for it. -/
def stallMoved (i : Nat) : Process Unit := do
  perform (.notify i .stallMoved)
  change i .postWake

/-- Moves the stall address. -/
def setStall (i : Nat) (a : Address) : Process Unit := do
  if ← change i (.moveStall a) then
    stallMoved i

/-- Moves the stall address and hands over a cursor for a window of addresses. -/
def setStallWith (i : Nat) (a : Address) (w : Window) : Process Unit := do
  if ← change i (.moveStallWith a w) then
    stallMoved i

/-! ## Branches -/

/-- Jumps by way of the registers. -/
def jump (i : Nat) (mode : Mode) (arg : UInt32) : Process Unit := do
  let r ← perform .registers
  change i (.moveTo (mode.target r arg))

/-- Calls by way of the registers. -/
def call (i : Nat) (mode : Mode) (arg : UInt32) : Process (Except Failure Unit) := do
  let r ← perform .registers
  change i (.call (mode.target r arg) r.offset)

/-- Returns from the innermost call and restores the offset register; nothing without a call. -/
def ret (i : Nat) : Process Unit := do
  match ← change i .ret with
  | none => pure ()
  | some offset =>
    let r ← perform .registers
    perform (.setRegisters { r with offset })

/-! ## Callbacks -/

/-- Makes a signal callback in the name of list number `list`. -/
def signalCallback (i list : Nat) (behavior signal : UInt32) : Process Unit := do
  let s ← look i
  let kind ← perform .kind
  tell (.signalCallback s.callbackId list (kind.callbackPc s.pc) behavior signal)

/-- Makes a finish callback in the name of list number `list`. -/
def finishCallback (i list : Nat) (arg : UInt32) : Process Unit := do
  let s ← look i
  let kind ← perform .kind
  tell (.finishCallback s.callbackId list (kind.callbackPc s.pc) arg)

/-! ## Access to the words -/

/-- Accesses the words of a list. Where a cursor has to be found, this is done with the list
unlocked; if another address is wanted by then, the cursor is dropped and the search starts over. -/
def access (i : Nat) (a : Slot.Access) : Process (Except Failure a.Answer) :=
  iterate () fun _ => do
    match ← perform (.access i a) with
    | .inr r => return .inr r
    | .inl address =>
      tell (.cursor address 4)
      match Cursor.openAt address 4 with
      | .error f => return .inr (.error (.memory f))
      | .ok c =>
        match ← perform (.accessWith i address c a) with
        | some r => return .inr r
        | none => return .inl ()

end DisplayList.Operation
