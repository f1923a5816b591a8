import DisplayList.Operation

/-!
# The pool

Lists are submitted to a fixed pool of slots. A submission is refused while a list that is still
running was submitted at the same address or shares its stack, and when no slot is free.
-/

namespace DisplayList.Pool

open Process

/-- Whether a list among `slots` is still running and is in use by this address or stack. -/
def isBusy (list stack : Address) : (slots : List Nat) → Process Bool
  | [] => return false
  | i :: slots => do
    if (← look i).isDone then
      isBusy list stack slots
    else if (← look i).isInUse list stack then
      return true
    else
      isBusy list stack slots

/-- The first slot among `slots` that is free. -/
def firstFree : (slots : List Nat) → Process (Option Nat)
  | [] => return none
  | i :: slots => do
    if (← look i).isDone then
      return some i
    else
      firstFree slots

/-- Admits a list and starts it; gives the position of its slot. -/
def submit (sub : Submission) (p : Placement) : Process (Except Failure Nat) := do
  let slots := List.range (← perform .poolSize)
  let list := Address.aligned sub.list
  if ← isBusy list sub.stack slots then
    return .error (.busy list)
  else
    match ← firstFree slots with
    | none => return .error .noFreeSlot
    | some i =>
      change i (.init sub)
      Operation.start i p
      return .ok i

/-- The number of lists among `slots` that are still running. -/
def countActive : (slots : List Nat) → Process Nat
  | [] => return 0
  | i :: slots => do
    let active := !(← look i).isDone
    return (← countActive slots) + active.toNat

/-- Resets every list among `slots`. -/
def resetEach : (slots : List Nat) → Process Unit
  | [] => return
  | i :: slots => do
    Operation.reset i
    resetEach slots

/-- Resets every list of the pool. -/
def resetAll : Process Unit := do
  resetEach (List.range (← perform .poolSize))

end DisplayList.Pool
