import DisplayList.Command
import DisplayList.Operation

/-!
# The builtin engine

The engine takes lists from its queue and runs each word by word. It steers the lists itself and
hands every other word to whoever draws. A list that pauses, stalls or fails goes back to the head
of the queue.
-/

namespace DisplayList.Engine

open Process

/-- Does what a transfer asks for; gives an outcome if the run ends here. -/
def transfer (i : Nat) (t : Transfer) (target : UInt32) :
    Process (Except Failure (Option Outcome)) := do
  match t with
  | .jump mode =>
    Operation.jump i mode target
    return .ok none
  | .call mode =>
    let r ← Operation.call i mode target
    return r.map fun _ => none
  | .ret =>
    Operation.ret i
    return .ok none
  | .pause =>
    change i (.setPaused true)
    return .ok (some .paused)

/-- Ends a list. -/
def conclude (i : Nat) : Process Outcome := do
  Operation.endList i
  change i (.setStatus .done)
  let s ← look i
  return .ended s.flags.ended

/-- An END word does what the SIGNAL word before it asks for, and ends the list if that is nothing
or if there is no such word. -/
def stop (i : Nat) (arg : UInt32) : Process (Except Failure (Option Outcome)) := do
  match ← Operation.access i .previous with
  | .error (.memory _) => return .ok (some (← conclude i))
  | .error e => return .error e
  | .ok word =>
    match Command.decode word with
    | .signal behavior signal =>
      match Signal.transfer? behavior with
      | some t => transfer i t (Signal.target signal arg)
      | none => return .ok (some (← conclude i))
    | _ => return .ok (some (← conclude i))

/-- Carries out one command of a list; gives an outcome if the run ends here. Words for whoever
draws, and tests of what is visible, go to the host if `watched`. -/
def step (watched : Bool) (i : Nat) (c : Command) : Process (Except Failure (Option Outcome)) := do
  match c with
  | .nop => return .ok none
  | .jump arg =>
    Operation.jump i .relativeOffset arg
    return .ok none
  | .branchHidden arg =>
    let visible ← if watched then perform .testVisible else pure true
    unless visible do
      Operation.jump i .relativeOffset arg
    return .ok none
  | .call arg =>
    let r ← Operation.call i .relativeOffset arg
    return r.map fun _ => none
  | .ret =>
    Operation.ret i
    return .ok none
  | .stop arg => stop i arg
  | .signal behavior signal =>
    if Signal.calls behavior then
      Operation.signalCallback i (← look i).id behavior signal
    return .ok none
  | .finish arg =>
    Operation.finish i
    Operation.finishCallback i (← look i).id arg
    return .ok none
  | .base arg =>
    let r ← perform .registers
    perform (.setRegisters { r with base := (arg <<< 8) &&& 0xFF000000 })
    return .ok none
  | .offset arg =>
    let r ← perform .registers
    perform (.setRegisters { r with offset := arg <<< 8 })
    return .ok none
  | .origin =>
    let s ← look i
    let r ← perform .registers
    perform (.setRegisters { r with offset := s.pc - 4 })
    return .ok none
  | .draw word =>
    let s ← look i
    if watched then
      tell (.command s.id (s.pc - 4) word)
    return .ok none

/-- One round of a run: the list pauses, waits at its stall address, or does one word. -/
def round (watched : Bool) (i : Nat) : Process (Unit ⊕ Except Failure Outcome) := do
  if (← look i).flags.paused then
    return .inr (.ok .paused)
  else if (← look i).isStalled then
    change i (.setStatus .stallReached)
    if ← perform (.await i) then
      unless (← look i).isStalled do
        change i (.setStatus .drawing)
      return .inl ()
    else
      return .inr (.ok .stalled)
  else
    match ← Operation.access i .next with
    | .error e => return .inr (.error e)
    | .ok word =>
      match ← step watched i (Command.decode word) with
      | .error e => return .inr (.error e)
      | .ok none => return .inl ()
      | .ok (some outcome) => return .inr (.ok outcome)

/-- Runs a list until it ends, pauses, fails, or stalls without being let on. -/
def execute (watched : Bool) (i : Nat) : Process (Except Failure Outcome) := do
  let s ← look i
  if s.flags.reset then
    return .error (.wasReset s.id)
  else
    if (← look i).flags.restarted then
      change i (.setRestarted false)
    change i (.setStatus .drawing)
    iterate () fun _ => round watched i

/-- Runs the queued lists in order until none is left or one does not run to its END word. Lists
that were reset or are done are dropped. -/
def drain (watched : Bool) : Process (Except Failure (List (Nat × Outcome))) :=
  iterate [] fun outcomes => do
    match ← perform .dequeue with
    | none => return .inr (.ok outcomes)
    | some i =>
      if (← look i).flags.reset then
        return .inl outcomes
      else if (← look i).isDone then
        return .inl outcomes
      else
        match ← execute watched i with
        | .error e =>
          perform (.enqueue i .head)
          return .inr (.error e)
        | .ok outcome =>
          let outcomes := outcomes ++ [((← look i).id, outcome)]
          if outcome.isEnded then
            return .inl outcomes
          else
            perform (.enqueue i .head)
            return .inr (.ok outcomes)

end DisplayList.Engine
