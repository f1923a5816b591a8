import DisplayList.Memory.Fault

/-!
# Failures of list operations

Why an operation on a display list, the pool or the engine fails, and the texts of the failures.
-/

namespace DisplayList

/-- Why an operation on a display list failed. -/
inductive Failure where
  /-- Guest memory could not be read. -/
  | memory (fault : Memory.Fault)
  /-- A call was made with the call stack full. -/
  | overflow (depth : Nat)
  /-- A list that is still running was submitted at this address or shares the stack. -/
  | busy (list : Address)
  /-- Every slot of the pool holds a list that is still running. -/
  | noFreeSlot
  /-- The list was reset and cannot be run. -/
  | wasReset (id : Nat)
  /-- There is no cursor to read from. -/
  | noCursor
  deriving DecidableEq, Repr

namespace Failure

/-- The text of a failure. -/
def message : Failure → String
  | memory f => s!"guest memory fault: {f.message}"
  | overflow d => s!"call stack overflow at depth {d}"
  | busy a => s!"display list at 0x{Text.hex 8 a.toNat} is already queued"
  | noFreeSlot => "no free display list slot"
  | wasReset id => s!"display list {id} was reset and cannot run"
  | noCursor => "display list has no active instruction cursor"

/-- The texts of the failure and of what caused it, outermost first. -/
def chain : Failure → List String
  | f@(memory fault) => [f.message, fault.message]
  | f => [f.message]

end Failure

end DisplayList
