import DisplayList.CallStack
import DisplayList.Fetcher
import DisplayList.Status
import DisplayList.Wake

/-!
# List slots

A slot holds one display list at a time: where it runs, how far it may run, what it has called and
what became of it. Each function here is one step that nothing can come between.
-/

namespace DisplayList

/-- The optional parameters of a submission. -/
structure Params where
  /-- Where the graphics context is to be saved. -/
  contextAddress : Address
  stackCount : UInt32
  /-- The list's own stack; a list that uses it is busy for others that name it. -/
  stackAddress : Address
  deriving DecidableEq, Repr

/-- What a list is submitted with. -/
structure Submission where
  list : Address
  /-- How far the list may run; zero lets it run to its end. -/
  stall : Address
  callbackId : Int32
  params : Option Params
  deriving DecidableEq

/-- The stack that a submission names, zero if none. -/
def Submission.stack (s : Submission) : Address :=
  s.params.elim 0 Params.stackAddress

/-- The control flags of a list. -/
structure Flags where
  paused : Bool
  finished : Bool
  ended : Bool
  reset : Bool
  restarted : Bool
  deriving DecidableEq, Repr

/-- The flags of a list that was never submitted. -/
def Flags.idle : Flags where
  paused := false
  finished := true
  ended := true
  reset := true
  restarted := false

/-- The flags of a list just submitted. -/
def Flags.fresh : Flags where
  paused := false
  finished := false
  ended := false
  reset := false
  restarted := false

/-- One display list slot. -/
structure Slot where
  id : Nat
  list : Address := 0
  stall : Address := 0
  callbackId : Int32 := 0
  params : Option Params := none
  /-- Where a context was saved, zero if nowhere. -/
  save : Address := 0
  /-- The address of the next word. -/
  pc : Address := 0
  calls : CallStack := .empty
  status : Status := .done
  fetcher : Fetcher := {}
  flags : Flags := .idle
  wake : Wake := {}
  /-- The threads that wait for the list. -/
  blocked : List UInt32 := []

namespace Slot

/-! ## Questions -/

/-- The stack that the list was submitted with, zero if none. -/
def stack (s : Slot) : Address :=
  s.params.elim 0 Params.stackAddress

/-- Whether the list has run as far as it may. -/
def isStalled (s : Slot) : Bool :=
  s.pc == s.stall && s.stall != 0

/-- Whether the list may not even run its first word. -/
def isStalledAtStart (s : Slot) : Bool :=
  s.isStalled && s.pc == s.list

/-- The status as reported: a stall whose address has moved on reads as drawing. -/
def reported (s : Slot) : Status :=
  if s.status = .stallReached && !s.isStalled then .drawing else s.status

/-- Whether the slot is free. -/
def isDone (s : Slot) : Bool :=
  s.status.isOver

/-- Whether the list was submitted at `list`, or shares the stack at `stack`. -/
def isInUse (s : Slot) (list stack : Address) : Bool :=
  s.list == list || (stack != 0 && s.stack == stack)

/-! ## Branches -/

/-- Moves the instruction address. -/
def moveTo (s : Slot) (a : Address) : Slot :=
  let a := Address.aligned a
  if s.pc = a then s else { s with pc := a, fetcher := s.fetcher.follow s.pc a }

/-- Saves the instruction address and `offset`, then branches to `target`. -/
def call (s : Slot) (target : Address) (offset : UInt32) : Except Failure Slot :=
  (s.calls.push ⟨s.pc, offset⟩).map fun calls => { s with calls }.moveTo target

/-- Goes back to where the innermost call was made; gives the offset saved there. -/
def ret? (s : Slot) : Option (UInt32 × Slot) :=
  s.calls.pop?.map fun (frame, calls) => (frame.offset, { s with calls }.moveTo frame.returnPc)

/-! ## Life cycle -/

/-- The slot as if nothing had been submitted, its status apart. -/
def clear (s : Slot) : Slot :=
  { s with
    calls := s.calls.clear
    fetcher := s.fetcher.clear
    pc := 0
    save := 0
    blocked := []
    flags := .idle }

/-- The slot taken out of use. -/
def reset (s : Slot) : Slot :=
  { s with status := .done }.clear

/-- The slot made ready for a submission. -/
def init (s : Slot) (sub : Submission) : Slot :=
  let s := s.clear
  let s := { s with
    list := Address.aligned sub.list
    stall := Address.aligned sub.stall
    callbackId := sub.callbackId
    params := sub.params }
  let s := s.moveTo s.list
  { s with
    status := if s.pc = s.stall then .stallReached else .queued
    flags := .fresh
    wake := s.wake.clear }

/-- The slot numbered `id` before anything was submitted. -/
def new (id : Nat) : Slot :=
  reset { id }

/-! ## The stall address -/

/-- Moves the stall address; tells whether it changed. -/
def moveStall (s : Slot) (a : Address) : Bool × Slot :=
  let a := Address.aligned a
  if s.stall = a then (false, s) else (true, { s with stall := a })

/-- Moves the stall address and takes over the producer's cursor, in one step. -/
def moveStallWith (s : Slot) (a : Address) (w : Window) : Bool × Slot :=
  let (changed, s) := s.moveStall a
  (changed, { s with fetcher := (s.fetcher.setWindow w).follow s.pc s.pc })

/-! ## Access to the words -/

/-- What may be done through the cursor of a list. -/
inductive Access where
  /-- Fetch the next word. -/
  | next
  /-- Look at the word before the one fetched last. -/
  | previous
  /-- Move the cursor back by so many words; the instruction address stays. -/
  | rewind (words : UInt32)
  deriving DecidableEq, Repr

/-- What an access answers. -/
abbrev Access.Answer : Access → Type
  | .next => UInt32
  | .previous => UInt32
  | .rewind _ => Unit

/-- The largest number of elements that a cursor moves at once. -/
def longestMove : Nat := 2147483647

/-- Does an access through the cursor at hand. -/
def access (s : Slot) (m : Memory) : (a : Access) → Except Failure a.Answer × Slot
  | .next =>
    match s.fetcher.cursor? with
    | none => (.error .noCursor, s)
    | some c =>
      match c.read m with
      | .error f => (.error (.memory f), s)
      | .ok (word, c) =>
        (.ok word, { s with
          fetcher := s.fetcher.setCursor c
          pc := Address.aligned (s.pc + 4) })
  | .previous =>
    match s.fetcher.cursor? with
    | none => (.error .noCursor, s)
    | some c =>
      let back := c.advance (-2)
      match back.read m with
      | .error f => (.error (.memory f), { s with fetcher := s.fetcher.setCursor (back.advance 2) })
      | .ok (word, c) =>
        (.ok word, { s with fetcher := s.fetcher.setCursor (c.advance 1) })
  | .rewind n =>
    match s.fetcher.cursor? with
    | none => (.error .noCursor, s)
    | some c =>
      let c := c.advance (-(min n.toNat longestMove : Nat))
      (.ok (), { s with fetcher := s.fetcher.setCursor c })

/-- Does an access, or tells where a cursor has to be found first. -/
def tryAccess (s : Slot) (m : Memory) (a : Access) : (Address ⊕ Except Failure a.Answer) × Slot :=
  match s.fetcher.wanted s.pc with
  | some address => (.inl address, s)
  | none =>
    let (r, s) := s.access m a
    (.inr r, s)

/-- Installs the cursor `c` found at `address` and does an access; nothing if another address is
wanted by now. -/
def accessWith (s : Slot) (m : Memory) (address : Address) (c : Cursor) (a : Access) :
    Option (Except Failure a.Answer) × Slot :=
  match s.fetcher.install? s.pc address c with
  | none => (none, s)
  | some fetcher =>
    let (r, s) := { s with fetcher }.access m a
    (some r, s)

end Slot

end DisplayList
