import DisplayList.Run
import DisplayList.Settings

/-!
# Replay

A raw list is loaded into guest memory and submitted to a pool. With the builtin engine a worker
runs it while a producer writes it in chunks and moves the stall address after each of them; with
the external renderer nothing runs, and the events that the renderer would have received are told.

Producer and worker are two processes on one front end. A replay is the run in which the producer
is done before the worker starts.
-/

namespace DisplayList.Replay

open Process

/-! ## Words of a file -/

/-- Decodes words, lowest byte first, behind those in `read`, which are in reverse. -/
def wordsFrom? (read : List UInt32) : List UInt8 → Option (List UInt32)
  | [] => some read.reverse
  | a :: b :: c :: d :: rest => wordsFrom? (Word.ofBytes [a, b, c, d] :: read) rest
  | _ => none

/-- Decodes a stream of words, lowest byte first; none if its length is no multiple of four. -/
def words? (bytes : List UInt8) : Option (List UInt32) :=
  wordsFrom? [] bytes

/-- The text about a stream whose length is no multiple of four. -/
def raggedMessage (length : Nat) : String :=
  s!"display list length {length} is not a multiple of 4 bytes"

/-! ## Replays -/

/-- How a list is replayed. -/
structure Options where
  loadAddress : Address := 0x08800000
  /-- How many words are handed over at a time; all of them if none. -/
  chunkWords : Option Nat := none
  callbackId : Int32 := 0
  deriving DecidableEq

/-- Why a replay failed. -/
inductive Error where
  | emptyList
  | load (address : Address) (fault : Memory.Fault)
  | submit (failure : Failure)
  | execution (failure : Failure)
  deriving DecidableEq

/-- The text of an error, followed by the texts of what caused it. -/
def Error.chain : Error → List String
  | emptyList => ["display list is empty"]
  | load a f => [s!"failed to load list words at 0x{Text.hex 8 a.toNat}", f.message]
  | submit e => "failed to enqueue display list" :: e.chain
  | execution e => "display list execution failed" :: e.chain

/-- What a replay comes to. -/
structure Report where
  outcomes : List Outcome
  /-- How many words of each opcode were drawn, by opcode. -/
  commands : List (Nat × Nat)
  callbacks : List String
  events : List String
  status : Status
  final : String
  deriving DecidableEq

namespace Report

/-- The number of words drawn. -/
def forwarded (r : Report) : Nat :=
  (r.commands.map (·.2)).foldr (· + ·) 0

/-- Whether the list ran to its END word at last. -/
def ended (r : Report) : Bool :=
  r.outcomes.getLast?.any Outcome.isEnded

end Report

/-- Cuts a list into at most `n` chunks of `size` words, the last one perhaps shorter. -/
def chunksUpTo (size : Nat) : (n : Nat) → List UInt32 → List (List UInt32)
  | 0, _ => []
  | _ + 1, [] => []
  | n + 1, words => words.take size :: chunksUpTo size n (words.drop size)

/-- Cuts a list into chunks of `size` words, of one word if that is zero; the last one is perhaps
shorter. -/
def chunks (size : Nat) (words : List UInt32) : List (List UInt32) :=
  chunksUpTo (max 1 size) words.length words

/-- Writes a chunk; gives the address after it. -/
def load (a : Address) (chunk : List UInt32) : Process (Except Error Address) := do
  match ← perform (.write a chunk) with
  | .ok () => return .ok (a + 4 * UInt32.ofNat chunk.length)
  | .error f => return .error (.load a f)

/-- The producer: writes one chunk after the other from `a` on and moves the stall address of the
list at position `i` to the end of each. -/
def feed (i : Nat) (a : Address) : List (List UInt32) → Process (Except Error Unit)
  | [] => do
    perform .close
    return .ok ()
  | chunk :: rest => do
    match ← load a chunk with
    | .error e => return .error e
    | .ok stop =>
      Operation.setStall i stop
      feed i stop rest

/-- The worker: runs the queue again and again while its last list stalls, until a run that began
after the producer was done. -/
def work : Process (Except Error (List Outcome)) :=
  iterate [] fun outcomes => do
    let closed ← perform .isClosed
    match ← Engine.drain true with
    | .error e => return .inr (.error (.execution e))
    | .ok ran =>
      let outcomes := outcomes ++ ran.map (·.2)
      match ran.getLast? with
      | some (_, .stalled) => if closed then return .inr (.ok outcomes) else return .inl outcomes
      | _ => return .inr (.ok outcomes)

/-- Loads the first chunk and submits the list; gives the position of its slot and the address
after the chunk. -/
def lead (o : Options) (chunk : List UInt32) : Process (Except Error (Nat × Address)) := do
  let start := Address.aligned o.loadAddress
  match ← load start chunk with
  | .error e => return .error e
  | .ok stall =>
    match ← Pool.submit ⟨start, stall, o.callbackId, none⟩ .tail with
    | .error e => return .error (.submit e)
    | .ok i => return .ok (i, stall)

/-- The front end on which a list is replayed. -/
def frontEnd (s : Settings) : FrontEnd where
  slots := (Array.range s.listCount).map Slot.new
  poolSize := s.listCount
  backend := .switch (some .channel)
  external := s.external

/-- Adds one to the count of an opcode in a list ordered by opcode. -/
def tally (op : Nat) : List (Nat × Nat) → List (Nat × Nat)
  | [] => [(op, 1)]
  | (o, n) :: rest =>
    if op < o then (op, 1) :: (o, n) :: rest
    else if op = o then (o, n + 1) :: rest
    else (o, n) :: tally op rest

/-- The opcodes of the words that were drawn, counted. -/
def commandsOf (journal : List Entry) : List (Nat × Nat) :=
  journal.foldl (fun counts e =>
    match e with
    | .told (.command _ _ word) => tally (Command.opcode word).toNat counts
    | _ => counts) []

/-- The text of a callback. -/
def callbackText? : Entry → Option String
  | .told (.signalCallback callbackId list pc behavior signal) =>
    let pc := Text.hex 8 pc.toNat
    let behavior := Text.hex 2 behavior.toNat
    let signal := Text.hex 4 signal.toNat
    some (s!"signal cbid={callbackId.toInt} list={list} pc=0x{pc} behavior=0x{behavior} " ++
      s!"signal=0x{signal}")
  | .told (.finishCallback callbackId list pc arg) =>
    let pc := Text.hex 8 pc.toNat
    let arg := Text.hex 6 arg.toNat
    some s!"finish cbid={callbackId.toInt} list={list} pc=0x{pc} arg=0x{arg}"
  | _ => none

/-- What a replay of the list at position `i` came to. -/
def report (w : FrontEnd) (i : Nat) (outcomes : List Outcome) : Report where
  outcomes := outcomes
  commands := commandsOf w.journal.toList
  callbacks := w.journal.toList.filterMap callbackText?
  events := w.events.toList.map Event.text
  status := (w.slot i).status
  final := (w.slot i).text

/-- A replay as one process: the producer is done before the worker starts. -/
def process (external : Bool) (o : Options) (words : List UInt32) :
    Process (Except Error (Nat × List Outcome)) := do
  match chunks (o.chunkWords.getD words.length) words with
  | [] => return .error .emptyList
  | first :: rest =>
    match ← lead o first with
    | .error e => return .error e
    | .ok (i, stall) =>
      match ← feed i stall rest with
      | .error e => return .error e
      | .ok () =>
        if external then
          return .ok (i, [])
        else
          return (← work).map fun outcomes => (i, outcomes)

/-- Replays a list within a budget of steps. -/
def replay (budget : Nat) (words : List UInt32) (s : Settings) (o : Options) :
    Option (Except Error Report) :=
  ((process s.external o words).run budget (frontEnd s)).map fun (r, w) =>
    r.map fun (i, outcomes) => report w i outcomes

end DisplayList.Replay
