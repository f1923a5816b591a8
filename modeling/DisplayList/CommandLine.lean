import DisplayList.Replay
import DisplayList.Settings.Reader

/-!
# The command line

The arguments of the replay program, what it prints, and how it fails.
-/

namespace DisplayList.CommandLine

/-! ## Arguments -/

/-- The arguments as they are given. -/
structure Arguments where
  /-- The path of the list to replay. -/
  input : String
  /-- The path of a file with settings. -/
  config : Option String := none
  loadAddress : Option String := none
  chunkWords : Option String := none
  timeoutMs : Option String := none
  callbackId : Option String := none

/-- The names under which arguments are given. -/
def names : List String :=
  ["input", "config", "load-addr", "chunk-words", "timeout-ms", "cbid"]

/-- Splits `--name=value`, or `--name` and the value after it, into names and values. A value that
stands by itself does not start with a dash. -/
def pairs? : List String → Option (List (String × String))
  | [] => some []
  | arg :: rest =>
    match arg.toList with
    | '-' :: '-' :: cs =>
      let name := String.ofList (cs.takeWhile (· != '='))
      match cs.dropWhile (· != '='), rest with
      | _ :: value, rest => (pairs? rest).map ((name, String.ofList value) :: ·)
      | [], value :: rest =>
        if value.toList.head? = some '-' && value != "-" then none
        else (pairs? rest).map ((name, value) :: ·)
      | [], [] => none
    | _ => none

/-- The arguments of a command line: each known and given once, and the input among them. -/
def Arguments.ofList? (args : List String) : Option Arguments := do
  let given ← pairs? args
  let known := given.all fun (name, _) => names.contains name
  let once := names.all fun name => (given.filter (·.1 == name)).length ≤ 1
  if known && once then
    return {
      input := ← given.lookup "input"
      config := given.lookup "config"
      loadAddress := given.lookup "load-addr"
      chunkWords := given.lookup "chunk-words"
      timeoutMs := given.lookup "timeout-ms"
      callbackId := given.lookup "cbid" }
  else
    none

/-- Reads a 32-bit number: hexadecimal after `0x`, decimal otherwise, with underscores anywhere
among the digits and blanks around it. -/
def readWord? (s : String) : Option UInt32 :=
  let read (base : Nat) (cs : List Char) :=
    (Text.readNat? base 4294967296 (cs.filter (· != '_'))).map UInt32.ofNat
  match Text.trim s.toList with
  | '0' :: 'x' :: cs => read 16 cs
  | '0' :: 'X' :: cs => read 16 cs
  | cs => read 10 cs

/-- The values of the arguments. -/
structure Values where
  options : Replay.Options
  timeoutMs : Option Nat
  deriving DecidableEq

/-- Reads an argument that may be missing; none if it is there and cannot be read. -/
def optional? {α : Type} (read? : String → Option α) : Option String → Option (Option α)
  | none => some none
  | some s => (read? s).map some

/-- Reads the values of the arguments; none if one of them cannot be read. -/
def Arguments.values? (a : Arguments) : Option Values := do
  let natural? (s : String) := Text.readNat? 10 Settings.limit s.toList
  let integer? (s : String) := (Text.readInt? 2147483648 s.toList).map Int32.ofInt
  let d : Replay.Options := {}
  let loadAddress ← optional? readWord? a.loadAddress
  let chunkWords ← optional? natural? a.chunkWords
  let timeoutMs ← optional? natural? a.timeoutMs
  let callbackId ← optional? integer? a.callbackId
  let options := {
    loadAddress := loadAddress.getD d.loadAddress
    chunkWords
    callbackId := callbackId.getD d.callbackId }
  return { options, timeoutMs }

/-! ## Running -/

/-- How the program ends. -/
inductive Exit where
  | printed (lines : List String)
  /-- It fails with a text and the texts of what caused it. -/
  | failed (chain : List String)
  /-- The arguments cannot be used. -/
  | usage
  deriving DecidableEq, Repr

/-- The lines that a report is printed in. -/
def lines (r : Replay.Report) : List String :=
  r.outcomes.map (fun o => s!"outcome: {o.text}") ++
  r.callbacks ++
  r.events.map (fun e => s!"event: {e}") ++
  r.commands.map (fun (op, n) => s!"op 0x{Text.hex 2 op}: {n}") ++
  [s!"forwarded {r.forwarded} commands; status {r.status.name}", r.final]

/-- The text about a failure: what failed, and below it what caused it, numbered if there is more
than one cause. -/
def failureText : List String → String
  | [] => ""
  | [e] => e
  | [e, cause] => s!"{e}\n\nCaused by:\n    {cause}"
  | e :: causes =>
    let numbered := causes.mapIdx fun i cause =>
      String.ofList (List.replicate (5 - (toString i).length) ' ') ++ s!"{i}: {cause}"
    "\n".intercalate (e :: "" :: "Caused by:" :: numbered)

/-- What the program does, given the bytes of the files that can be opened and the variables of
the environment; nothing if the budget of steps is used up. A file of settings that is no text is
read as an empty one, which gives none. -/
def run (budget : Nat) (file : String → Option (List UInt8)) (lookup : String → Option String)
    (a : Arguments) : Option Exit :=
  match a.values? with
  | none => some .usage
  | some v =>
    let text (path : String) : Option String :=
      (file path).map fun bytes => (String.fromUTF8? ⟨bytes.toArray⟩).getD ""
    match Settings.load (a.config.map text) lookup with
    | .error e => some (.failed [e.message (a.config.getD "")])
    | .ok s =>
      let s := { s with timeoutMs := v.timeoutMs.getD s.timeoutMs }
      match file a.input with
      | none => some (.failed [s!"failed to read {a.input}"])
      | some bytes =>
        match Replay.words? bytes with
        | none => some (.failed [Replay.raggedMessage bytes.length])
        | some words =>
          (Replay.replay budget words s v.options).map fun
            | .ok r => .printed (lines r)
            | .error e => .failed e.chain

end DisplayList.CommandLine
