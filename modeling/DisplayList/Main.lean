import DisplayList.CommandLine

/-!
# The replay program

Reads the arguments, the files they name and the environment, replays the list, and prints what
came of it.
-/

namespace DisplayList.Main

/-- The bytes of a file, if it can be read. -/
def readFile? (path : String) : IO (Option (List UInt8)) := do
  try
    return some (← IO.FS.readBinFile path).toList
  catch _ =>
    return none

/-- The variables that give settings, as far as they are set. -/
def readVariables : IO (List (String × String)) := do
  let names := [Settings.listCountVariable, Settings.timeoutVariable, Settings.externalVariable]
  let values ← names.mapM fun name => return (name, ← IO.getEnv name)
  return values.filterMap fun (name, value) => value.map (name, ·)

/-- How the program is called. -/
def usage : String :=
  "usage: --input FILE [--load-addr ADDRESS] [--chunk-words N] [--config FILE] " ++
  "[--timeout-ms N] [--cbid N]"

/-- More steps than any run takes. -/
def budget : Nat := 9223372036854775807

/-- Runs the program; gives its exit code. -/
def run (args : List String) : IO UInt32 := do
  match CommandLine.Arguments.ofList? args with
  | none =>
    IO.eprintln usage
    return 2
  | some a =>
    let paths := a.input :: a.config.toList
    let files ← paths.mapM fun path => return (path, ← readFile? path)
    let environment ← readVariables
    let file (path : String) := (files.lookup path).bind id
    match CommandLine.run budget file (fun name => environment.lookup name) a with
    | some (.printed lines) =>
      lines.forM fun line => IO.println line
      return 0
    | some (.failed chain) =>
      IO.eprintln s!"Error: {CommandLine.failureText chain}"
      return 1
    | some .usage =>
      IO.eprintln "an argument has an unusable value"
      return 2
    | none =>
      IO.eprintln "the run does not end"
      return 3

end DisplayList.Main

def main (args : List String) : IO UInt32 :=
  DisplayList.Main.run args
