import DisplayList.Text.Blank
import DisplayList.Text.Number
import DisplayList.Text.Quoted

/-!
# Settings

The settings have defaults, of which the environment or a JSON file may override any. However they
come about, there is at least one list slot. How the text of a file is taken apart is left open: a
reader makes of it the settings that it gives.
-/

namespace DisplayList

/-- The settings of a front end. -/
structure Settings where
  /-- The number of list slots. -/
  listCount : Nat := 64
  /-- How long the engine waits at a stall address, in milliseconds. -/
  timeoutMs : Nat := 100
  /-- Whether lists go to the external renderer. -/
  external : Bool := false
  deriving DecidableEq, Repr

namespace Settings

/-- Why there are no settings. -/
inductive Error where
  /-- A value cannot be used. -/
  | invalidValue (name value reason : String)
  /-- The file is no JSON text of the right form. -/
  | malformed
  /-- There is no such file. -/
  | unreadable
  deriving DecidableEq, Repr

/-- The text of an error about a file that is shown as `path`. -/
def Error.message (path : String) : Error → String
  | invalidValue name value reason => s!"invalid value {Text.quoted value} for {name}: {reason}"
  | malformed => s!"failed to parse config: {path}"
  | unreadable => s!"failed to open config: {path}"

/-- One more than the largest number that a setting can hold. -/
def limit : Nat := 18446744073709551616

/-- The settings that were given, each or not. -/
structure Given where
  listCount : Option Nat := none
  timeoutMs : Option Nat := none
  external : Option Bool := none
  deriving DecidableEq, Repr

/-- The defaults, overridden by what was given. -/
def Given.settings (g : Given) : Settings :=
  let d : Settings := {}
  { listCount := g.listCount.getD d.listCount
    timeoutMs := g.timeoutMs.getD d.timeoutMs
    external := g.external.getD d.external }

/-- Refuses settings without list slots. -/
def check (s : Settings) : Except Error Unit :=
  if s.listCount = 0 then
    .error (.invalidValue "list_count" (toString s.listCount) "at least one list slot is required")
  else
    .ok ()

/-- The settings that were given, checked. -/
def Given.checked (g : Given) : Except Error Settings :=
  g.settings.check.map fun _ => g.settings

/-! ## The environment -/

/-- The variable that sets the number of list slots. -/
def listCountVariable : String := "PSPGE_LIST_COUNT"

/-- The variable that sets how long the engine waits. -/
def timeoutVariable : String := "PSPGE_SYNC_TIMEOUT_MS"

/-- The variable that selects the external renderer. -/
def externalVariable : String := "PSPGE_EXTERNAL_BACKEND"

/-- Whether a text says yes, whatever the case of its ASCII letters. -/
def isYes (s : String) : Bool :=
  let word := (Text.trim s.toList).map Char.toLower
  word == ['1'] || word == "true".toList || word == "yes".toList || word == "on".toList

/-- Reads the number that a variable holds, if it is set. -/
def readVariable (lookup : String → Option String) (name reason : String) :
    Except Error (Option Nat) :=
  match lookup name with
  | none => .ok none
  | some raw =>
    match Text.readNat? 10 limit (Text.trim raw.toList) with
    | some n => .ok (some n)
    | none => .error (.invalidValue name raw reason)

/-- The settings given by variables. -/
def ofLookup (lookup : String → Option String) : Except Error Settings := do
  let listCount ← readVariable lookup listCountVariable "expected an unsigned integer"
  let timeoutMs ← readVariable lookup timeoutVariable "expected milliseconds"
  let external := (lookup externalVariable).map isYes
  Given.checked { listCount, timeoutMs, external }

/-! ## The file -/

/-- A setting that a file can give. -/
inductive Member where
  | listCount
  | timeoutMs
  | external
  deriving DecidableEq, Repr

/-- The name of a setting in a file. -/
def Member.name : Member → String
  | listCount => "list_count"
  | timeoutMs => "sync_timeout_ms"
  | external => "external_backend"

/-- What takes the text of a file apart into the settings that it gives, if it is of the right
form. -/
abbrev Reader := String → Option Given

/-- The settings given by the text of a file. -/
def ofText (read : Reader) (text : String) : Except Error Settings :=
  match read text with
  | some g => g.checked
  | none => .error .malformed

/-- The settings given by a file, or by the environment if no file is named. `file` holds, if a
file is named, its text or nothing if it cannot be opened. -/
def loadWith (read : Reader) (file : Option (Option String)) (lookup : String → Option String) :
    Except Error Settings :=
  match file with
  | none => ofLookup lookup
  | some none => .error .unreadable
  | some (some text) => ofText read text

end Settings

end DisplayList
