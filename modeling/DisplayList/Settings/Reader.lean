import DisplayList.Settings
import DisplayList.Text.Json

/-!
# A reader of settings

The settings that a JSON text gives: an object names them, an array has them in their order, and
anything else gives none.
-/

namespace DisplayList.Settings

/-- The number that a JSON value holds, if it is a whole number in range. -/
def number? : Json → Option Nat
  | .number lexeme => (Text.digits? 10 lexeme).filter (· < limit)
  | _ => none

/-- The truth value that a JSON value holds. -/
def bool? : Json → Option Bool
  | .bool b => some b
  | _ => none

/-- Every setting, in the order in which an array gives them. -/
def Member.all : List Member :=
  [listCount, timeoutMs, external]

/-- The setting of the given name. -/
def Member.named? (name : List Nat) : Option Member :=
  all.find? fun m => m.name.toList.map Char.toNat == name

/-- Gives one setting; none if the value is of the wrong form or the setting was given before. -/
def Given.set? (g : Given) (m : Member) (v : Json) : Option Given :=
  match m with
  | .listCount =>
    if g.listCount.isSome then none else (number? v).map fun n => { g with listCount := some n }
  | .timeoutMs =>
    if g.timeoutMs.isSome then none else (number? v).map fun n => { g with timeoutMs := some n }
  | .external =>
    if g.external.isSome then none else (bool? v).map fun b => { g with external := some b }

/-- Gives the settings that the members of an object name; others are ignored. -/
def Given.ofMembers? (g : Given) : List (List Nat × Json) → Option Given
  | [] => some g
  | (name, v) :: rest =>
    match Json.scalars? name with
    | none => none
    | some name =>
      match Member.named? name with
      | none => g.ofMembers? rest
      | some m => (g.set? m v).bind (·.ofMembers? rest)

/-- Gives settings by their position in an array. -/
def Given.ofItems? (g : Given) : List Member → List Json → Option Given
  | _, [] => some g
  | [], _ :: _ => none
  | m :: ms, v :: vs => (g.set? m v).bind (·.ofItems? ms vs)

/-- The settings that a JSON value gives. -/
def Given.ofJson? : Json → Option Given
  | .object members => Given.ofMembers? {} members
  | .array items => Given.ofItems? {} Member.all items
  | _ => none

/-- The settings that a JSON text gives. -/
def Given.ofText? : Reader := fun text =>
  (Json.parse? text.toList).bind Given.ofJson?

/-- The settings given by a JSON file, or by the environment if no file is named. -/
def load : Option (Option String) → (String → Option String) → Except Error Settings :=
  loadWith Given.ofText?

end DisplayList.Settings
