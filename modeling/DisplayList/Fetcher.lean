import DisplayList.Failure
import DisplayList.Memory.Cursor

/-!
# The fetcher

A list fetches its words through a cursor, and finding a cursor is slow: straight-line code should
do it once. The fetcher follows every change of the instruction address and decides whether the
cursor at hand can be moved there, whether the cursor that a producer supplied for a window of
addresses covers it, or whether a fresh cursor has to be found before the next access.
-/

namespace DisplayList

/-- A cursor supplied by a producer, good for addresses from `start` up to `stop`. -/
structure Window where
  cursor : Cursor
  start : Address
  stop : Address
  deriving DecidableEq, Repr

/-- Whether the window is good for `a`. -/
def Window.covers (w : Window) (a : Address) : Bool :=
  w.start ≤ a && a < w.stop

/-- Where the next word comes from. -/
inductive Source where
  /-- Nothing was chosen yet. -/
  | unset
  /-- The window's cursor. -/
  | window
  /-- A cursor still to be found at this address. -/
  | pending (address : Address)
  /-- A cursor found earlier, or given. -/
  | own (cursor : Cursor)
  deriving DecidableEq, Repr

/-- The fetch state of a list. -/
structure Fetcher where
  source : Source := .unset
  window : Option Window := none
  /-- How many cursors were found since the slot was made. -/
  found : Nat := 0
  deriving DecidableEq, Repr

namespace Fetcher

/-- The number of words from `start` to `stop`, rounded toward zero. -/
def wordsBetween (start stop : Address) : Int :=
  ((stop.toNat : Int) - start.toNat).tdiv 4

/-- Forgets every cursor. -/
def clear (f : Fetcher) : Fetcher :=
  { f with source := .unset, window := none }

/-- Takes over a producer's cursor. A window in use until now is no longer the source. -/
def setWindow (f : Fetcher) (w : Window) : Fetcher :=
  { f with
    source := if f.source = .window then .unset else f.source
    window := some w }

/-- Makes `c` the source. -/
def useCursor (f : Fetcher) (c : Cursor) : Fetcher :=
  { f with source := .own c }

/-- Follows the instruction address where no window covers it: a cursor at hand is moved forward
on its own side of the start of main memory, and otherwise a cursor is to be found. -/
def leaveWindow (f : Fetcher) (old new : Address) : Fetcher :=
  let crosses := old < Region.ram.first && Region.ram.first ≤ new
  if old ≤ new && !crosses then
    match f.source with
    | .own c => { f with source := .own (c.advance (wordsBetween old new)) }
    | _ => { f with source := .pending new }
  else
    { f with source := .pending new }

/-- Follows a change of the instruction address from `old` to `new`. -/
def follow (f : Fetcher) (old new : Address) : Fetcher :=
  match f.window with
  | some w =>
    if w.covers new then
      let cursor := w.cursor.advance (wordsBetween w.cursor.address new)
      { f with source := .window, window := some { w with cursor } }
    else
      f.leaveWindow old new
  | none => f.leaveWindow old new

/-- The address at which a cursor has to be found before the next access, if any; `pc` where
nothing was chosen. -/
def wanted (f : Fetcher) (pc : Address) : Option Address :=
  match f.source, f.window with
  | .pending a, _ => some a
  | .unset, _ => some pc
  | .window, none => some pc
  | .window, some _ => none
  | .own _, _ => none

/-- Installs a cursor found at `a`. Refused if another address is wanted by now; dropped if none
is. -/
def install? (f : Fetcher) (pc a : Address) (c : Cursor) : Option Fetcher :=
  match f.wanted pc with
  | some b => if b = a then some { f with source := .own c, found := f.found + 1 } else none
  | none => some f

/-- The cursor that the next access uses. -/
def cursor? (f : Fetcher) : Option Cursor :=
  match f.source with
  | .own c => some c
  | .window => f.window.map Window.cursor
  | _ => none

/-- The fetcher with the cursor in use replaced by `c`. -/
def setCursor (f : Fetcher) (c : Cursor) : Fetcher :=
  match f.source with
  | .own _ => { f with source := .own c }
  | .window => { f with window := f.window.map fun w => { w with cursor := c } }
  | _ => f

end Fetcher

end DisplayList
