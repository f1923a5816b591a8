import DisplayList.Address
import DisplayList.Text.Hex

/-!
# Backends

A started list is handed to a backend. The builtin engine keeps a queue and runs the lists itself;
a renderer outside of it only hears what happens to them. A switch sits in front of both and routes
to the renderer while it is selected.
-/

namespace DisplayList

/-- Who runs the lists. -/
inductive Kind where
  | builtin
  | external
  deriving DecidableEq, Repr

namespace Kind

/-- The short name used in diagnostic texts. -/
def label : Kind → String
  | builtin => "Builtin"
  | external => "External"

/-- The address that callbacks report: the builtin engine counts the END word that will follow,
an external renderer has already done so. -/
def callbackPc : Kind → Address → Address
  | builtin, pc => pc + 4
  | external, pc => pc

end Kind

/-- Where a started list lands in the queue. -/
inductive Placement where
  | tail
  | head
  deriving DecidableEq, Repr

/-- The name of a placement in texts. -/
def Placement.label : Placement → String
  | tail => "Tail"
  | head => "Head"

/-- A renderer outside of the builtin engine. -/
inductive Renderer where
  /-- Sends what it hears over a channel. -/
  | channel
  /-- Notes all that it hears in the journal. -/
  | recorder (kind : Kind)
  /-- Ignores what it hears. -/
  | inert
  deriving DecidableEq, Repr

/-- What kind of backend a renderer passes for. -/
def Renderer.kind : Renderer → Kind
  | channel => .external
  | recorder k => k
  | inert => .external

/-- What stands behind the lists. -/
inductive Backend where
  /-- The builtin engine alone. -/
  | engine
  /-- A renderer alone. -/
  | renderer (r : Renderer)
  /-- A switch between the engine and a renderer, if there is one. -/
  | switch (external : Option Renderer)
  deriving DecidableEq, Repr

/-- What a backend is told about a list. -/
inductive Notice where
  /-- The list is about to be handed over. -/
  | announced (placement : Placement)
  | restarted
  | stallMoved
  | finished
  | reset
  /-- The list is handed over to be run. -/
  | submitted (placement : Placement)
  deriving DecidableEq, Repr

/-- What a renderer hears: a notice with the list it is about. -/
structure Event where
  notice : Notice
  /-- The number of the list. -/
  list : Nat
  /-- The stall address of the list at that time. -/
  stall : Address
  deriving DecidableEq, Repr

namespace Event

/-- Whether a channel carries the event: an announcement is left to the submission that follows. -/
def isCarried (e : Event) : Bool :=
  match e.notice with
  | .announced _ => false
  | _ => true

/-- The text of an event. -/
def text (e : Event) : String :=
  match e.notice with
  | .announced p => s!"announced list={e.list} placement={p.label}"
  | .restarted => s!"restarted list={e.list}"
  | .stallMoved => s!"stall list={e.list} addr=0x{Text.hex 8 e.stall.toNat}"
  | .finished => s!"finished list={e.list}"
  | .reset => s!"reset list={e.list}"
  | .submitted p => s!"started list={e.list} placement={p.label}"

end Event

end DisplayList
