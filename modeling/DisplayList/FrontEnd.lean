import DisplayList.Host

/-!
# The front end

All that the lists, the engine, the backends and the host share. Each function here is one step
that nothing can come between.
-/

namespace DisplayList

/-- The state of a front end. -/
structure FrontEnd where
  memory : Memory := .empty
  /-- The list slots: those of the pool, and after them any others. -/
  slots : Array Slot
  /-- How many of the slots belong to the pool. -/
  poolSize : Nat
  /-- The positions of the lists queued on the engine. -/
  queue : List Nat := []
  registers : Registers := {}
  backend : Backend := .engine
  /-- Whether the switch routes to the external renderer. -/
  external : Bool := false
  /-- Whether somebody takes the events from the channel. -/
  listening : Bool := true
  /-- The events sent over the channel and not yet taken. -/
  events : Array Event := #[]
  host : Host := {}
  journal : Array Entry := #[]
  /-- Whether the producer has handed over its last word. -/
  closed : Bool := false

namespace FrontEnd

/-- The slot at position `i`. -/
def slot (w : FrontEnd) (i : Nat) : Slot :=
  w.slots.getD i (Slot.new i)

/-- The front end with `s` in the slot at position `i`. -/
def setSlot (w : FrontEnd) (i : Nat) (s : Slot) : FrontEnd :=
  { w with slots := w.slots.setIfInBounds i s }

/-! ## The queue of the engine -/

/-- Queues a list; one that is queued already moves. -/
def enqueue (w : FrontEnd) (i : Nat) (p : Placement) : FrontEnd :=
  let rest := w.queue.filter (· != i)
  { w with
    queue := match p with
      | .tail => rest ++ [i]
      | .head => i :: rest }

/-- Takes the first list from the queue. -/
def dequeue (w : FrontEnd) : Option Nat × FrontEnd :=
  (w.queue.head?, { w with queue := w.queue.tail })

/-- Drops a list from the queue; tells whether it was there. -/
def withdraw (w : FrontEnd) (i : Nat) : Bool × FrontEnd :=
  (w.queue.contains i, { w with queue := w.queue.filter (· != i) })

/-- The ids of the queued lists, first one first. -/
def queuedIds (w : FrontEnd) : List Nat :=
  w.queue.map fun i => (w.slot i).id

/-! ## Backends -/

/-- The renderer to which the switch routes, if it does. -/
def selected? (w : FrontEnd) : Option Renderer :=
  match w.backend with
  | .engine => none
  | .renderer r => some r
  | .switch r => if w.external then r else none

/-- Who runs the lists started now. -/
def kind (w : FrontEnd) : Kind :=
  w.selected?.elim .builtin Renderer.kind

/-- Selects the external renderer, if there is one; tells whether it is selected now. -/
def route (w : FrontEnd) (external : Bool) : Bool × FrontEnd :=
  let external := external && match w.backend with
    | .switch r => r.isSome
    | _ => false
  (external, { w with external })

/-- The engine hears of a list. -/
def tellEngine (w : FrontEnd) (i : Nat) : Notice → FrontEnd
  | .reset => (w.withdraw i).2
  | .submitted p => w.enqueue i p
  | _ => w

/-- A renderer hears of a list. -/
def tellRenderer (w : FrontEnd) (r : Renderer) (i : Nat) (n : Notice) : FrontEnd :=
  let s := w.slot i
  let e : Event := { notice := n, list := s.id, stall := s.stall }
  match r with
  | .channel => if w.listening && e.isCarried then { w with events := w.events.push e } else w
  | .recorder _ => { w with journal := w.journal.push (.heard e) }
  | .inert => w

/-- The backend hears of a list. A reset reaches the engine behind a switch whichever way the
switch is set, so that a list queued before does not linger there. -/
def notify (w : FrontEnd) (i : Nat) (n : Notice) : FrontEnd :=
  match w.backend with
  | .engine => w.tellEngine i n
  | .renderer r => w.tellRenderer r i n
  | .switch _ =>
    match n, w.selected? with
    | .reset, some r => (w.tellEngine i .reset).tellRenderer r i .reset
    | .reset, none => w.tellEngine i .reset
    | n, some r => w.tellRenderer r i n
    | n, none => w.tellEngine i n

/-- The diagnostic text of the switch. -/
def routerText (w : FrontEnd) : String :=
  let present := match w.backend with
    | .switch r => r.isSome
    | _ => false
  s!"BackendDispatcher \x7b has_external: {present}, external_active: {w.external} \x7d"

/-- The diagnostic text of what serves the lists. -/
def servicesText (w : FrontEnd) : String :=
  s!"ListServices \x7b backend: {w.kind.label}, .. \x7d"

/-! ## The host -/

/-- Writes a line into the journal. -/
def note (w : FrontEnd) (e : Entry) : FrontEnd :=
  { w with journal := w.journal.push e }

/-- Tells the host something; gives what the host does about it. -/
def tell (w : FrontEnd) (r : Report) : Reaction × FrontEnd :=
  if w.host.hears r then
    let (reaction, host) := w.host.react r
    (reaction, { w with host }.note (.told r))
  else
    ([], w)

/-- Asks the host whether the last bounding box was visible. -/
def testVisible (w : FrontEnd) : Bool × FrontEnd :=
  let visible := w.host.visible.headD true
  let host := { w.host with visible := w.host.visible.tail }
  (visible, { w with host }.note (.tested visible))

end FrontEnd

end DisplayList
