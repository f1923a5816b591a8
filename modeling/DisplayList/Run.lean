import DisplayList.Service

/-!
# Running processes

`Process.next` is one step of a process. A process runs alone (`Process.run`), or beside a producer
that moves a stall address whenever the process waits for it (`Process.runBeside`). A run is given
a budget of steps, and gives nothing if that is used up.
-/

namespace DisplayList.Process

variable {α : Type}

/-- One step: an action, a report together with the host's first look at it, or the start of the
next round of a loop. A process that is done stays so. -/
def next : Process α → FrontEnd → Process α × FrontEnd
  | .done a, w => (.done a, w)
  | .act a k, w =>
    let (r, w) := a.perform w
    (k r, w)
  | .report r k, w =>
    let (reaction, w) := w.tell r
    ((Request.serveAll reaction).bind fun _ => k, w)
  | .loop round s k, w =>
    ((round s).bind fun
      | .inl s => .loop round s k
      | .inr b => k b, w)

/-- Runs a process for at most `budget` steps. -/
def run : (budget : Nat) → Process α → FrontEnd → Option (α × FrontEnd)
  | 0, _, _ => none
  | _ + 1, .done a, w => some (a, w)
  | n + 1, p, w =>
    let (p, w) := p.next w
    p.run n w

/-- Whether a process is about to give up waiting for a list. -/
def isStuck (w : FrontEnd) : Process α → Bool
  | .act (.await i) _ => !(w.slot i).wake.pending
  | _ => false

/-- Runs a process for at most `budget` steps beside a producer, who moves the stall address of the
list at position `i` to each of `stalls` in turn, as soon as the list is seen to have stalled and
the process waits. -/
def runBeside (i : Nat) : (budget : Nat) → (stalls : List Address) → Process α → FrontEnd →
    Option (α × FrontEnd)
  | 0, _, _, _ => none
  | _ + 1, _, .done a, w => some (a, w)
  | n + 1, stalls, p, w =>
    match stalls with
    | [] =>
      let (p, w) := p.next w
      p.runBeside i n [] w
    | a :: rest =>
      if p.isStuck w && (w.slot i).reported = .stallReached then
        ((Operation.setStall i a).bind fun _ => p).runBeside i n rest w
      else
        let (p, w) := p.next w
        p.runBeside i n (a :: rest) w

end DisplayList.Process
