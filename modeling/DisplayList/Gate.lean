import DisplayList.Wake
import Mathlib.Logic.Function.Basic

/-!
# Threads at a wake-up

A wake-up is shared by threads, who post it, drop it and wait for it under one lock. A thread that
waits and finds none sleeps, which frees the lock. It is roused by a thread that has posted one, or
when its time is up, or for no reason at all; then it takes the lock again and looks once more.

The front end has all of a wait in one action, `Wake.take`. Here it is cut into the steps between
which other threads may act.
-/

namespace DisplayList

/-- What a thread that has the lock does next. -/
inductive Gate.Task where
  | post
  /-- Rouse one of the sleepers, if there is one. -/
  | rouse
  | clear
  /-- Look for the first time, and ask until when to wait. -/
  | enter (timeout : Nat)
  /-- Look again. -/
  | look (deadline : Option Nat)
  /-- Ask whether it is time to give up. -/
  | clock (deadline : Nat)
  | sleep (deadline : Option Nat)
  /-- Answer whether there was a wake-up. -/
  | leave (woken : Bool)
  deriving DecidableEq, Repr

/-- What a thread may come with. -/
def Gate.Task.IsCall : Task → Prop
  | post | clear | enter _ => True
  | _ => False

/-- Where a thread is. -/
inductive Gate.Stage where
  | away
  /-- It waits for the lock. -/
  | queued (task : Task)
  /-- It has the lock. -/
  | holding (task : Task)
  | asleep (deadline : Option Nat)
  deriving DecidableEq, Repr

/-- A wake-up and the threads that share it. -/
structure Gate (θ : Type) where
  wake : Wake := {}
  /-- Who has the lock. -/
  owner : Option θ := none
  stage : θ → Gate.Stage := fun _ => .away
  now : Nat := 0
  /-- The last moment that can be told; nobody gives up at a later one. -/
  horizon : Nat

/-- What a thread does while it has the lock. -/
inductive Gate.Deed (θ : Type) where
  | posted (x : θ)
  | cleared (x : θ)
  /-- A wait starts: it has the lock for the first time. -/
  | entered (x : θ)
  | looked (x : θ) (found : Bool)
  | slept (x : θ)
  /-- A wait returns. -/
  | left (x : θ) (woken : Bool)
  deriving DecidableEq, Repr

namespace Gate

variable {θ : Type} [DecidableEq θ]

/-- The gate with the thread `x` somewhere else. -/
def put (g : Gate θ) (x : θ) (s : Stage) : Gate θ :=
  { g with stage := Function.update g.stage x s }

/-- The thread `x` goes somewhere else and gives the lock back. -/
def release (g : Gate θ) (x : θ) (s : Stage) : Gate θ :=
  { g.put x s with owner := none }

@[simp] theorem stage_put (g : Gate θ) (x : θ) (s : Stage) : (g.put x s).stage x = s :=
  Function.update_self ..

theorem stage_put_of_ne {x y : θ} (h : y ≠ x) (g : Gate θ) (s : Stage) :
    (g.put x s).stage y = g.stage y :=
  Function.update_of_ne h ..

@[simp] theorem wake_put (g : Gate θ) (x : θ) (s : Stage) : (g.put x s).wake = g.wake := rfl

/-- Until when a wait of that length lasts; for ever if that cannot be told. -/
def deadline? (g : Gate θ) (timeout : Nat) : Option Nat :=
  if g.now + timeout ≤ g.horizon then some (g.now + timeout) else none

/-- What comes after the first look. -/
def afterEntry (g : Gate θ) (timeout : Nat) : Task :=
  if g.wake.pending then .leave true
  else
    match g.deadline? timeout with
    | some deadline => .clock deadline
    | none => .look none

/-- What comes after a later look. -/
def afterLook (g : Gate θ) : Option Nat → Task
  | some deadline => if g.wake.pending then .leave true else .clock deadline
  | none => if g.wake.pending then .leave true else .sleep none

/-- What shows of a thread that gets the lock. -/
def onLock (x : θ) : Task → Option (Deed θ)
  | .enter _ => some (.entered x)
  | _ => none

/-- One step of a thread, or of the time. -/
inductive Step : Gate θ → Option (Deed θ) → Gate θ → Prop
  | call {g : Gate θ} {x : θ} {task : Task} (hx : g.stage x = .away) (ht : task.IsCall) :
    Step g none (g.put x (.queued task))
  | lock {g : Gate θ} {x : θ} {task : Task} (hx : g.stage x = .queued task)
    (hfree : g.owner = none) :
    Step g (onLock x task) { g.put x (.holding task) with owner := some x }
  | post {g : Gate θ} {x : θ} (hx : g.stage x = .holding .post) :
    Step g (some (.posted x)) { g.put x (.holding .rouse) with wake := g.wake.post }
  | rouse {g : Gate θ} {x y : θ} {deadline : Option Nat} (hx : g.stage x = .holding .rouse)
    (hy : g.stage y = .asleep deadline) :
    Step g none ((g.put y (.queued (.look deadline))).release x .away)
  | rouseNobody {g : Gate θ} {x : θ} (hx : g.stage x = .holding .rouse)
    (hy : ∀ y deadline, g.stage y ≠ .asleep deadline) : Step g none (g.release x .away)
  | clear {g : Gate θ} {x : θ} (hx : g.stage x = .holding .clear) :
    Step g (some (.cleared x)) { g.release x .away with wake := g.wake.clear }
  | enter {g : Gate θ} {x : θ} {timeout : Nat} (hx : g.stage x = .holding (.enter timeout)) :
    Step g (some (.looked x g.wake.take.1))
      { g.put x (.holding (g.afterEntry timeout)) with wake := g.wake.take.2 }
  | look {g : Gate θ} {x : θ} {deadline : Option Nat} (hx : g.stage x = .holding (.look deadline)) :
    Step g (some (.looked x g.wake.take.1))
      { g.put x (.holding (g.afterLook deadline)) with wake := g.wake.take.2 }
  | early {g : Gate θ} {x : θ} {deadline : Nat} (hx : g.stage x = .holding (.clock deadline))
    (ht : g.now < deadline) : Step g none (g.put x (.holding (.sleep (some deadline))))
  | late {g : Gate θ} {x : θ} {deadline : Nat} (hx : g.stage x = .holding (.clock deadline))
    (ht : deadline ≤ g.now) : Step g none (g.put x (.holding (.leave false)))
  | sleep {g : Gate θ} {x : θ} {deadline : Option Nat}
    (hx : g.stage x = .holding (.sleep deadline)) :
    Step g (some (.slept x)) (g.release x (.asleep deadline))
  /-- The time of a sleeper is up, or it wakes for no reason. -/
  | stir {g : Gate θ} {x : θ} {deadline : Option Nat} (hx : g.stage x = .asleep deadline) :
    Step g none (g.put x (.queued (.look deadline)))
  | leave {g : Gate θ} {x : θ} {woken : Bool} (hx : g.stage x = .holding (.leave woken)) :
    Step g (some (.left x woken)) (g.release x .away)
  | tick {g : Gate θ} (n : Nat) : Step g none { g with now := g.now + n }

/-- `Runs t g`: from a gate at which nobody is and no wake-up is pending, the threads come to `g`
and do `t` on their way. -/
inductive Runs : List (Deed θ) → Gate θ → Prop
  | start (horizon : Nat) : Runs [] { horizon }
  | snoc {t : List (Deed θ)} {g g' : Gate θ} {e : Option (Deed θ)} :
    Runs t g → Step g e g' → Runs (t ++ e.toList) g'

end Gate

end DisplayList
