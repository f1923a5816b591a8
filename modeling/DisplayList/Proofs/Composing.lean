import DisplayList.Service

/-!
# What all processes have in common

All that can be asked of a front end is made of single actions and of a few operations, put together
by sequences and loops. A property that holds of the parts, and that sequences and loops keep, holds
of every request.

* `Composed`: such a property. Marking a list ended is a part of its own: what is written there
  depends on what was seen just before;
* **`Composed.drain`**, **`Composed.serve`**: it holds of the engine, and of every request;
* `Composed.serveAll`: and of all that a host does.
-/

namespace DisplayList

open Process

/-- A property of processes that sequences and loops keep, and that their parts have. -/
structure Composed (P : {α : Type} → Process α → Prop) : Prop where
  done : ∀ {α : Type} (a : α), P (.done a)
  bind : ∀ {α β : Type} {p : Process β} {f : β → Process α},
    P p → (∀ b, P (f b)) → P (p >>= f)
  iterate : ∀ {α σ : Type} {s : σ} {round : σ → Process (σ ⊕ α)},
    (∀ s, P (round s)) → P (iterate s round)
  tell : ∀ r, P (tell r)
  perform : ∀ a : Action, (∀ i b, a ≠ .change i (.setEnded b)) → P (perform a)
  endList : ∀ i, P (Operation.endList i)

namespace Composed

variable {P : {α : Type} → Process α → Prop} {α β : Type} {i : Nat}

theorem ite (_ : Composed P) {c : Prop} [Decidable c] {p q : Process α} (hp : P p) (hq : P q) :
    P (if c then p else q) := by
  split
  · exact hp
  · exact hq

section Operations

variable (h : Composed P)
include h

theorem look (i : Nat) : P (look i) :=
  h.perform _ (by simp)

theorem change {c : Change} (hc : ∀ b, c ≠ .setEnded b) : P (change i c) :=
  h.perform _ fun _ b he => by
    cases he
    exact hc b rfl

/-! ## Operations -/

theorem reset : P (Operation.reset i) :=
  h.bind (h.change (by simp)) fun _ => h.perform _ (by simp)

theorem start (p : Placement) : P (Operation.start i p) := by
  refine h.bind (h.change (by simp)) fun _ => h.bind (h.perform _ (by simp)) fun _ =>
    h.bind (h.perform _ (by simp)) fun _ => ?_
  cases p with
  | tail => exact h.change (by simp)
  | head => exact h.done _

theorem restart : P (Operation.restart i) :=
  h.bind (h.change (by simp)) fun _ => h.bind (h.change (by simp)) fun _ =>
    h.bind (h.change (by simp)) fun _ => h.perform _ (by simp)

theorem finish : P (Operation.finish i) :=
  h.bind (h.change (by simp)) fun _ => h.perform _ (by simp)

theorem stallMoved : P (Operation.stallMoved i) :=
  h.bind (h.perform _ (by simp)) fun _ => h.change (by simp)

theorem setStall (a : Address) : P (Operation.setStall i a) :=
  h.bind (h.change (by simp)) fun _ => h.ite h.stallMoved (h.done _)

theorem setStallWith (a : Address) (w : Window) : P (Operation.setStallWith i a w) :=
  h.bind (h.change (by simp)) fun _ => h.ite h.stallMoved (h.done _)

theorem jump (mode : Mode) (arg : UInt32) : P (Operation.jump i mode arg) :=
  h.bind (h.perform _ (by simp)) fun _ => h.change (by simp)

theorem call (mode : Mode) (arg : UInt32) : P (Operation.call i mode arg) :=
  h.bind (h.perform _ (by simp)) fun _ => h.change (by simp)

theorem ret : P (Operation.ret i) := by
  refine h.bind (h.change (c := .ret) (by simp)) fun r => ?_
  cases r with
  | none => exact h.done _
  | some offset => exact h.bind (h.perform _ (by simp)) fun _ => h.perform _ (by simp)

theorem signalCallback (list : Nat) (behavior signal : UInt32) :
    P (Operation.signalCallback i list behavior signal) :=
  h.bind (h.look _) fun _ => h.bind (h.perform _ (by simp)) fun _ => h.tell _

theorem finishCallback (list : Nat) (arg : UInt32) : P (Operation.finishCallback i list arg) :=
  h.bind (h.look _) fun _ => h.bind (h.perform _ (by simp)) fun _ => h.tell _

theorem access (a : Slot.Access) : P (Operation.access i a) := by
  refine h.iterate fun _ => h.bind (h.perform _ (by simp)) fun r => ?_
  cases r with
  | inr r => exact h.done _
  | inl address =>
    refine h.bind (h.tell _) fun _ => ?_
    split
    · exact h.done _
    · refine h.bind (h.perform _ (by simp)) fun r => ?_
      split <;> exact h.done _

/-! ## The pool -/

theorem isBusy (list stack : Address) (slots : List Nat) : P (Pool.isBusy list stack slots) := by
  induction slots with
  | nil => exact h.done _
  | cons i slots ih =>
    refine h.bind (h.look i) fun _ => h.ite ih ?_
    exact h.bind (h.look i) fun _ => h.ite (h.done _) ih

theorem firstFree (slots : List Nat) : P (Pool.firstFree slots) := by
  induction slots with
  | nil => exact h.done _
  | cons i slots ih => exact h.bind (h.look i) fun _ => h.ite (h.done _) ih

theorem submit (sub : Submission) (p : Placement) : P (Pool.submit sub p) := by
  refine h.bind (h.perform _ (by simp)) fun size => ?_
  refine h.bind (h.isBusy ..) fun busy => h.ite (h.done _) (h.bind (h.firstFree _) fun free => ?_)
  cases free with
  | none => exact h.done _
  | some i =>
    exact h.bind (h.change (by simp)) fun _ => h.bind (h.start p) fun _ => h.done _

theorem countActive (slots : List Nat) : P (Pool.countActive slots) := by
  induction slots with
  | nil => exact h.done _
  | cons i slots ih => exact h.bind (h.look i) fun _ => h.bind ih fun _ => h.done _

theorem resetEach (slots : List Nat) : P (Pool.resetEach slots) := by
  induction slots with
  | nil => exact h.done _
  | cons i slots ih => exact h.bind h.reset fun _ => ih

/-! ## The engine -/

theorem transfer (t : Transfer) (target : UInt32) : P (Engine.transfer i t target) := by
  cases t with
  | jump mode => exact h.bind (h.jump ..) fun _ => h.done _
  | call mode => exact h.bind (h.call ..) fun _ => h.done _
  | ret => exact h.bind h.ret fun _ => h.done _
  | pause => exact h.bind (h.change (by simp)) fun _ => h.done _

theorem conclude : P (Engine.conclude i) :=
  h.bind (h.endList i) fun _ => h.bind (h.change (by simp)) fun _ => h.bind (h.look i) fun _ =>
    h.done _

theorem stop (arg : UInt32) : P (Engine.stop i arg) := by
  have hend : P (Engine.conclude i >>= fun o => .done (.ok (some o)) :
      Process (Except Failure (Option Outcome))) := h.bind h.conclude fun _ => h.done _
  refine h.bind (h.access .previous) fun r => ?_
  split
  · exact hend
  · exact h.done _
  · split
    · split
      · exact h.transfer ..
      · exact hend
    · exact hend

theorem step (watched : Bool) (c : Command) : P (Engine.step watched i c) := by
  have hjump : ∀ arg (visible : Bool), P
      (if visible then .done (.ok none) else Operation.jump i .relativeOffset arg >>= fun _ =>
        .done (.ok none) : Process (Except Failure (Option Outcome))) := fun arg visible =>
    h.ite (h.done _) (h.bind (h.jump ..) fun _ => h.done _)
  cases c with
  | nop => exact h.done _
  | jump arg => exact h.bind (h.jump ..) fun _ => h.done _
  | branchHidden arg =>
    dsimp only [Engine.step]
    split
    · exact h.bind (h.perform _ (by simp)) (hjump arg)
    · exact hjump arg true
  | call arg => exact h.bind (h.call ..) fun _ => h.done _
  | ret => exact h.bind h.ret fun _ => h.done _
  | stop arg => exact h.stop arg
  | signal behavior signal =>
    dsimp only [Engine.step]
    refine h.ite (h.bind (h.look i) fun _ => ?_) (h.done _)
    exact h.bind (h.signalCallback ..) fun _ => h.done _
  | finish arg =>
    refine h.bind h.finish fun _ => h.bind (h.look i) fun _ => ?_
    exact h.bind (h.finishCallback ..) fun _ => h.done _
  | base arg =>
    exact h.bind (h.perform _ (by simp)) fun _ => h.bind (h.perform _ (by simp)) fun _ => h.done _
  | offset arg =>
    exact h.bind (h.perform _ (by simp)) fun _ => h.bind (h.perform _ (by simp)) fun _ => h.done _
  | origin =>
    refine h.bind (h.look i) fun _ => h.bind (h.perform _ (by simp)) fun _ => ?_
    exact h.bind (h.perform _ (by simp)) fun _ => h.done _
  | draw word =>
    exact h.bind (h.look i) fun _ => h.ite (h.bind (h.tell _) fun _ => h.done _) (h.done _)

theorem round (watched : Bool) : P (Engine.round watched i) := by
  refine h.bind (h.look i) fun _ => h.ite (h.done _) (h.bind (h.look i) fun _ => h.ite ?_ ?_)
  · refine h.bind (h.change (by simp)) fun _ => h.bind (h.perform _ (by simp)) fun woken =>
      h.ite (h.bind (h.look i) fun _ => h.ite (h.done _) ?_) (h.done _)
    exact h.bind (h.change (by simp)) fun _ => h.done _
  · refine h.bind (h.access .next) fun r => ?_
    cases r with
    | error e => exact h.done _
    | ok word =>
      refine h.bind (h.step watched _) fun r => ?_
      split <;> exact h.done _

theorem execute (watched : Bool) (i : Nat) : P (Engine.execute watched i) := by
  have hrun : P (DisplayList.Process.change i (.setStatus .drawing) >>= fun _ =>
      Process.iterate () fun _ => Engine.round watched i) :=
    h.bind (h.change (by simp)) fun _ => h.iterate fun _ => h.round watched
  refine h.bind (h.look i) fun _ => h.ite (h.done _) (h.bind (h.look i) fun _ => h.ite ?_ hrun)
  exact h.bind (h.change (by simp)) fun _ => hrun

/-- **The engine.** -/
theorem drain (watched : Bool) : P (Engine.drain watched) := by
  refine h.iterate fun outcomes => h.bind (h.perform _ (by simp)) fun next => ?_
  cases next with
  | none => exact h.done _
  | some i =>
    refine h.bind (h.look i) fun _ => h.ite (h.done _) (h.bind (h.look i) fun _ =>
      h.ite (h.done _) (h.bind (h.execute watched i) fun r => ?_))
    cases r with
    | error e => exact h.bind (h.perform _ (by simp)) fun _ => h.done _
    | ok outcome =>
      refine h.bind (h.look i) fun _ => h.ite (h.done _) ?_
      exact h.bind (h.perform _ (by simp)) fun _ => h.done _

/-! ## Requests -/

theorem thenUnit {p : Process Unit} (hp : P p) : P p.thenUnit :=
  h.bind hp fun _ => h.done _

theorem withCursor (plan : CursorPlan) {f : Cursor → Process Unit} (hf : ∀ c, P (f c)) :
    P (Request.withCursor plan f) := by
  unfold Request.withCursor
  split
  · exact h.done _
  · exact h.thenUnit (hf _)

/-- **Every request.** -/
theorem serve (r : Request) : P r.serve := by
  have hone : ∀ {a : Action} {f : a.Answer → Reply}, (∀ j b, a ≠ .change j (.setEnded b)) →
      P (Process.perform a >>= fun r => .done (f r)) := fun ha => h.bind (h.perform _ ha) fun _ =>
    h.done _
  cases r with
  | write a ws =>
    refine h.bind (h.perform _ (by simp)) fun r => ?_
    split <;> exact h.done _
  | submit sub p =>
    refine h.bind (h.submit sub p) fun r => ?_
    cases r with
    | ok i => exact hone (by simp)
    | error e => exact h.done _
  | poolSlot i => exact h.bind (h.perform _ (by simp)) fun _ => h.ite (hone (by simp)) (h.done _)
  | pool =>
    exact h.bind (h.perform _ (by simp)) fun _ => h.bind (h.countActive _) fun _ => h.done _
  | resetAll => exact h.thenUnit (h.bind (h.perform _ (by simp)) fun _ => h.resetEach _)
  | dequeue =>
    refine h.bind (h.perform _ (by simp)) fun next => ?_
    cases next with
    | none => exact h.done _
    | some i => exact hone (by simp)
  | route external | router | services =>
    exact h.bind (h.perform _ (by simp)) fun _ => hone (by simp)
  | run watched => exact h.bind (h.drain watched) fun _ => h.done _
  | execute i => exact h.bind (h.execute true i) fun _ => h.done _
  | reset i => exact h.thenUnit h.reset
  | jump i mode arg => exact h.thenUnit (h.jump mode arg)
  | call i mode arg => exact h.bind (h.call mode arg) fun _ => h.done _
  | ret i => exact h.thenUnit h.ret
  | setStall i a => exact h.thenUnit (h.setStall a)
  | setStallWith i a plan lo hi => exact h.withCursor plan fun c => h.setStallWith a _
  | useCursor i plan => exact h.withCursor plan fun c => h.change (by simp)
  | waitSignalled i longEnough =>
    refine h.bind (h.perform _ (by simp)) fun woken => h.ite ?_ ?_
    · exact h.bind (h.change (by simp)) fun _ => h.done _
    · refine h.bind (h.change (by simp)) fun _ => ?_
      by_cases hl : longEnough
      · simp only [hl, if_true]
        exact hone (by simp)
      · simp only [hl]
        exact h.done _
  | start i p => exact h.thenUnit (h.start p)
  | restart i => exact h.thenUnit h.restart
  | finish i => exact h.thenUnit h.finish
  | endList i => exact h.thenUnit (h.endList i)
  | signalCallback i list behavior payload => exact h.thenUnit (h.signalCallback ..)
  | finishCallback i list arg => exact h.thenUnit (h.finishCallback ..)
  | access i a => cases a <;> exact h.bind (h.access _) fun _ => h.done _
  | status i => exact h.bind (h.look i) fun _ => h.bind (h.look i) fun _ => hone (by simp)
  | _ => exact hone (by simp)

theorem serveAll (session : List (String × Request)) : P (Request.serveAll session) := by
  induction session with
  | nil => exact h.done _
  | cons x rest ih =>
    exact h.bind (h.serve x.2) fun _ => h.bind (h.perform _ (by simp)) fun _ => ih

end Operations

end Composed

end DisplayList
