import DisplayList.Engine
import DisplayList.Proofs.Residual

/-!
# The engine, cut up

What the engine does with a list taken from its queue, cut where it can be interrupted: every piece
is what is still to be done from some place on.

* `Engine.turn`, `Engine.serve`, `Engine.runUnlessDone`, `Engine.enterUnlessReset`,
  `Engine.enter`: before the first word; `Engine.running`, `Engine.leave`: the rounds, and the end;
  **`drain_eq`**;
* `Engine.unpaused`, `Engine.atStall`, `Engine.waited`, `Engine.letOn`, `Engine.dispatch`: the
  pieces of a round; **`round_eq`**, `unpaused_eq`, `waited_eq`;
* `Engine.stopWith`: an END word, once the word before it is known;
* **`leads_step`**, `leads_conclude`, `leads_stopWith`, `keeps_dispatch_ne`: what a step comes to.
-/

namespace DisplayList.Engine

open Process

/-! ## A list taken from the queue -/

/-- What a round of the queue comes to: the outcomes so far, or the answer. -/
abbrev Served := List (Nat × Outcome) ⊕ Except Failure (List (Nat × Outcome))

/-- Leaves a list whose run is over; one that has not ended is put back. -/
def leave (i : Nat) (outcomes : List (Nat × Outcome)) : Except Failure Outcome → Process Served
  | .error e => do
    perform (.enqueue i .head)
    return .inr (.error e)
  | .ok outcome => do
    let outcomes := outcomes ++ [((← look i).id, outcome)]
    if outcome.isEnded then
      return .inl outcomes
    else
      perform (.enqueue i .head)
      return .inr (.ok outcomes)

/-- Runs a list unless it is done. -/
def runUnlessDone (watched : Bool) (i : Nat) (outcomes : List (Nat × Outcome)) :
    Process Served := do
  if (← look i).isDone then
    return .inl outcomes
  else
    leave i outcomes (← execute watched i)

/-- Runs a list taken from the queue, unless it was reset or is done. -/
def serve (watched : Bool) (i : Nat) (outcomes : List (Nat × Outcome)) : Process Served := do
  if (← look i).flags.reset then
    return .inl outcomes
  else
    runUnlessDone watched i outcomes

/-- Takes the first list from the queue and runs it. -/
def turn (watched : Bool) (outcomes : List (Nat × Outcome)) : Process Served :=
  perform .dequeue >>= fun
    | none => pure (.inr (.ok outcomes))
    | some i => serve watched i outcomes

theorem drain_eq (watched : Bool) : drain watched = iterate [] (turn watched) :=
  rfl

/-- The rounds of a run still to come, and what is done after them. -/
def running (watched : Bool) (i : Nat) (outcomes : List (Nat × Outcome)) : Process Served :=
  .loop (fun _ => round watched i) () (leave i outcomes)

theorem running_eq (watched : Bool) (i : Nat) (outcomes : List (Nat × Outcome)) :
    running watched i outcomes = (iterate () fun _ => round watched i).bind (leave i outcomes) :=
  rfl

/-- The first status of a list that runs, and the rounds. -/
def enter (watched : Bool) (i : Nat) (outcomes : List (Nat × Outcome)) : Process Served :=
  change i (.setStatus .drawing) >>= fun _ => running watched i outcomes

/-- What a run does once it has looked at the reset flag. -/
def enterUnlessReset (watched : Bool) (i : Nat) (outcomes : List (Nat × Outcome)) (s : Slot) :
    Process Served :=
  if s.flags.reset then leave i outcomes (.error (.wasReset s.id))
  else look i >>= fun s =>
    if s.flags.restarted then change i (.setRestarted false) >>= fun _ => enter watched i outcomes
    else enter watched i outcomes

theorem runUnlessDone_eq (watched : Bool) (i : Nat) (outcomes : List (Nat × Outcome)) :
    runUnlessDone watched i outcomes = look i >>= fun s =>
      if s.isDone then .done (.inl outcomes)
      else look i >>= enterUnlessReset watched i outcomes := by
  have hrun : (execute watched i).bind (leave i outcomes) =
      look i >>= enterUnlessReset watched i outcomes := by
    change (look i >>= fun s => Process.bind (if s.flags.reset then _ else _) _) = _
    congr 1
    funext s
    unfold enterUnlessReset
    split
    · rfl
    · change (look i >>= fun s => Process.bind (if s.flags.restarted then _ else _) _) = _
      congr 1
      funext s
      split
      · rfl
      · rfl
  unfold runUnlessDone
  congr 1
  funext s
  split
  · rfl
  · exact hrun

/-! ## A round -/

/-- What a round makes of the result of a step. -/
def settle : Except Failure (Option Outcome) → Process (Unit ⊕ Except Failure Outcome)
  | .error e => .done (.inr (.error e))
  | .ok none => .done (.inl ())
  | .ok (some outcome) => .done (.inr (.ok outcome))

/-- What comes after a step. -/
def goOn (watched : Bool) (i : Nat) (outcomes : List (Nat × Outcome))
    (r : Except Failure (Option Outcome)) : Process Served :=
  (settle r).bind (resume (fun _ => round watched i) (leave i outcomes))

/-- What comes after a round. -/
def nextRound (watched : Bool) (i : Nat) (outcomes : List (Nat × Outcome)) :
    Unit ⊕ Except Failure Outcome → Process Served :=
  resume (fun _ => round watched i) (leave i outcomes)

/-- What a round does with the word fetched. -/
def dispatch (watched : Bool) (i : Nat) :
    Except Failure UInt32 → Process (Unit ⊕ Except Failure Outcome)
  | .error e => .done (.inr (.error e))
  | .ok word => (step watched i (Command.decode word)).bind settle

/-- What a round does after the wait at the stall address. -/
def waited (i : Nat) (woken : Bool) : Process (Unit ⊕ Except Failure Outcome) := do
  if woken then
    unless (← look i).isStalled do
      change i (.setStatus .drawing)
    return .inl ()
  else
    return .inr (.ok .stalled)

/-- What a round does once it has found the list at its stall address. -/
def atStall (i : Nat) : Process (Unit ⊕ Except Failure Outcome) :=
  change i (.setStatus .stallReached) >>= fun _ => perform (.await i) >>= waited i

/-- What a round does once the wait is over and the list may go on. -/
def letOn (i : Nat) : Process (Unit ⊕ Except Failure Outcome) :=
  change i (.setStatus .drawing) >>= fun _ => pure (.inl ())

/-- What a round does with a list that is not paused. -/
def unpaused (watched : Bool) (i : Nat) : Process (Unit ⊕ Except Failure Outcome) := do
  if (← look i).isStalled then
    change i (.setStatus .stallReached)
    waited i (← perform (.await i))
  else
    (Operation.access i .next).bind (dispatch watched i)

theorem round_eq (watched : Bool) (i : Nat) : round watched i = look i >>= fun s =>
    if s.flags.paused then .done (.inr (.ok .paused)) else unpaused watched i :=
  rfl

theorem unpaused_eq (watched : Bool) (i : Nat) : unpaused watched i = look i >>= fun s =>
    if s.isStalled then atStall i else (Operation.access i .next).bind (dispatch watched i) :=
  rfl

theorem waited_eq (i : Nat) : waited i true = look i >>= fun s =>
    if s.isStalled then pure (.inl ()) else letOn i :=
  rfl

/-! ## The end of a list -/

/-- What comes after the end of a list. -/
def ended : Outcome → Process (Except Failure (Option Outcome)) :=
  fun outcome => .done (.ok (some outcome))

/-- What an END word does once the word before it is known. -/
def stopWith (i : Nat) (arg : UInt32) :
    Except Failure UInt32 → Process (Except Failure (Option Outcome))
  | .error (.memory _) => (conclude i).bind ended
  | .error e => .done (.error e)
  | .ok word =>
    match Command.decode word with
    | .signal behavior signal =>
      match Signal.transfer? behavior with
      | some t => transfer i t (Signal.target signal arg)
      | none => (conclude i).bind ended
    | _ => (conclude i).bind ended

theorem stop_eq (i : Nat) (arg : UInt32) :
    stop i arg = (Operation.access i .previous).bind (stopWith i arg) := by
  rfl

/-! ## What a step comes to -/

variable {i : Nat}

/-- A step after which the run goes on, fails or is paused. -/
def Continues : Except Failure (Option Outcome) → Prop
  | .ok (some outcome) => outcome = .paused
  | _ => True

theorem continues_map (r : Except Failure Unit) :
    Continues (r.map fun _ => (none : Option Outcome)) := by
  cases r with
  | error e => trivial
  | ok u => trivial

theorem leads_transfer_of {S : Except Failure (Option Outcome) → Prop} {t : Transfer}
    (hok : S (.ok none)) (hpaused : S (.ok (some .paused)))
    (hcall : ∀ mode, t = .call mode → ∀ r : Except Failure Unit, S (r.map fun _ => none))
    (target : UInt32) : Leads S (transfer i t target) := by
  cases t with
  | jump mode => exact fun _ _ => hok
  | call mode => exact fun _ r => hcall mode rfl r
  | ret =>
    intro r
    cases r with
    | none => exact hok
    | some offset => exact fun _ _ => hok
  | pause => exact fun _ => hpaused

theorem leads_transfer (t : Transfer) (target : UInt32) :
    Leads Continues (transfer i t target) :=
  leads_transfer_of (S := Continues) trivial rfl (fun _ _ => continues_map) target

theorem leads_step_of {S : Except Failure (Option Outcome) → Prop} (watched : Bool) {c : Command}
    (hc : ∀ arg, c ≠ .stop arg) (hok : S (.ok none))
    (hcall : ∀ arg, c = .call arg → ∀ r : Except Failure Unit, S (r.map fun _ => none)) :
    Leads S (step watched i c) := by
  have hjump : ∀ (visible : Bool) (arg : UInt32), Leads S
      (if visible then pure (.ok none) else Operation.jump i .relativeOffset arg >>= fun _ =>
        pure (.ok none) : Process (Except Failure (Option Outcome))) := by
    intro visible arg
    split
    · exact hok
    · exact fun _ _ => hok
  cases c with
  | nop => exact hok
  | jump arg => exact fun _ _ => hok
  | branchHidden arg =>
    dsimp only [step]
    split
    · exact fun visible => hjump visible arg
    · exact hjump true arg
  | call arg => exact fun _ r => hcall arg rfl r
  | ret =>
    intro r
    cases r with
    | none => exact hok
    | some offset => exact fun _ _ => hok
  | stop arg => exact absurd rfl (hc arg)
  | signal behavior signal =>
    dsimp only [step]
    split
    · exact fun _ _ _ => hok
    · exact hok
  | finish arg => exact fun _ _ _ _ _ => hok
  | base arg => exact fun _ _ => hok
  | offset arg => exact fun _ _ => hok
  | origin => exact fun _ _ _ => hok
  | draw word =>
    intro s
    change Leads S (if watched then _ else _)
    split
    · exact hok
    · exact hok

/-- **After a word other than END** the run goes on, fails or is paused. -/
theorem leads_step (watched : Bool) {c : Command} (hc : ∀ arg, c ≠ .stop arg) :
    Leads Continues (step watched i c) :=
  leads_step_of (S := Continues) watched hc trivial fun _ _ => continues_map

theorem leads_conclude : Leads (fun outcome => outcome.isEnded = true) (conclude i) :=
  fun _ _ _ _ => rfl

theorem leads_stopWith (arg : UInt32) (r : Except Failure UInt32) :
    Leads (fun o => o ≠ .ok (some .stalled)) (stopWith i arg r) := by
  have hend : Leads (fun o => o ≠ .ok (some .stalled)) ((conclude i).bind ended) := by
    intro _ _ _ _ he
    cases he
  unfold stopWith
  split
  · exact hend
  · intro he
    cases he
  · split
    · split
      · refine (leads_transfer _ _).mono fun o ho he => ?_
        rw [he] at ho
        cases ho
      · exact hend
    · exact hend

/-! ### A word does not stall the list -/

variable {others : FrontEnd → FrontEnd → Prop} {P : Assertion}

theorem keeps_step_ne (watched : Bool) (c : Command) : Keeps others P (step watched i c)
    (fun _ => True) fun o _ _ => o ≠ .ok (some .stalled) := by
  by_cases hc : ∃ arg, c = .stop arg
  · obtain ⟨arg, rfl⟩ := hc
    change Keeps others P (stop i arg) _ _
    rw [stop_eq]
    have hread : Keeps others P (Operation.access i .previous) (fun _ => True) fun _ _ _ => True :=
      fun _ _ _ _ _ _ _ => ⟨trivial, fun _ _ => trivial⟩
    exact keeps_bind hread fun r => (leads_stopWith arg r).keeps
  · have hcontinues : Keeps others P (step watched i c) (fun _ => True) fun o _ _ => Continues o :=
      (leads_step watched fun arg he => hc ⟨arg, he⟩).keeps
    refine hcontinues.post fun o t u ho he => ?_
    rw [he] at ho
    cases ho

/-- **Only a wait stalls a list**: a word does not, whatever others do. -/
theorem keeps_dispatch_ne (watched : Bool) (r : Except Failure UInt32) :
    Keeps others P (dispatch watched i r) (fun _ => True) fun x _ _ => x ≠ .inr (.ok .stalled) := by
  have hdone : ∀ {M : Assertion} (x : Unit ⊕ Except Failure Outcome),
      (∀ t u, M t u → x ≠ .inr (.ok .stalled)) →
      Keeps others M (.done x) (fun _ => True) fun x _ _ => x ≠ .inr (.ok .stalled) :=
    fun x hx => keeps_done (fun _ _ _ => trivial) fun t w _ hw _ => hx t w hw
  cases r with
  | error e => exact hdone _ fun _ _ _ => nofun
  | ok word =>
    refine keeps_bind (keeps_step_ne watched _) fun o => ?_
    match o with
    | .error e => exact hdone _ fun _ _ _ => nofun
    | .ok none => exact hdone _ fun _ _ _ => nofun
    | .ok (some outcome) =>
      refine hdone _ fun _ _ ho he => ho ?_
      cases he
      rfl

end DisplayList.Engine
