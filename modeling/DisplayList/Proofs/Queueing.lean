import DisplayList.Proofs.Accounting
import DisplayList.Proofs.Hosting
import DisplayList.Proofs.Shown
import Mathlib.Data.List.Nodup

/-!
# Lists in the queue

A list leaves the queue of the engine while it runs, and comes back unless it ends. Meanwhile
whoever draws and whoever takes callbacks may reset it, use its slot again and queue it again.

* `Request.Calls`, `Calling`: the calls on a pool, and when the host makes them; **`yields_call`**:
  they keep the account;
* `yields_closing`: the engine tells the host of what it did last;
* `yields_step`, `yields_round`, **`yields_drain`**: the engine keeps the account;
* `Called`, **`queued_once`**: no list is lost, and none is queued twice.
-/

namespace DisplayList

/-! ## The calls -/

/-- A call on the pool, or on what it is run with, other than to run the queued lists. -/
def Request.Calls : Request → Prop
  | .submit .. | .reset _ | .resetAll | .setStall .. => True
  | .pause _ | .clearPaused _ | .restart _ => True
  | .write .. | .setRegisters _ => True
  | _ => False

/-- A change that the calls make to a slot, other than to make it ready. -/
def Change.Manages : Change → Prop
  | .reset | .moveStall _ | .moveStallWith .. => True
  | .setPaused _ | .setRestarted _ | .postWake => True
  | _ => False

/-- An action of the calls, other than to make a slot ready. -/
def Action.Manages : Action → Prop
  | .look _ | .poolSize | .write .. | .setRegisters _ | .notify .. => True
  | .change _ c => c.Manages
  | _ => False

theorem Action.Manages.leavesHost {a : Action} (h : a.Manages) : a.LeavesHost := by
  cases a with
  | setHost f => exact h
  | _ => trivial

/-- Whoever draws and whoever takes the callbacks may make calls; whoever finds cursors may not. -/
def Calling : Report → Request → Prop
  | .cursor .., _ => False
  | _, r => r.Calls

namespace Process

open FrontEnd

variable {may : Report → Request → Prop} {w : FrontEnd} {i : Nat} {away : List Nat}

theorem yields_isBusy (list stack : Address) (slots : List Nat) :
    Yields may (Pool.isBusy list stack slots) w fun _ v => v = w := by
  induction slots with
  | nil => exact yields_done rfl
  | cons i slots ih =>
    refine yields_perform ?_
    split
    · exact ih
    · refine yields_perform ?_
      split
      · exact yields_done rfl
      · exact ih

theorem yields_firstFree (slots : List Nat) :
    Yields may (Pool.firstFree slots) w fun _ v => v = w := by
  induction slots with
  | nil => exact yields_done rfl
  | cons i slots ih =>
    refine yields_perform ?_
    split
    · exact yields_done rfl
    · exact ih

theorem yields_start (h : w.Accounts (i :: away)) (p : Placement) :
    Yields may (Operation.start i p) w fun _ v => v.Accounts away := by
  refine yields_perform ?_
  have h₁ := h.change (i := i) (c := .setPaused false) fun s => Slot.stays_of_eq rfl rfl rfl rfl
  refine yields_perform ?_
  have h₂ := h₁.perform (a := .notify i (.announced p)) trivial fun j => .refl _
  refine yields_perform ?_
  have h₃ := h₂.enqueue p
  have hn : ((Action.notify i (.submitted p)).perform _).2 = _ :=
    notify_builtin h₂.selected (.submitted p)
  rw [hn]
  cases p with
  | tail =>
    exact yields_act (yields_done (h₃.change fun s => Slot.stays_of_eq rfl rfl rfl rfl))
  | head => exact yields_done h₃

theorem yields_submit (h : w.Accounts away) (sub : Submission) (p : Placement) :
    Yields may (Pool.submit sub p) w fun _ v => v.Accounts away := by
  refine yields_perform ?_
  refine yields_bind ((yields_isBusy _ _ _).mono fun busy v hv => ?_)
  obtain rfl : v = w := hv
  split
  · exact yields_done h
  · refine yields_bind ((yields_firstFree _).mono fun free u hu => ?_)
    obtain rfl : u = v := hu
    cases free with
    | none => exact yields_done h
    | some i =>
      refine yields_perform (yields_bind ?_)
      exact (yields_start (h.init sub) p).mono fun _ _ hv => yields_done hv

theorem yields_reset (h : w.Accounts away) (i : Nat) :
    Yields may (Operation.reset i) w fun _ v => v.Accounts away := by
  have h₁ : ((Action.change i .reset).perform w).2.Accounts (i :: away) :=
    h.change_away fun _ => Slot.atRest_reset _
  have hdone := isDone_change (i := i) (c := .reset) (fun _ => rfl) w
  refine yields_perform (yields_act (yields_done ?_))
  have hn : ((Action.notify i .reset).perform _).2 = _ := notify_builtin h₁.selected .reset
  rw [hn]
  exact (h₁.back (.inr hdone)).withdraw hdone

theorem yields_resetEach (h : w.Accounts away) (slots : List Nat) :
    Yields may (Pool.resetEach slots) w fun _ v => v.Accounts away := by
  induction slots generalizing w with
  | nil => exact yields_done h
  | cons i slots ih => exact yields_bind ((yields_reset h i).mono fun _ _ hv => ih hv)

theorem yields_change (h : w.Accounts away) {c : Change}
    (hc : ∀ s : Slot, s.Stays (c.perform s).2) :
    Yields may (change i c) w fun _ v => v.Accounts away :=
  yields_act (yields_done (h.change hc))

theorem yields_restart (h : w.Accounts away) (i : Nat) :
    Yields may (Operation.restart i) w fun _ v => v.Accounts away := by
  have h₁ := h.change (i := i) (c := .setPaused false) fun s => Slot.stays_of_eq rfl rfl rfl rfl
  have h₂ := h₁.change (i := i) (c := .setRestarted true) fun s => Slot.stays_of_eq rfl rfl rfl rfl
  have h₃ := h₂.change (i := i) (c := .postWake) fun s => Slot.stays_of_eq rfl rfl rfl rfl
  refine yields_perform (yields_perform (yields_perform (yields_act (yields_done ?_))))
  exact h₃.perform (a := .notify i .restarted) trivial fun j => .refl _

theorem yields_setStall (h : w.Accounts away) (i : Nat) (a : Address) :
    Yields may (Operation.setStall i a) w fun _ v => v.Accounts away := by
  have hc : ∀ s : Slot, s.Stays ((Change.moveStall a).perform s).2 := fun s => s.stays_moveStall a
  refine yields_bind ((yields_change h hc).mono fun moved v hv => ?_)
  split
  · refine yields_perform ?_
    have h₁ := hv.perform (a := .notify i .stallMoved) trivial fun j => .refl _
    exact yields_change h₁ fun s => Slot.stays_of_eq rfl rfl rfl rfl
  · exact yields_done hv

theorem yields_thenUnit {p : Process Unit} {I : FrontEnd → Prop}
    (h : Yields may p w fun _ => I) : Yields may p.thenUnit w fun _ => I :=
  yields_bind (h.mono fun _ _ hv => yields_done hv)

/-- **Every call keeps the account.** -/
theorem yields_call {r : Request} (hr : r.Calls) (h : w.Accounts away) :
    Yields may r.serve w fun _ v => v.Accounts away := by
  cases r with
  | write a ws =>
    have h₁ := h.perform (a := .write a ws) trivial fun j => .refl _
    refine yields_perform ?_
    split <;> exact yields_done h₁
  | submit sub p =>
    refine yields_bind ((yields_submit h sub p).mono fun r v hv => ?_)
    cases r with
    | ok i => exact yields_act (yields_done (hv.perform trivial fun j => .refl _))
    | error e => exact yields_done hv
  | resetAll => exact yields_thenUnit (yields_perform (yields_resetEach h _))
  | setRegisters r =>
    exact yields_thenUnit (yields_act (yields_done (h.perform trivial fun j => .refl _)))
  | reset i => exact yields_thenUnit (yields_reset h i)
  | setStall i a => exact yields_thenUnit (yields_setStall h i a)
  | pause i => exact yields_thenUnit (yields_change h fun s => Slot.stays_of_eq rfl rfl rfl rfl)
  | clearPaused i =>
    exact yields_thenUnit (yields_change h fun s => Slot.stays_of_eq rfl rfl rfl rfl)
  | restart i => exact yields_thenUnit (yields_restart h i)
  | _ => exact hr.elim

/-! ## The engine -/

theorem yields_reaction {m : Report} {reaction : Reaction} (hr : ∀ x ∈ reaction, Calling m x.2)
    (h : w.Accounts away) :
    Yields Calling (Request.serveAll reaction) w fun _ v => v.Accounts away := by
  refine yields_serveAll (fun x hx v hv => yields_call ?_ hv) (fun v name reply hv => ?_) h
  · have hx' := hr x hx
    cases m with
    | cursor => exact hx'.elim
    | _ => exact hx'
  · exact hv.congr rfl rfl fun j => .refl _

variable {α : Type} {p : Process α} {S : α → Prop}

/-- If the process tells anything, then as its last thing. -/
def Closing : {α : Type} → Process α → Prop
  | _, .done _ => True
  | _, .act _ k => ∀ r, Closing (k r)
  | _, .report _ k => ∃ a, k = .done a
  | _, .loop .. => False

theorem yields_closing (hp : Only (Action.Quiet i) p) (hc : Closing p) (hl : Leads S p)
    (h : w.Underway i) : Yields Calling p w fun a v => S a ∧ v.Accounts [i] := by
  induction p generalizing w with
  | done a => exact yields_done ⟨hl, h.accounts⟩
  | act a k ih => exact yields_act (ih _ (hp.2 _) (hc _) (hl _) (h.perform hp.1))
  | report m k _ =>
    obtain ⟨a, rfl⟩ := hc
    refine yields_report fun reaction hr => yields_bind ?_
    exact (yields_reaction hr (h.tell m).accounts).mono fun _ _ hv => yields_done ⟨hl, hv⟩
  | loop => exact hc.elim

theorem closing_transfer (t : Transfer) (target : UInt32) :
    Closing (Engine.transfer i t target) := by
  cases t with
  | ret =>
    intro r
    cases r with
    | none => trivial
    | some offset => exact fun _ _ => trivial
  | pause => exact fun _ => trivial
  | _ => exact fun _ _ => trivial

theorem closing_step (watched : Bool) {c : Command} (hc : ∀ arg, c ≠ .stop arg) :
    Closing (Engine.step watched i c) := by
  have hjump : ∀ (visible : Bool) (arg : UInt32), Closing
      (if visible then pure (.ok none) else Operation.jump i .relativeOffset arg >>= fun _ =>
        pure (.ok none) : Process (Except Failure (Option Outcome))) := by
    intro visible arg
    split
    · trivial
    · exact fun _ _ => trivial
  cases c with
  | nop => trivial
  | branchHidden arg =>
    dsimp only [Engine.step]
    split
    · exact fun visible => hjump visible arg
    · exact hjump true arg
  | ret =>
    intro r
    cases r with
    | none => trivial
    | some offset => exact fun _ _ => trivial
  | stop arg => exact absurd rfl (hc arg)
  | signal behavior signal =>
    dsimp only [Engine.step]
    split
    · exact fun _ _ _ => ⟨_, rfl⟩
    · trivial
  | finish arg => exact fun _ _ _ _ _ => ⟨_, rfl⟩
  | origin => exact fun _ _ _ => trivial
  | draw word =>
    intro s
    change Closing (if watched then _ else _)
    split
    · exact ⟨_, rfl⟩
    · trivial
  | _ => exact fun _ _ => trivial

theorem yields_access {a : Slot.Access} (ha : ∀ n, a ≠ .rewind n) (h : w.Underway i) :
    Yields Calling (Operation.access i a) w fun _ v => v.Underway i := by
  refine yields_iterate (fun _ v => v.Underway i) h fun _ v hv => ?_
  have h₁ := hv.perform (a := .access i a) ⟨rfl, ha⟩
  refine yields_perform ?_
  split
  · exact yields_done h₁
  next address _ =>
    have h₂ := h₁.tell (.cursor address 4)
    cases hc : Cursor.openAt address 4 with
    | error f => exact yields_unheeded (fun _ h => h) (yields_done h₂)
    | ok c =>
      have h₃ := h₂.perform (a := .accessWith i address c a) ⟨rfl, ha, hc⟩
      refine yields_unheeded (fun _ h => h) (yields_perform ?_)
      split <;> exact yields_done h₃

theorem yields_access_atRest {a : Slot.Access} (h : w.Accounts away) (hi : (w.slot i).AtRest) :
    Yields Calling (Operation.access i a) w fun r v => (∃ e, r = .error e) ∧ v.Accounts away := by
  refine yields_iterate (fun _ v => v.Accounts away ∧ (v.slot i).AtRest) ⟨h, hi⟩
    fun _ v ⟨hv, hi⟩ => ?_
  refine yields_perform ?_
  rw [perform_access (hi.tryAccess v.memory a)]
  refine yields_unheeded (fun _ h => h) ?_
  rw [setSlot_slot]
  exact yields_done ⟨⟨_, rfl⟩, hv.tell _⟩

theorem yields_next (h : w.Accounts [i]) :
    Yields Calling (Operation.access i .next) w fun r v =>
      v.Accounts [i] ∧ ∀ word, r = .ok word → v.Underway i := by
  cases hr : (w.slot i).flags.reset with
  | true =>
    refine (yields_access_atRest h (h.atRest i hr)).mono ?_
    rintro r v ⟨⟨e, rfl⟩, hv⟩
    exact ⟨hv, fun _ he => by cases he⟩
  | false => exact (yields_access (by simp) ⟨h, hr⟩).mono fun r v hv => ⟨hv.accounts, fun _ _ => hv⟩

/-- A list that has ended is done, and one that has not is away. -/
def AfterOutcome (i : Nat) (o : Outcome) (v : FrontEnd) : Prop :=
  v.Accounts [i] ∧ (o.isEnded = true → (v.slot i).isDone = true)

/-- What a step comes to. -/
def AfterStep (i : Nat) : Except Failure (Option Outcome) → FrontEnd → Prop
  | .ok (some o), v => AfterOutcome i o v
  | _, v => v.Accounts [i]

theorem afterStep_of_continues {r : Except Failure (Option Outcome)} {v : FrontEnd}
    (hr : Engine.Continues r) (hv : v.Accounts [i]) : AfterStep i r v := by
  match r with
  | .ok (some o) => exact ⟨hv, fun he => by rw [show o = .paused from hr] at he; cases he⟩
  | .ok none => exact hv
  | .error e => exact hv

theorem yields_conclude (h : w.Underway i) :
    Yields Calling (Engine.conclude i) w fun o v => AfterOutcome i o v := by
  refine yields_act (yields_act (yields_act (yields_act (yields_done ?_))))
  have h₁ := h.perform (a := .change i (.setEnded (w.slot i).flags.finished)) ⟨rfl, trivial⟩
  refine ⟨(h₁.setStatus .done).accounts, fun _ => ?_⟩
  exact isDone_change (c := .setStatus .done) (fun _ => rfl) _

theorem yields_stop (h : w.Underway i) (arg : UInt32) :
    Yields Calling (Engine.stop i arg) w (AfterStep i) := by
  have hend : ∀ v : FrontEnd, v.Underway i →
      Yields Calling ((Engine.conclude i).bind Engine.ended) v (AfterStep i) := fun v hv =>
    yields_bind ((yields_conclude hv).mono fun _ _ hu => yields_done hu)
  rw [Engine.stop_eq]
  refine yields_bind ((yields_access (by simp) h).mono fun r v hv => ?_)
  unfold Engine.stopWith
  split
  · exact hend v hv
  · exact yields_done hv.accounts
  · split
    · split
      next t _ =>
        refine (yields_closing (only_transfer t _) (closing_transfer t _)
          (Engine.leads_transfer t _) hv).mono fun r u hu => ?_
        exact afterStep_of_continues hu.1 hu.2
      · exact hend v hv
    · exact hend v hv

theorem yields_step (watched : Bool) (c : Command) (h : w.Underway i) :
    Yields Calling (Engine.step watched i c) w (AfterStep i) := by
  by_cases hc : ∃ arg, c = .stop arg
  · obtain ⟨arg, rfl⟩ := hc
    exact yields_stop h arg
  · have hne : ∀ arg, c ≠ .stop arg := fun arg he => hc ⟨arg, he⟩
    refine (yields_closing (only_step watched hne) (closing_step watched hne)
      (Engine.leads_step watched hne) h).mono fun r u hu => ?_
    exact afterStep_of_continues hu.1 hu.2

/-- What a run comes to. -/
def AfterRun (i : Nat) : Except Failure Outcome → FrontEnd → Prop
  | .ok o, v => AfterOutcome i o v
  | .error _, v => v.Accounts [i]

/-- **One round of a run** keeps the account of all other lists. -/
theorem yields_round (watched : Bool) (h : w.Accounts [i]) :
    Yields Calling (Engine.round watched i) w
      (Sum.elim (fun _ v => v.Accounts [i]) fun r v => AfterRun i r v) := by
  rw [Engine.round_eq]
  refine yields_perform ?_
  split
  · exact yields_done ⟨h, fun he => by cases he⟩
  refine yields_perform ?_
  split
  next hs =>
    -- A list that was reset is not stalled.
    have hw : w.Underway i := by
      refine ⟨h, Bool.eq_false_iff.2 fun hr => ?_⟩
      have hs' : (w.slot i).isStalled = true := hs
      rw [(h.atRest i hr).not_isStalled] at hs'
      cases hs'
    refine yields_perform (yields_perform ?_)
    have h₁ := (hw.setStatus .stallReached).perform (a := .await i) rfl
    unfold Engine.waited
    split
    · refine yields_perform ?_
      split
      · exact yields_done h₁.accounts
      · exact yields_perform (yields_done (h₁.setStatus .drawing).accounts)
    · exact yields_done ⟨h₁.accounts, fun he => by cases he⟩
  next =>
    refine yields_bind ((yields_next h).mono fun r v hv => ?_)
    cases r with
    | error e => exact yields_done hv.1
    | ok word =>
      refine yields_bind ((yields_step watched _ (hv.2 word rfl)).mono fun r u hu => ?_)
      match r, hu with
      | .error e, hu => exact yields_done hu
      | .ok none, hu => exact yields_done hu
      | .ok (some o), hu => exact yields_done hu

theorem yields_execute (watched : Bool) (h : w.Underway i) :
    Yields Calling (Engine.execute watched i) w (AfterRun i) := by
  have hrun : ∀ v : FrontEnd, v.Underway i → Yields Calling (change i (.setStatus .drawing) >>=
      fun _ => iterate () fun _ => Engine.round watched i) v (AfterRun i) := fun v hv =>
    yields_perform (yields_iterate (fun _ u => u.Accounts [i]) (hv.setStatus .drawing).accounts
      fun _ u hu => yields_round watched hu)
  refine yields_perform ?_
  split
  · exact yields_done h.accounts
  · refine yields_perform ?_
    split
    · refine yields_perform (hrun _ ?_)
      exact h.perform (a := .change i (.setRestarted false)) ⟨rfl, trivial⟩
    · exact hrun w h

theorem yields_leave (outcomes : List (Nat × Outcome)) {r : Except Failure Outcome}
    (h : AfterRun i r w) :
    Yields Calling (Engine.leave i outcomes r) w fun _ v => v.Accounts [] := by
  cases r with
  | error e => exact yields_act (yields_done (FrontEnd.Accounts.enqueue h .head))
  | ok outcome =>
    refine yields_perform ?_
    split
    next he => exact yields_done (h.1.back (.inr (h.2 he)))
    next => exact yields_perform (yields_done (h.1.enqueue .head))

theorem yields_serve (watched : Bool) (outcomes : List (Nat × Outcome)) (h : w.Accounts [i]) :
    Yields Calling (Engine.serve watched i outcomes) w fun _ v => v.Accounts [] := by
  refine yields_perform ?_
  split
  next hr => exact yields_done (h.back (.inr (h.atRest i hr).isDone))
  next hr =>
    refine yields_perform ?_
    split
    next hd => exact yields_done (h.back (.inr hd))
    next =>
      have hw : w.Underway i := ⟨h, Bool.eq_false_iff.2 hr⟩
      exact yields_bind ((yields_execute watched hw).mono fun r v hv => yields_leave outcomes hv)

/-- **A run of the queued lists keeps the account.** -/
theorem yields_drain (watched : Bool) (h : w.Accounts []) :
    Yields Calling (Engine.drain watched) w fun _ v => v.Accounts [] := by
  rw [Engine.drain_eq]
  refine yields_iterate (fun _ v => v.Accounts []) h fun outcomes v hv => ?_
  have hturn : Yields Calling (Engine.turn watched outcomes) v fun _ u => u.Accounts [] := by
    refine yields_perform ?_
    rw [show (Action.dequeue.perform v).1 = v.queue.head? from rfl]
    cases hq : v.queue.head? with
    | none =>
      refine yields_done (hv.congr rfl ?_ fun j => .refl _)
      change v.queue.tail = v.queue
      rw [List.head?_eq_none_iff.1 hq]
      rfl
    | some i => exact yields_serve watched outcomes (hv.dequeue hq)
  refine hturn.mono fun r u hu => ?_
  cases r with
  | inl outcomes => exact hu
  | inr r => exact hu

/-- A call is made, from which the host may make others, or the queued lists are run. -/
def Called (w v : FrontEnd) : Prop :=
  ∃ (r : Request) (reply : Reply),
    (r.Calls ∨ ∃ watched, r = .run watched) ∧ Hosted Calling r.serve w reply v

theorem Called.accounts {v : FrontEnd} (h : Called w v) (hw : w.Accounts []) : v.Accounts [] := by
  obtain ⟨r, reply, hr | ⟨watched, rfl⟩, hrun⟩ := h
  · exact yields_call hr hw _ _ hrun
  · have hserve : Yields Calling (Request.run watched).serve w fun _ v => v.Accounts [] :=
      yields_bind ((yields_drain watched hw).mono fun _ _ hv => yields_done hv)
    exact hserve _ _ hrun

/-- **No list is lost, and none is queued twice.** Whatever calls are made on a pool of the builtin
engine, and whatever calls the host makes while the queued lists are run: after each of them the
queue holds no list twice, and every list that is not done exactly once. -/
theorem queued_once {v : FrontEnd} (hfresh : w.Fresh) (hbackend : w.backend = .engine)
    (hqueue : w.queue = []) (h : Relation.ReflTransGen Called w v) :
    v.queue.Nodup ∧ ∀ i < v.poolSize, (v.slot i).isDone = false → v.queue.count i = 1 := by
  have hv : v.Accounts [] := by
    induction h with
    | refl => exact .of_fresh hfresh hbackend hqueue
    | tail _ hc ih => exact hc.accounts ih
  exact ⟨hv.nodup, fun i _ hi =>
    List.nodup_iff_count_eq_one.1 hv.nodup i (hv.queued i hi (by simp))⟩

/-! ## What the calls consist of -/

variable {allowed : Action → Prop}

theorem only_isBusy (h : ∀ j, allowed (.look j)) (list stack : Address) (slots : List Nat) :
    Only allowed (Pool.isBusy list stack slots) := by
  induction slots with
  | nil => trivial
  | cons j slots ih =>
    refine only_bind (only_perform (h j)) fun s => ?_
    split
    · exact ih
    · refine only_bind (only_perform (h j)) fun s => ?_
      split
      · trivial
      · exact ih

theorem only_firstFree (h : ∀ j, allowed (.look j)) (slots : List Nat) :
    Only allowed (Pool.firstFree slots) := by
  induction slots with
  | nil => trivial
  | cons j slots ih =>
    refine only_bind (only_perform (h j)) fun s => ?_
    split
    · trivial
    · exact ih

theorem only_start (h : ∀ a : Action, a.Manages → allowed a) (j : Nat) (p : Placement) :
    Only allowed (Operation.start j p) := by
  refine Only.mono h (only_bind (only_perform trivial) fun _ => only_bind (only_perform trivial)
    fun _ => only_bind (only_perform trivial) fun _ => ?_)
  cases p with
  | tail => exact only_perform trivial
  | head => trivial

theorem only_submission {sub : Submission} (h : ∀ a : Action, a.Manages → allowed a)
    (hinit : ∀ j, allowed (.change j (.init sub))) (p : Placement) :
    Only allowed (Pool.submit sub p) := by
  have hlook : ∀ j, allowed (.look j) := fun _ => h _ trivial
  refine only_bind (only_perform (h _ trivial)) fun n => ?_
  refine only_bind (only_isBusy hlook _ _ _) fun busy => ?_
  split
  · trivial
  · refine only_bind (only_firstFree hlook _) fun free => ?_
    cases free with
    | none => trivial
    | some j =>
      exact only_bind (only_perform (hinit j)) fun _ =>
        only_bind (only_start h j p) fun _ => only_pure _

theorem only_submit {sub : Submission} (h : ∀ a : Action, a.Manages → allowed a)
    (hinit : ∀ j, allowed (.change j (.init sub))) (p : Placement) :
    Only allowed (Request.submit sub p).serve := by
  refine only_bind (only_submission h hinit p) fun x => ?_
  cases x with
  | ok j => exact only_bind (only_perform (h (.look j) trivial)) fun _ => only_pure _
  | error e => trivial

theorem only_call_manages {r : Request} (hr : r.Calls) (hne : ∀ sub p, r ≠ .submit sub p) :
    Only Action.Manages r.serve := by
  have hreset : ∀ j, Only Action.Manages (Operation.reset j) := fun j =>
    only_bind (only_perform trivial) fun _ => only_perform trivial
  cases r with
  | write a ws =>
    refine only_bind (only_perform trivial) fun x => ?_
    cases x with
    | ok u => trivial
    | error f => trivial
  | submit sub p => exact absurd rfl (hne sub p)
  | resetAll =>
    refine only_bind (only_bind (only_perform trivial) fun n => ?_) fun _ => only_pure _
    generalize List.range n = slots
    induction slots with
    | nil => trivial
    | cons j slots ih => exact only_bind (hreset j) fun _ => ih
  | reset j => exact only_bind (hreset j) fun _ => only_pure _
  | setStall j a =>
    refine only_bind (only_bind (only_perform trivial) fun moved => ?_) fun _ => only_pure _
    split
    · exact only_bind (only_perform trivial) fun _ => only_perform trivial
    · trivial
  | restart j =>
    exact only_bind (only_bind (only_perform trivial) fun _ => only_bind (only_perform trivial)
      fun _ => only_bind (only_perform trivial) fun _ => only_perform trivial) fun _ => only_pure _
  | setRegisters | pause | clearPaused => exact ⟨trivial, fun _ => trivial⟩
  | _ => exact hr.elim

theorem only_call_leavesHost {r : Request} (hr : r.Calls) : Only Action.LeavesHost r.serve := by
  by_cases h : ∃ sub p, r = .submit sub p
  · obtain ⟨sub, p, rfl⟩ := h
    exact only_submit (fun _ ha => ha.leavesHost) (fun _ => trivial) p
  · exact (only_call_manages hr fun sub p he => h ⟨sub, p, he⟩).mono fun _ ha => ha.leavesHost

theorem called_of_play {n : Nat} {requests : List Request} {v : FrontEnd}
    (hrequests : ∀ r ∈ requests, r.Calls ∨ ∃ watched, r = .run watched)
    (hw : w.host.Abides Calling) (h : w.play n requests = some v) :
    Relation.ReflTransGen Called w v := by
  have hmay : ∀ m x, Calling m x → Only Action.LeavesHost x.serve := by
    intro m x hx
    cases m with
    | cursor => exact hx.elim
    | _ => exact only_call_leavesHost hx
  induction requests generalizing w with
  | nil =>
    cases h
    exact .refl
  | cons r rest ih =>
    have hr := hrequests r List.mem_cons_self
    have honly : Only Action.LeavesHost r.serve := by
      rcases hr with hr | ⟨watched, rfl⟩
      · exact only_call_leavesHost hr
      · refine only_bind (only_drain watched (fun j a ha => ?_) trivial fun _ => trivial)
          fun _ => only_pure _
        rcases ha with ha | ⟨s, rfl⟩
        · cases a with
          | setHost f => exact ha
          | _ => trivial
        · trivial
    obtain ⟨u, hu, hrest⟩ := Option.bind_eq_some_iff.1 h
    obtain ⟨⟨reply, u'⟩, hrun, rfl⟩ := Option.map_eq_some_iff.1 hu
    obtain ⟨hcall, hhost⟩ := hosted_of_run hmay honly hw hrun
    refine .head ⟨r, reply, hr, hcall⟩ (ih (fun x hx => ?_) hhost hrest)
    exact hrequests x (List.mem_cons_of_mem _ hx)

/-! ## A list that is submitted again while it runs -/

/-- The host resets a list at its first callback, and submits it again to stall after a word. -/
def resubmitting : FrontEnd :=
  { Replay.frontEnd {} with
    backend := .engine
    host := { onCallback := [[("reset", .reset 0),
      ("enqueue", .submit ⟨0x08800000, 0x08800004, 0, none⟩ .tail)]] } }

/-- A list that is submitted again while it runs is queued once when it has stalled. -/
theorem queued_once_resubmitting : ∃ v, Relation.ReflTransGen Called resubmitting v ∧
    (v.slot 0).status = .stallReached ∧
    v.queue.Nodup ∧ ∀ i < v.poolSize, (v.slot i).isDone = false → v.queue.count i = 1 := by
  let calls : List Request := [.write 0x08800000 [0x0E010000, 0x0C000000],
    .submit ⟨0x08800000, 0, 0, none⟩ .tail, .run true]
  have hplay : ((resubmitting.play 300 calls).map fun v => (v.slot 0).status) =
      some .stallReached := by decide +kernel
  obtain ⟨v, hv, hstatus⟩ := Option.map_eq_some_iff.1 hplay
  have hcalls : ∀ r ∈ calls, r.Calls ∨ ∃ watched, r = .run watched := by
    simp [calls, Request.Calls]
  have hhost : resubmitting.host.Abides Calling := by
    intro m
    cases m with
    | signalCallback | finishCallback =>
      simp only [Host.laidDown, resubmitting, List.forall_mem_cons]
      exact ⟨⟨trivial, trivial, by simp⟩, by simp⟩
    | _ => simp [Host.laidDown, resubmitting]
  have h := called_of_play hcalls hhost hv
  exact ⟨v, h, hstatus, queued_once (FrontEnd.fresh_of_slots rfl) rfl rfl h⟩

end Process

end DisplayList
