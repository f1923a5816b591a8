import DisplayList.Proofs.Extending
import DisplayList.Proofs.Riding

/-!
# A list run again and again

The worker serves the queue, and if the list in it stalls, serves it again, unless the producer was
done before. That the producer is done tells the worker about its next run only: a list that stalls
while the producer is still at work may have been extended by the time it has stalled.

* `Offered`, `Exhausted`: what is known of the list before a run, and where a late run stalls;
* **`keeps_execute_exhausted`**: a run that begins after the producer is done stalls nowhere but at
  the end of the list;
* `Rerunnable`, `rides_rerunnable`, `keeps_serve_once`: what is left of the list and the queue;
* **`keeps_quits`**: what the worker collects.
-/

namespace DisplayList.Replay

open Process Engine

variable {i : Nat} {stop : Address} {late : Bool} {queued : List Nat} {v u w : FrontEnd}

/-! ## A list that is offered to the worker -/

/-- The worker has a list at position `i` that ends at `stop`. Once the producer is done, the list
may run to its end; if the run is `late`, the producer was done before. -/
structure Offered (i : Nat) (stop : Address) (late : Bool) (w : FrontEnd) : Prop where
  size : i < w.slots.size
  stall : w.closed = true → (w.slot i).stall = stop
  closed : late = true → w.closed = true

theorem stable_offered : Stable (Extends i stop) fun _ => Offered i stop late := by
  intro t v u ho hv
  refine ⟨?_, ho.stall, fun hl => ?_⟩
  · rw [ho.size]
    exact hv.size
  · have hc := hv.closed hl
    rw [ho.unclosed] at hc
    cases hc

theorem Offered.runs (h : Offered i stop late v) (hr : Runs i v u) : Offered i stop late u := by
  refine ⟨?_, fun hc => ?_, fun hl => hr.closed.trans (h.closed hl)⟩
  · rw [hr.size]
    exact h.size
  · exact hr.stall.trans (h.stall (hr.closed.symm.trans hc))

theorem keeps_offered {α : Type} {p : Process α} (hp : Only (Action.Steers i) p) :
    Keeps (Extends i stop) (fun _ => Offered i stop late) p (fun _ => True) fun _ _ =>
      Offered i stop late :=
  keeps_only stable_offered (fun _ w ha hw => hw.runs (runs_steers ha w))
    (fun r w hw => hw.runs (runs_tell i r w)) hp

/-! ### Where a run stalls -/

/-- The list is offered; and if the run is late, it has come to its end. -/
def Exhausted (i : Nat) (stop : Address) (late : Bool) (w : FrontEnd) : Prop :=
  Offered i stop late w ∧ (late = true → (w.slot i).pc = stop)

theorem stable_exhausted : Stable (Extends i stop) fun _ => Exhausted i stop late :=
  fun t v u ho hv => ⟨stable_offered t v u ho hv.1, fun hl => ho.pc.trans (hv.2 hl)⟩

/-- **A late run can stall only at the end of the list.** -/
theorem Offered.exhausted (h : Offered i stop late w) (hs : (w.slot i).isStalled = true) :
    Exhausted i stop late w := by
  refine ⟨h, fun hl => ?_⟩
  unfold Slot.isStalled at hs
  rw [Bool.and_eq_true, beq_iff_eq] at hs
  exact hs.1.trans (h.stall (h.closed hl))

theorem steers_of_hidden {a : Action} (ha : a.Hidden) : ∃ j, a.Steers j := by
  cases a with
  | change j c =>
    cases c with
    | setStatus s => exact ⟨j, .inr ⟨s, rfl⟩⟩
    | _ => exact ha.elim
  | await j => exact ⟨j, .inl rfl⟩
  | _ => exact ha.elim

theorem Exhausted.perform {a : Action} (h : Exhausted i stop late w) (ha : a.Hidden) :
    Exhausted i stop late (a.perform w).2 := by
  obtain ⟨j, hj⟩ := steers_of_hidden ha
  have hslot := FrontEnd.slot_of_shown (ha.shown w) i
  have hpc : ((a.perform w).2.slot i).pc = (w.slot i).pc := (congrArg Slot.pc hslot :)
  exact ⟨h.1.runs (runs_steers hj w), fun hl => hpc.trans (h.2 hl)⟩

/-- What a round of a run comes to: if it is the last one and the list has stalled, a late run has
come to the end of the list. -/
def Rounded (i : Nat) (stop : Address) (late : Bool) :
    Unit ⊕ Except Failure Outcome → FrontEnd → Prop
  | .inl _ => Offered i stop late
  | .inr r => fun w => Offered i stop late w ∧ (r = .ok .stalled → Exhausted i stop late w)

theorem keeps_round : Keeps (Extends i stop) (fun _ => Offered i stop late) (round true i)
    (fun _ => True) fun x _ => Rounded i stop late x := by
  have hpaused : Keeps (Extends i stop) (fun _ => Offered i stop late)
      (.done (.inr (.ok .paused)) : Process (Unit ⊕ Except Failure Outcome)) (fun _ => True)
      fun x _ => Rounded i stop late x :=
    keeps_stay stable_offered (fun _ _ _ => trivial) fun _ _ h => ⟨h, nofun⟩
  have hread : Keeps (Extends i stop) (fun _ => Offered i stop late)
      ((Operation.access i .next).bind (dispatch true i)) (fun _ => True)
      fun x _ => Rounded i stop late x := by
    have honly : Only (Action.Steers i) ((Operation.access i .next).bind (dispatch true i)) :=
      (only_access (by simp)).steers.bind (only_dispatch_of (only_steps true))
    have hne : Keeps (Extends i stop) (fun _ => Offered i stop late)
        ((Operation.access i .next).bind (dispatch true i)) (fun _ => True)
        fun x _ _ => x ≠ .inr (.ok .stalled) :=
      keeps_bind (keeps_offered (only_access (by simp)).steers) (keeps_dispatch_ne true)
    refine ((keeps_offered honly).and hne).weaken (fun _ _ h => ⟨h, h⟩) (fun _ _ => trivial)
      fun x t u hx => ?_
    cases x with
    | inl _ => exact hx.1
    | inr r => exact ⟨hx.1, fun hr => absurd (congrArg Sum.inr hr) hx.2⟩
  have hwait : Keeps (Extends i stop) (fun _ => Exhausted i stop late)
      (change i (.setStatus .stallReached) >>= fun _ => perform (.await i) >>= waited i)
      (fun _ => True) fun x _ => Rounded i stop late x := by
    refine (keeps_wait stable_exhausted (fun a w ha hw => hw.perform ha) (fun w hw => hw.1.size)
      fun v u ho _ => ho.status).post fun x t u hx => ?_
    cases x with
    | inl _ => exact hx.1
    | inr r => exact ⟨hx.2.1.1, fun _ => hx.2.1⟩
  rw [round_eq]
  refine keeps_bind (keeps_offered (only_look i).steers) fun s => ?_
  split
  · exact hpaused
  · refine keeps_perform stable_offered (fun _ _ _ => trivial) fun t v hv => ?_
    change Keeps _ _ (if (v.slot i).isStalled then _ else _) _ _
    split
    next hs => exact hwait.now (hv.exhausted hs)
    next => exact hread.now hv

/-- **A run of the list.** A late one stalls only at the end of the list. -/
theorem keeps_execute_exhausted :
    Keeps (Extends i stop) (fun _ => Offered i stop late) (execute true i) (fun _ => True)
      fun r _ w => r = .ok .stalled → Exhausted i stop late w := by
  have hrun : Keeps (Extends i stop) (fun _ => Offered i stop late)
      (change i (.setStatus .drawing) >>= fun _ => iterate () fun _ => round true i)
      (fun _ => True) fun r _ w => r = .ok .stalled → Exhausted i stop late w := by
    refine keeps_bind (keeps_offered (only_setStatus _)) fun _ => ?_
    refine keeps_iterate (I := fun _ _ => Offered i stop late) (fun _ _ h => h)
      (fun _ _ _ => trivial) stable_offered fun _ => keeps_round.post fun x t u hx => ?_
    cases x with
    | inl _ => exact hx
    | inr r => exact hx.2
  refine keeps_bind (keeps_offered (only_look i).steers) fun s => ?_
  split
  · exact keeps_done (fun _ _ _ => trivial) fun _ _ _ _ _ => nofun
  · refine keeps_bind (keeps_offered (only_look i).steers) fun s => ?_
    split
    · have hrestarted : Only (Action.Steers i) (change i (.setRestarted false)) :=
        (only_change (c := .setRestarted false) trivial).steers
      exact keeps_bind (keeps_offered hrestarted) fun _ => hrun
    · exact hrun

/-! ### What a run leaves behind -/

/-- The list can be run: it is in use, and the queue is `queued`. -/
structure Rerunnable (i : Nat) (stop : Address) (late : Bool) (queued : List Nat) (w : FrontEnd) :
    Prop extends Offered i stop late w where
  queue : w.queue = queued
  isDone : (w.slot i).isDone = false
  reset : (w.slot i).flags.reset = false

theorem stable_rerunnable : Stable (Extends i stop) fun _ => Rerunnable i stop late queued := by
  intro t v u ho hv
  refine ⟨stable_offered t v u ho hv.toOffered, ho.queue.trans hv.queue, ?_, ?_⟩
  · unfold Slot.isDone
    rw [ho.status]
    exact hv.isDone
  · rw [ho.flags]
    exact hv.reset

theorem Rerunnable.drives {a : Action} (h : Rerunnable i stop late queued w) (ha : a.Drives i) :
    Rerunnable i stop late queued (a.perform w).2 := by
  have hspares := ha.steers.sparesQueue
  refine ⟨h.runs (runs_steers ha.steers w), (Action.queue_perform hspares).trans h.queue, ?_, ?_⟩
  · refine Action.slot_perform_of (P := fun s => s.isDone = false) h.isDone ?_
    rcases ha with ha | ⟨s, hs, rfl⟩
    · exact (congrArg Status.isOver (ha.status_onto ..)).trans h.isDone
    · rw [Action.onto_change, if_pos rfl]
      exact hs
  · refine Action.slot_perform_of (P := fun s => s.flags.reset = false) h.reset ?_
    rcases ha with ha | ⟨s, hs, rfl⟩
    · rw [ha.reset_onto]
      exact h.reset
    · rw [Action.onto_change, if_pos rfl]
      exact h.reset

theorem Rerunnable.tell (h : Rerunnable i stop late queued w) (r : DisplayList.Report) :
    Rerunnable i stop late queued (w.tell r).2 := by
  obtain ⟨host, journal, ht⟩ := w.tell_frame r
  rw [ht]
  exact ⟨⟨h.size, h.stall, h.closed⟩, h.queue, h.isDone, h.reset⟩

/-- The list was taken from the queue, and the queue is empty. -/
def Taken (i : Nat) (stop : Address) (late : Bool) (w : FrontEnd) : Prop :=
  Offered i stop late w ∧ w.queue = []

theorem stable_taken : Stable (Extends i stop) fun _ => Taken i stop late :=
  fun t v u ho hv => ⟨stable_offered t v u ho hv.1, ho.queue.trans hv.2⟩

/-- Once a run is over the list is still away; and it can be run again unless it has ended. -/
def RunOver (i : Nat) (stop : Address) (late : Bool) (r : Except Failure Outcome)
    (w : FrontEnd) : Prop :=
  Taken i stop late w ∧
    ((∀ o, r = .ok o → o.isEnded = false) → Rerunnable i stop late [] w)

/-- **While the list runs** it is away, and can be run again unless it ends. -/
theorem rides_rerunnable : Rides (Extends i stop) i (fun _ => True)
    (fun _ => Rerunnable i stop late []) fun r _ => RunOver i stop late r where
  stable := stable_rerunnable
  trace _ _ _ := trivial
  act _ _ _ ha h := h.drives ha
  report r _ _ h := h.tell r
  unended _ _ _ _ h := ⟨⟨h.toOffered, h.queue⟩, fun _ => h⟩
  conclude := by
    have htaken : Keeps (Extends i stop) (fun _ => Taken i stop late) (Engine.conclude i)
        (fun _ => True) fun _ _ => Taken i stop late := by
      refine keeps_only stable_taken (fun a w ha hw => ?_) (fun r w hw => ?_) only_conclude
      · exact ⟨hw.1.runs (runs_steers ha.steers w),
          (Action.queue_perform ha.steers.sparesQueue).trans hw.2⟩
      · obtain ⟨host, journal, ht⟩ := w.tell_frame r
        rw [ht]
        exact ⟨⟨hw.1.size, hw.1.stall, hw.1.closed⟩, hw.2⟩
    refine ((htaken.pre fun _ _ h => ⟨h.toOffered, h.queue⟩).leads leads_conclude).post
      fun o t w hw => ⟨hw.1, fun hne => ?_⟩
    rw [hne o rfl] at hw
    cases hw.2
  stable_over r t v u ho hv :=
    ⟨stable_taken t v u ho hv.1, fun hne => stable_rerunnable t v u ho (hv.2 hne)⟩
  trace_over _ _ _ _ := trivial

/-- **A run of the list**, and what is left after it. -/
theorem keeps_execute : Keeps (Extends i stop) (fun _ => Rerunnable i stop late [])
    (execute true i) (fun _ => True) fun r _ w =>
      RunOver i stop late r w ∧ (r = .ok .stalled → Exhausted i stop late w) :=
  ((rides_rerunnable.execute true).and keeps_execute_exhausted).weaken
    (fun _ _ h => ⟨h, h.toOffered⟩) (fun _ _ => trivial) fun _ _ _ h => h

/-! ## The queue -/

/-- The list is queued and can be run again; and if the run was late, it has come to its end. -/
def Requeued (i : Nat) (stop : Address) (late : Bool) (w : FrontEnd) : Prop :=
  Rerunnable i stop late [i] w ∧ (late = true → (w.slot i).pc = stop)

theorem stable_requeued : Stable (Extends i stop) fun _ => Requeued i stop late :=
  fun t v u ho hv => ⟨stable_rerunnable t v u ho hv.1, fun hl => ho.pc.trans (hv.2 hl)⟩

/-- The engine reports one outcome; if the list has stalled, it is queued. -/
def ServedOnce (i : Nat) (stop : Address) (late : Bool)
    (r : Except Failure (List (Nat × Outcome))) (w : FrontEnd) : Prop :=
  ∀ ran, r = .ok ran → ∃ id o, ran = [(id, o)] ∧ (o = .stalled → Requeued i stop late w)

theorem stable_servedOnce (r : Except Failure (List (Nat × Outcome))) :
    Stable (Extends i stop) fun _ => ServedOnce i stop late r := by
  intro t v u ho hv ran hr
  obtain ⟨id, o, hran, hstalled⟩ := hv ran hr
  exact ⟨id, o, hran, fun hs => stable_requeued t v u ho (hstalled hs)⟩

/-- Before a turn of the queue: the list is queued, or it has ended in the turn before. -/
def BeforeTurn (i : Nat) (stop : Address) (late : Bool) (outcomes : List (Nat × Outcome))
    (w : FrontEnd) : Prop :=
  (outcomes = [] ∧ Rerunnable i stop late [i] w) ∨
    (∃ id f, outcomes = [(id, .ended f)]) ∧ Taken i stop late w

theorem stable_beforeTurn (outcomes : List (Nat × Outcome)) :
    Stable (Extends i stop) fun _ => BeforeTurn i stop late outcomes := by
  rintro t v u ho (⟨hnil, hv⟩ | ⟨hended, hv⟩)
  · exact .inl ⟨hnil, stable_rerunnable t v u ho hv⟩
  · exact .inr ⟨hended, stable_taken t v u ho hv⟩

/-- What a turn of the queue comes to. -/
abbrev AfterTurn (i : Nat) (stop : Address) (late : Bool) :
    Served → Assertion :=
  Sum.elim (fun outcomes _ => BeforeTurn i stop late outcomes) fun r _ => ServedOnce i stop late r

theorem requeued_enqueue (h : Rerunnable i stop late [] w)
    (hend : late = true → (w.slot i).pc = stop) :
    Requeued i stop late ((Action.enqueue i .head).perform w).2 := by
  have hqueue : (w.enqueue i .head).queue = [i] := by
    change i :: w.queue.filter (· != i) = [i]
    rw [h.queue]
    rfl
  exact ⟨⟨⟨h.size, h.stall, h.closed⟩, hqueue, h.isDone, h.reset⟩, hend⟩

theorem keeps_unstalled {P : Assertion} {r : Except Failure (List (Nat × Outcome))}
    (h : ∀ ran, r = .ok ran → ∃ id o, ran = [(id, o)] ∧ o ≠ .stalled) :
    Keeps (Extends i stop) P (.done (.inr r) : Process Served) (fun _ => True)
      (AfterTurn i stop late) := by
  refine keeps_done (fun _ _ _ => trivial) fun _ _ _ _ _ ran hr => ?_
  obtain ⟨id, o, hran, hne⟩ := h ran hr
  exact ⟨id, o, hran, fun hs => absurd hs hne⟩

theorem keeps_leave (r : Except Failure Outcome) :
    Keeps (Extends i stop)
      (fun _ w => RunOver i stop late r w ∧ (r = .ok .stalled → Exhausted i stop late w))
      (leave i [] r) (fun _ => True) (AfterTurn i stop late) := by
  have hst : Stable (Extends i stop) fun _ w =>
      RunOver i stop late r w ∧ (r = .ok .stalled → Exhausted i stop late w) :=
    fun t v u ho hv => ⟨rides_rerunnable.stable_over r t v u ho hv.1,
      fun hr => stable_exhausted t v u ho (hv.2 hr)⟩
  cases r with
  | error e =>
    exact keeps_perform hst (fun _ _ _ => trivial) fun _ _ _ => keeps_unstalled nofun
  | ok o =>
    refine keeps_perform hst (fun _ _ _ => trivial) fun t w hw => ?_
    cases o with
    | ended f =>
      have hended : Keeps (Extends i stop) (fun _ => Taken i stop late)
          (.done (.inl [((w.slot i).id, .ended f)]) : Process Served) (fun _ => True)
          (AfterTurn i stop late) :=
        keeps_stay stable_taken (fun _ _ _ => trivial) fun _ _ h => .inr ⟨⟨_, f, rfl⟩, h⟩
      exact hended.now hw.1.1
    | paused =>
      refine Keeps.now (keeps_perform hst (fun _ _ _ => trivial) fun _ _ _ => ?_) hw
      refine keeps_unstalled fun ran hran => ?_
      cases hran
      exact ⟨_, _, rfl, nofun⟩
    | stalled =>
      refine Keeps.now (keeps_perform hst (fun _ _ _ => trivial) fun t v hv => ?_) hw
      have hagain : Rerunnable i stop late [] v := hv.1.2 fun o ho => by cases ho; rfl
      have hrequeued := requeued_enqueue hagain (hv.2 rfl).2
      refine Keeps.now (P := fun _ => Requeued i stop late) ?_ hrequeued
      refine keeps_stay stable_requeued (fun _ _ _ => trivial) fun t u hu ran hran => ?_
      cases hran
      exact ⟨_, _, rfl, fun _ => hu⟩

theorem keeps_serve_once :
    Keeps (Extends i stop) (fun _ => Rerunnable i stop late []) (serve true i []) (fun _ => True)
      (AfterTurn i stop late) := by
  refine keeps_perform stable_rerunnable (fun _ _ _ => trivial) fun t v hv => ?_
  change Keeps _ _ (if (v.slot i).flags.reset then _ else runUnlessDone true i []) _ _
  rw [if_neg (by rw [hv.reset]; decide)]
  refine Keeps.now (P := fun _ => Rerunnable i stop late []) ?_ hv
  refine keeps_perform stable_rerunnable (fun _ _ _ => trivial) fun t v hv => ?_
  change Keeps _ _ (if (v.slot i).isDone then _ else execute true i >>= leave i []) _ _
  rw [if_neg (by rw [hv.isDone]; decide)]
  exact (keeps_bind keeps_execute keeps_leave).now hv

theorem keeps_turn (outcomes : List (Nat × Outcome)) :
    Keeps (Extends i stop) (fun _ => BeforeTurn i stop late outcomes) (turn true outcomes)
      (fun _ => True) (AfterTurn i stop late) := by
  refine keeps_perform (stable_beforeTurn outcomes) (fun _ _ _ => trivial) fun t v hv => ?_
  change Keeps _ (Now _ v.dequeue.2) _ _ _
  rcases hv with ⟨rfl, hv⟩ | ⟨⟨id, f, rfl⟩, hv⟩
  · have htaken : Rerunnable i stop late [] v.dequeue.2 := by
      refine ⟨⟨hv.size, hv.stall, hv.closed⟩, ?_, hv.isDone, hv.reset⟩
      change v.queue.tail = []
      rw [hv.queue]
      rfl
    have hnext : ((Action.dequeue).perform v).1 = some i := by
      change v.queue.head? = some i
      rw [hv.queue]
      rfl
    rw [hnext]
    exact keeps_serve_once.now htaken
  · have hnext : ((Action.dequeue).perform v).1 = none := by
      change v.queue.head? = none
      rw [hv.2]
      rfl
    rw [hnext]
    refine keeps_unstalled fun ran hran => ?_
    cases hran
    exact ⟨id, _, rfl, nofun⟩

/-- **The queue is served.** The engine reports one outcome; if the list has stalled, it is queued
again, and has come to its end if the producer was done before. -/
theorem keeps_drain : Keeps (Extends i stop) (fun _ => Rerunnable i stop late [i]) (drain true)
    (fun _ => True) fun r _ => ServedOnce i stop late r := by
  rw [drain_eq]
  exact keeps_iterate (I := fun outcomes _ => BeforeTurn i stop late outcomes)
    (fun _ _ h => .inl ⟨rfl, h⟩) (fun _ _ _ => trivial) (stable_beforeTurn []) keeps_turn

/-! ## The worker -/

/-- The worker gives up for good: the outcomes collected are stalls and one outcome after them, and
if that is a stall, the producer is done and the list has come to its end. -/
def Quits (i : Nat) (stop : Address) (r : Except Error (List Outcome)) (w : FrontEnd) : Prop :=
  ∀ outcomes, r = .ok outcomes → ∃ k last, outcomes = List.replicate k .stalled ++ [last] ∧
    (last = .stalled → w.closed = true ∧ (w.slot i).stall = stop ∧ (w.slot i).pc = stop)

/-- Before a round of the worker the list has stalled in all rounds so far, and is queued. -/
def Stalling (i : Nat) (stop : Address) (outcomes : List Outcome) (w : FrontEnd) : Prop :=
  (∃ k, outcomes = List.replicate k .stalled) ∧ Rerunnable i stop false [i] w

theorem stable_stalling (outcomes : List Outcome) :
    Stable (Extends i stop) fun _ => Stalling i stop outcomes :=
  fun t v u ho hv => ⟨hv.1, stable_rerunnable t v u ho hv.2⟩

theorem judged {outcomes : List Outcome} {r : Except Failure (List (Nat × Outcome))} {k : Nat}
    (hk : outcomes = List.replicate k .stalled) (h : ServedOnce i stop late r w) :
    Sum.elim (fun outcomes => Stalling i stop outcomes w) (fun r => Quits i stop r w)
      (judge late outcomes r) := by
  cases r with
  | error e => exact nofun
  | ok ran =>
    obtain ⟨id, o, rfl, hstalled⟩ := h ran rfl
    have hlast : ∀ last, last ≠ .stalled → Quits i stop (.ok (outcomes ++ [last])) w := by
      intro last hne collected hc
      cases hc
      exact ⟨k, last, by rw [hk], fun he => absurd he hne⟩
    cases o with
    | ended f => exact hlast _ nofun
    | paused => exact hlast _ nofun
    | stalled =>
      obtain ⟨hagain, hend⟩ := hstalled rfl
      cases late with
      | true =>
        intro collected hc
        cases hc
        have hclosed := hagain.closed rfl
        exact ⟨k, .stalled, by rw [hk]; rfl, fun _ => ⟨hclosed, hagain.stall hclosed, hend rfl⟩⟩
      | false => exact ⟨⟨k + 1, by rw [hk, List.replicate_succ']; rfl⟩, hagain⟩

/-- **The worker gives up only at the end**, beside a producer that extends its list. -/
theorem keeps_quits : Keeps (Extends i stop) (fun _ => Rerunnable i stop false [i]) work
    (fun _ => True) fun r _ => Quits i stop r := by
  rw [work_eq]
  refine keeps_iterate (I := fun outcomes _ => Stalling i stop outcomes)
    (fun _ _ h => ⟨⟨0, rfl⟩, h⟩) (fun _ _ _ => trivial) (stable_stalling []) fun outcomes => ?_
  refine keeps_perform (stable_stalling outcomes) (fun _ _ _ => trivial) fun t v hv => ?_
  obtain ⟨⟨k, hk⟩, hv⟩ := hv
  change Keeps _ (Now _ v) (drain true >>= fun r => .done (judge v.closed outcomes r)) _ _
  have hlate : Rerunnable i stop v.closed [i] v :=
    ⟨⟨hv.size, hv.stall, fun hc => hc⟩, hv.queue, hv.isDone, hv.reset⟩
  refine Keeps.now (P := fun _ => Rerunnable i stop v.closed [i]) ?_ hlate
  refine keeps_bind keeps_drain fun r => ?_
  refine keeps_stay (stable_servedOnce r) (fun _ _ _ => trivial) fun t w hw => ?_
  have hjudged := judged hk hw
  revert hjudged
  cases judge v.closed outcomes r with
  | inl outcomes => exact id
  | inr r => exact id

end DisplayList.Replay
