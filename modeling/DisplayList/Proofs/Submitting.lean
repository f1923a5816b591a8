import DisplayList.Pool
import DisplayList.Proofs.Aligned
import DisplayList.Proofs.Alone
import DisplayList.Proofs.Shown

/-!
# Submissions

The pool accepts a list to the first slot that is free, unless a list still running is in the way.
With the builtin engine the list is queued behind all others, or before them.

* `Slot.init_frame`: a slot just made ready;
* `FrontEnd.accepts`: where a list is accepted; `FrontEnd.receive`, `FrontEnd.accept`: the front end
  after that, whatever stands behind the lists, and with the builtin engine;
* **`gives_receive`**, `gives_submit`, `gives_submit_error`: what a submission comes to alone.
-/

namespace DisplayList

namespace Slot

theorem init_frame (s : Slot) (sub : Submission) : ∃ f : Fetcher, s.init sub = { s.clear with
    list := Address.aligned sub.list
    stall := Address.aligned sub.stall
    callbackId := sub.callbackId
    params := sub.params
    pc := Address.aligned sub.list
    status := if Address.aligned sub.list = Address.aligned sub.stall then .stallReached
      else .queued
    fetcher := f
    flags := .fresh
    wake := s.wake.clear } := by
  obtain ⟨f, hm⟩ := moveTo_frame { s.clear with
    list := Address.aligned sub.list
    stall := Address.aligned sub.stall
    callbackId := sub.callbackId
    params := sub.params } (Address.aligned sub.list)
  refine ⟨f, ?_⟩
  unfold init
  dsimp only at hm ⊢
  rw [hm, Address.aligned_aligned]
  rfl

/-- The slot once its list was handed over: only at the tail it gets a wake-up. -/
def handed (s : Slot) (p : Placement) : Slot :=
  match p with
  | .tail => { s with wake := s.wake.post }
  | .head => s

theorem isDone_init (s : Slot) (sub : Submission) : (s.init sub).isDone = false := by
  obtain ⟨f, hm⟩ := init_frame s sub
  rw [hm]
  unfold isDone
  dsimp only
  split
  · rfl
  · rfl

end Slot

namespace FrontEnd

/-- Whether a list among `slots` is still running and is in use by this address or stack. -/
def isBusy (w : FrontEnd) (list stack : Address) (slots : List Nat) : Bool :=
  slots.any fun i => !(w.slot i).isDone && (w.slot i).isInUse list stack

/-- The first slot among `slots` that is free. -/
def firstFree (w : FrontEnd) (slots : List Nat) : Option Nat :=
  slots.find? fun i => (w.slot i).isDone

/-- The position at which the pool accepts a list. -/
def accepts (w : FrontEnd) (sub : Submission) : Except Failure Nat :=
  if w.isBusy (Address.aligned sub.list) sub.stack (List.range w.poolSize) then
    .error (.busy (Address.aligned sub.list))
  else
    match w.firstFree (List.range w.poolSize) with
    | none => .error .noFreeSlot
    | some i => .ok i

/-- The front end with the list in slot `s` at position `i` started, whoever runs it. -/
def start (w : FrontEnd) (i : Nat) (s : Slot) (p : Placement) : FrontEnd :=
  (((w.setSlot i s).notify i (.announced p)).notify i (.submitted p)).setSlot i (s.handed p)

/-- The front end with a list received at position `i`, and handed to whoever runs it. -/
def receive (w : FrontEnd) (i : Nat) (sub : Submission) (p : Placement) : FrontEnd :=
  w.start i ((w.slot i).init sub) p

/-- The front end with a list accepted at position `i`, and queued. -/
def accept (w : FrontEnd) (i : Nat) (sub : Submission) : FrontEnd :=
  let s := (w.slot i).init sub
  (w.setSlot i { s with wake := s.wake.post }).enqueue i .tail

end FrontEnd

namespace Process

variable {w : FrontEnd} {sub : Submission} {i : Nat}

theorem gives_isBusy (list stack : Address) (slots : List Nat) :
    Gives (Pool.isBusy list stack slots) w (w.isBusy list stack slots) w := by
  induction slots with
  | nil => exact gives_done false w
  | cons i slots ih =>
    have hcons : w.isBusy list stack (i :: slots) =
        ((!(w.slot i).isDone && (w.slot i).isInUse list stack) || w.isBusy list stack slots) := rfl
    rw [hcons]
    refine Gives.act ?_
    change Gives (if (w.slot i).isDone then _ else _) w _ w
    cases (w.slot i).isDone with
    | true => exact ih
    | false =>
      refine Gives.act ?_
      change Gives (if (w.slot i).isInUse list stack then _ else _) w _ w
      cases (w.slot i).isInUse list stack with
      | true => exact gives_done true w
      | false => exact ih

theorem gives_firstFree (slots : List Nat) :
    Gives (Pool.firstFree slots) w (w.firstFree slots) w := by
  induction slots with
  | nil => exact gives_done none w
  | cons i slots ih =>
    have hcons : w.firstFree (i :: slots) =
        if (w.slot i).isDone then some i else w.firstFree slots := by
      unfold FrontEnd.firstFree
      rw [List.find?_cons]
      cases (w.slot i).isDone <;> rfl
    rw [hcons]
    refine Gives.act ?_
    change Gives (if (w.slot i).isDone then _ else _) w _ w
    split
    · exact gives_done (some i) w
    · exact ih

theorem gives_start (hi : i < w.slots.size) {s : Slot} (hs : s.flags.paused = false)
    (p : Placement) : Gives (Operation.start i p) (w.setSlot i s) () (w.start i s p) := by
  have hslot : (w.setSlot i s).slot i = s := FrontEnd.slot_setSlot_self hi
  have hpaused : ((Action.change i (.setPaused false)).perform (w.setSlot i s)).2 =
      w.setSlot i s := by
    have hsame : { s with flags := { s.flags with paused := false } } = s := by rw [← hs]
    change (w.setSlot i s).setSlot i { (w.setSlot i s).slot i with
      flags := { ((w.setSlot i s).slot i).flags with paused := false } } = _
    rw [hslot, hsame, FrontEnd.setSlot_setSlot]
  refine Gives.act ?_
  rw [hpaused]
  refine Gives.act ?_
  refine Gives.act ?_
  change Gives _ (((w.setSlot i s).notify i (.announced p)).notify i (.submitted p)) () _
  have hnotified : (((w.setSlot i s).notify i (.announced p)).notify i (.submitted p)).slot i =
      s := by
    rw [FrontEnd.slot_congr _ i (FrontEnd.slots_notify ..),
      FrontEnd.slot_congr _ i (FrontEnd.slots_notify ..), hslot]
  unfold FrontEnd.start
  generalize ((w.setSlot i s).notify i (.announced p)).notify i (.submitted p) = v at hnotified ⊢
  cases p with
  | tail =>
    refine Gives.act ?_
    have hposted : ((Action.change i .postWake).perform v).2 =
        v.setSlot i (s.handed .tail) := by
      change v.setSlot i { v.slot i with wake := (v.slot i).wake.post } = _
      rw [hnotified]
      rfl
    rw [hposted]
    exact gives_done _ _
  | head =>
    have hsame : v.setSlot i (s.handed .head) = v := by
      change v.setSlot i s = v
      rw [← hnotified, FrontEnd.setSlot_slot]
    rw [hsame]
    exact gives_done _ _

/-- What the pool does once it has looked for a slot. -/
def acceptTo (sub : Submission) (p : Placement) : Option Nat → Process (Except Failure Nat)
  | none => .done (.error .noFreeSlot)
  | some i => change i (.init sub) >>= fun _ => Operation.start i p >>= fun _ => .done (.ok i)

theorem submit_eq (sub : Submission) (p : Placement) :
    Pool.submit sub p = perform .poolSize >>= fun n =>
      Pool.isBusy (Address.aligned sub.list) sub.stack (List.range n) >>= fun busy =>
        if busy then .done (.error (.busy (Address.aligned sub.list)))
        else Pool.firstFree (List.range n) >>= acceptTo sub p :=
  rfl

theorem gives_search {r : Except Failure Nat} {u : FrontEnd} {p : Placement}
    (h : Gives (if w.isBusy (Address.aligned sub.list) sub.stack (List.range w.poolSize)
      then .done (.error (.busy (Address.aligned sub.list)))
      else acceptTo sub p (w.firstFree (List.range w.poolSize))) w r u) :
    Gives (Pool.submit sub p) w r u := by
  have hsize : Action.poolSize.perform w = (w.poolSize, w) := rfl
  rw [submit_eq]
  refine Gives.perform ?_
  rw [hsize]
  refine Gives.bind (gives_isBusy _ _ _) ?_
  split at h
  next hbusy =>
    rw [if_pos hbusy]
    exact h
  next hbusy =>
    rw [if_neg hbusy]
    exact Gives.bind (gives_firstFree _) h

/-- **A submission that the pool accepts**, whoever runs the lists. -/
theorem gives_receive (hi : i < w.slots.size) (h : w.accepts sub = .ok i) (p : Placement) :
    Gives (Pool.submit sub p) w (.ok i) (w.receive i sub p) := by
  refine gives_search ?_
  unfold FrontEnd.accepts at h
  split at h
  · cases h
  next hbusy =>
    rw [if_neg hbusy]
    cases hf : w.firstFree (List.range w.poolSize) with
    | none =>
      rw [hf] at h
      cases h
    | some j =>
      rw [hf] at h
      cases h
      refine Gives.perform ?_
      exact Gives.bind (gives_start hi rfl p) (gives_done _ _)

theorem receive_builtin (hw : w.selected? = none) (p : Placement) :
    w.receive i sub p =
      (w.setSlot i (((w.slot i).init sub).handed p)).enqueue i p := by
  have hbuiltin : (w.setSlot i ((w.slot i).init sub)).selected? = none := hw
  have hannounced : (w.setSlot i ((w.slot i).init sub)).notify i (.announced p) =
      w.setSlot i ((w.slot i).init sub) :=
    FrontEnd.notify_builtin hbuiltin _
  unfold FrontEnd.receive FrontEnd.start
  rw [hannounced, FrontEnd.notify_builtin hbuiltin]
  change ((w.setSlot i ((w.slot i).init sub)).setSlot i _).enqueue i p = _
  rw [FrontEnd.setSlot_setSlot]

theorem gives_submit (hw : w.selected? = none) (hi : i < w.slots.size)
    (h : w.accepts sub = .ok i) : Gives (Pool.submit sub .tail) w (.ok i) (w.accept i sub) := by
  have hg := gives_receive hi h .tail
  rwa [receive_builtin hw] at hg

theorem reach_accept {sub : Submission} (hw : w.selected? = none) (hi : i < w.slots.size)
    (h : w.accepts sub = .ok i) : Relation.ReflTransGen Anybody w (w.accept i sub) := by
  obtain ⟨t, ht⟩ := gives_submit hw hi h
  exact Goes.anybody (ht.mono fun _ _ ho => ho.elim)

theorem gives_submit_error {e : Failure} {p : Placement} (h : w.accepts sub = .error e) :
    Gives (Pool.submit sub p) w (.error e) w := by
  refine gives_search ?_
  unfold FrontEnd.accepts at h
  split at h
  next hbusy =>
    rw [if_pos hbusy]
    cases h
    exact gives_done _ _
  next hbusy =>
    rw [if_neg hbusy]
    cases hf : w.firstFree (List.range w.poolSize) with
    | none =>
      rw [hf] at h
      cases h
      exact gives_done _ _
    | some j =>
      rw [hf] at h
      cases h

theorem lt_of_accepts (h : w.accepts sub = .ok i) : i < w.poolSize := by
  unfold FrontEnd.accepts at h
  split at h
  · cases h
  · cases hf : w.firstFree (List.range w.poolSize) with
    | none =>
      rw [hf] at h
      cases h
    | some j =>
      rw [hf] at h
      cases h
      exact List.mem_range.1 (List.mem_of_find?_eq_some hf)

end Process

end DisplayList
