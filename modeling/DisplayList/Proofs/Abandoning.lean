import DisplayList.Proofs.Quitting
import DisplayList.Proofs.Relaying

/-!
# A worker that nobody tells

A producer that finds no room for a chunk returns at once, and the worker is not told that it is
done. If the list stalls, such a worker goes round for ever.

* **`told_iff_fits`**: once the producer has returned, the worker was told exactly if the whole list
  found room;
* `Stuck`, **`Stuck.endless`**: a list that has stalled and that nobody lets on is run again and
  again;
* **`worker_left_behind`**: a replay that fails and leaves such a worker.
-/

namespace DisplayList.Replay

open Process Engine Memory

variable {s : Settings} {o : Options} {words : List UInt32} {i : Nat} {w u : FrontEnd}
  {t : List Move} {a : Address} {chunks : List (List UInt32)}
  {q : Process (Except Error (List Outcome))} {r : Except Error Unit}

/-! ## Whether the worker is told -/

theorem keeps_feed_room {others : FrontEnd → FrontEnd → Prop} :
    Keeps others (fun _ _ => True) (feed i a chunks) (fun _ => True) fun r _ _ =>
      (r.isOk = true ↔ HasRoom a chunks) := by
  have hst : Stable others fun _ _ => True := fun _ _ _ _ _ => trivial
  induction chunks generalizing a with
  | nil =>
    refine keeps_perform hst (fun _ _ _ => trivial) fun t v hv => ?_
    exact keeps_done (fun _ _ _ => trivial) fun _ _ _ _ _ => iff_of_true rfl trivial
  | cons chunk rest ih =>
    refine keeps_act (a := .write a chunk) hst (fun _ _ _ => trivial) fun t v hv => ?_
    cases hm : v.memory.writeWords a chunk with
    | error f =>
      rw [Action.perform_write_error hm]
      refine keeps_done (fun _ _ _ => trivial) fun _ _ _ _ _ => iff_of_false nofun fun hroom => ?_
      obtain ⟨m, hok⟩ := writeWords_iff (m := v.memory).2 hroom.1
      rw [hm] at hok
      cases hok
    | ok m =>
      rw [Action.perform_write_ok hm]
      have hfits : Fits a (4 * chunk.length) := writeWords_iff.1 ⟨m, hm⟩
      have hmoved : Keeps others (fun _ _ => True)
          (Operation.setStall i (a + 4 * UInt32.ofNat chunk.length)) (fun _ => True)
          fun _ _ _ => True :=
        fun _ _ _ _ _ _ _ => ⟨trivial, fun _ _ => trivial⟩
      refine Keeps.now (P := fun _ _ => True) ?_ trivial
      change Keeps _ _ (Operation.setStall i (a + 4 * UInt32.ofNat chunk.length) >>= fun _ =>
        feed i (a + 4 * UInt32.ofNat chunk.length) rest) _ _
      refine keeps_bind hmoved fun _ => ih.post fun r t u hr => ?_
      exact hr.trans (and_iff_right hfits).symm

/-- **Whether the worker is told.** Once the producer of a replay has returned, whatever the turns
were, the worker was told that it is done exactly if the list lies inside one region. -/
theorem told_iff_fits (h : Reaches s o words i t (.done r) q u) :
    u.closed = true ↔ Fits o.start (4 * words.length) := by
  obtain ⟨first, rest, t₀, stall, v, hchunks, hlead, hturns⟩ := h.run
  have hidle := idle_frontEnd h.builtin
  have hout := launched_of_lead hidle hchunks hlead
  obtain ⟨⟨t', hg⟩, -⟩ := hout.beside hturns
  have hclosed : u.closed = r.isOk := (hout.keeps_feed.ends hout.extending hg).2
  have hroom : r.isOk = true ↔ HasRoom stall rest := (keeps_feed_room.ends trivial hg).2
  obtain ⟨m, hm, -, rfl, -⟩ := alone_lead hidle hlead
  have hfirst : Fits o.start (4 * first.length) := writeWords_iff.1 ⟨m, hm⟩
  have hne : ∀ chunk ∈ first :: rest, chunk ≠ [] := fun chunk hc =>
    ne_nil_of_mem_chunks (hchunks ▸ hc)
  have hwhole := hasRoom_iff (Address.aligned_aligned o.loadAddress) (hne first List.mem_cons_self)
    fun c hc => hne c (List.mem_cons_of_mem _ hc)
  have hflat : (first :: rest).flatten = words := by rw [← hchunks, flatten_chunks]
  rw [← List.flatten_cons, hflat] at hwhole
  rw [hclosed, hroom]
  exact (and_iff_right hfirst).symm.trans hwhole

/-! ## A worker that is not told -/

/-- The list at position `i` is queued and has run as far as it may, and the producer is not done. -/
structure Stuck (i : Nat) (w : FrontEnd) : Prop where
  size : i < w.slots.size
  queue : w.queue = [i]
  closed : w.closed = false
  isDone : (w.slot i).isDone = false
  paused : (w.slot i).flags.paused = false
  reset : (w.slot i).flags.reset = false
  restarted : (w.slot i).flags.restarted = false
  stalled : (w.slot i).isStalled = true

/-- **A run of such a list stalls**, and leaves it as it was. -/
theorem Stuck.stalls {r : Except Failure (List (Nat × Outcome))} (h : Stuck i w)
    (hrun : Alone (drain true) w t r u) : (∃ id, r = .ok [(id, .stalled)]) ∧ Stuck i u := by
  have hruns := alone_works only_works hrun i
  rw [drain_eq] at hrun
  obtain ⟨ta, -, ha⟩ := alone_act.1 (alone_loop.1 hrun)
  have hdequeue : Action.dequeue.perform w = (some i, { w with queue := [] }) := by
    change w.dequeue = _
    unfold FrontEnd.dequeue
    rw [h.queue]
    rfl
  rw [hdequeue] at ha
  obtain ⟨t₀, t₁, t₂, ρ, y, -, -, hrounds, hleave⟩ :=
    alone_serve (x := { w with queue := [] }) h.reset h.restarted h.isDone ha
  have hset : (Action.change i (.setStatus .drawing)).Hidden := trivial
  have hat : AtStall i { w with queue := [] } { w with queue := [] } :=
    ⟨h.size, rfl, h.paused, h.stalled⟩
  have hat' := hat.perform hset
  obtain ⟨rfl, hy, hstatus⟩ := alone_stalled ⟨hat'.size, rfl, hat'.paused, hat'.stalled⟩ hrounds
  have hshown : y.shown = { w with queue := [] }.shown := hy.shown.trans hat'.shown
  have hqueue : y.queue = [] := (congrArg FrontEnd.queue hshown :)
  have hflags : (y.slot i).flags = (w.slot i).flags :=
    (congrArg Slot.flags (FrontEnd.slot_of_shown hshown i) :)
  obtain ⟨rfl, rfl⟩ := alone_leave hqueue hleave
  refine ⟨⟨_, rfl⟩, hy.size, ?_, hruns.closed.trans h.closed, ?_, hy.paused, ?_, ?_, hy.stalled⟩
  · change i :: y.queue.filter (· != i) = [i]
    rw [hqueue]
    rfl
  · change (y.slot i).status.isOver = false
    rw [hstatus]
    rfl
  · exact (congrArg Flags.reset hflags).trans h.reset
  · exact (congrArg Flags.restarted hflags).trans h.restarted

/-- A round of the worker. -/
def goRound (outcomes : List Outcome) : Process (List Outcome ⊕ Except Error (List Outcome)) :=
  perform .isClosed >>= fun closed => drain true >>= fun r => .done (judge closed outcomes r)

theorem Stuck.goes_round {r : Except Error (List Outcome)} (h : Stuck i w)
    (outcomes : List Outcome) : ¬ Alone (iterate outcomes goRound) w t r u := by
  intro hrun
  induction hn : t.length using Nat.strong_induction_on generalizing w t outcomes with
  | h n ih =>
    obtain ⟨ta, rfl, ha⟩ := alone_act.1 (alone_loop.1 hrun)
    change Alone (Process.bind ((drain true).bind fun r => .done (judge w.closed outcomes r)) _) w ta r
      u at ha
    rw [h.closed, bind_assoc] at ha
    obtain ⟨ran, v, tb, tc, rfl, hdrain, hrest⟩ := alone_bind.1 ha
    obtain ⟨⟨id, rfl⟩, hv⟩ := h.stalls hdrain
    have hagain : Alone (iterate (outcomes ++ [.stalled]) goRound) v tc r u := hrest
    have hshorter : tc.length < n := by
      rw [← hn, List.length_cons, List.length_append]
      omega
    exact ih _ hshorter hv _ hagain rfl

/-- **The worker goes round for ever** if its list has stalled and it is left alone. -/
theorem Stuck.endless {r : Except Error (List Outcome)} (h : Stuck i w) : ¬ Alone work w t r u := by
  rw [work_eq]
  exact h.goes_round []

/-! ## A worker that is left behind -/

/-- Words handed over one at a time, of which only the first finds room at the end of its region. -/
def overrunning : Options where
  loadAddress := 0x09FFFFFC
  chunkWords := some 1

/-- The worker takes the list from the queue, and then the producer goes on to its end. -/
def earlyTurns : List Bool :=
  [false, false, false] ++ .replicate 20 true

/-- With these turns the producer fails, the worker is not told, and is not done. -/
def leavesBehind (i : Nat) (stall : Address) (v : FrontEnd) : Bool :=
  let x := takeTurns earlyTurns (feed i stall [[0]]) work v
  (x.2.1.result?.any fun r => !r.isOk) && !x.2.2.2.closed && x.2.2.1.result?.isNone

/-- **A replay that fails and leaves its worker behind.** -/
theorem worker_left_behind : ∃ i t e q u, Reaches {} overrunning [0, 0] i t (.done (.error e)) q u ∧
    u.closed = false ∧ q.result? = none := by
  have hshot : ((lead overrunning [0]).trace 300 (frontEnd {})).any fun x =>
      x.2.1.toOption.any fun y => leavesBehind y.1 y.2 x.2.2 := by decide +kernel
  obtain ⟨⟨t₀, led, v⟩, hlead, hshot⟩ := (Option.any_eq_true _ _).1 hshot
  cases led with
  | error e => cases hshot
  | ok y =>
    obtain ⟨i, stall⟩ := y
    have hbehind : leavesBehind i stall v = true := hshot
    unfold leavesBehind at hbehind
    rw [Bool.and_eq_true, Bool.and_eq_true, Option.any_eq_true] at hbehind
    obtain ⟨⟨⟨r, hresult, hr⟩, hclosed⟩, hnone⟩ := hbehind
    have hturns := togetherBy_takeTurns earlyTurns (feed i stall [[0]]) work v
    rw [eq_done_of_result? hresult] at hturns
    cases r with
    | ok x => cases hr
    | error e =>
      have hreaches : Reaches {} overrunning [0, 0] i _ _ _ _ :=
        ⟨rfl, [0], [[0]], t₀, stall, v, rfl, alone_of_trace hlead, hturns⟩
      exact ⟨i, _, e, _, _, hreaches, by simpa using hclosed, Option.isNone_iff_eq_none.1 hnone⟩

end DisplayList.Replay
