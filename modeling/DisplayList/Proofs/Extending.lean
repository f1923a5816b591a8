import DisplayList.Proofs.Accounting
import DisplayList.Proofs.Streaming

/-!
# The producer, as the worker sees it

The worker relies on little of the producer: it leaves the queue alone and runs no list, it does
nothing once it is done, and it is done only when the stall address is the end of the whole list.
This is so whatever the words are, and also if some of them find no room.

* `flatten_chunks`, `ne_nil_of_mem_chunks`: the chunks of a list;
* `Extends`: what the producer does to a list, as the worker sees it;
* **`keeps_feed`**: the producer does nothing else, and is done exactly if all words found room.
-/

namespace DisplayList

/-! ## Chunks -/

namespace Replay

variable {size n : Nat} {words chunk : List UInt32}

theorem flatten_chunksUpTo (hsize : 0 < size) (hn : words.length ≤ n) :
    (chunksUpTo size n words).flatten = words := by
  induction n generalizing words with
  | zero => exact (List.length_eq_zero_iff.1 (Nat.le_zero.1 hn)).symm
  | succ n ih =>
    cases words with
    | nil => rfl
    | cons word rest =>
      have hdrop : ((word :: rest).drop size).length ≤ n := by
        rw [List.length_drop]
        omega
      change (word :: rest).take size ++ (chunksUpTo size n ((word :: rest).drop size)).flatten = _
      rw [ih hdrop, List.take_append_drop]

theorem ne_nil_of_mem_chunksUpTo (hsize : 0 < size) (h : chunk ∈ chunksUpTo size n words) :
    chunk ≠ [] := by
  induction n generalizing words with
  | zero => cases h
  | succ n ih =>
    cases words with
    | nil => cases h
    | cons word rest =>
      rcases List.mem_cons.1 h with rfl | h
      · intro he
        rcases List.take_eq_nil_iff.1 he with he | he
        · omega
        · cases he
      · exact ih h

/-- **The chunks of a list** are the list. -/
theorem flatten_chunks (size : Nat) (words : List UInt32) :
    (chunks size words).flatten = words :=
  flatten_chunksUpTo (by omega) (Nat.le_refl _)

theorem ne_nil_of_mem_chunks (h : chunk ∈ chunks size words) : chunk ≠ [] :=
  ne_nil_of_mem_chunksUpTo (by omega) h

end Replay

/-! ## What the worker sees -/

variable {i : Nat} {stop a : Address} {v u w : FrontEnd}

/-- What the producer does to the list at position `i`, as the worker sees it. -/
structure Extends (i : Nat) (stop : Address) (v u : FrontEnd) : Prop where
  /-- It is not done yet. -/
  unclosed : v.closed = false
  size : u.slots.size = v.slots.size
  queue : u.queue = v.queue
  pc : (u.slot i).pc = (v.slot i).pc
  status : (u.slot i).status = (v.slot i).status
  flags : (u.slot i).flags = (v.slot i).flags
  /-- It is done only when it has handed over the whole list. -/
  stall : u.closed = true → (u.slot i).stall = stop

/-- The move is one of the producer's. -/
def Move.Extends (i : Nat) (stop : Address) (m : Move) : Prop :=
  DisplayList.Extends i stop m.before m.after

/-- An action of the producer of the list at position `i`. -/
def Action.Extends (i : Nat) : Action → Prop
  | write .. | close => True
  | change j (.moveStall _) | change j .postWake => j = i
  | notify j n => j = i ∧ n = .stallMoved
  | _ => False

theorem Action.Extends.sparesQueue {x : Action} (hx : x.Extends i) : x.SparesQueue := by
  cases x with
  | notify j n =>
    rw [hx.2]
    trivial
  | enqueue | dequeue | withdraw => exact hx.elim
  | _ => trivial

theorem Action.Extends.onto_frame {x : Action} (hx : x.Extends i) (m : Memory) (s : Slot) :
    ∃ stall wake, x.onto i m s = { s with stall, wake } := by
  have hsame : ∃ stall wake, s = { s with stall, wake } := ⟨s.stall, s.wake, rfl⟩
  cases x with
  | change j c =>
    cases c with
    | moveStall b =>
      rw [onto_change]
      split
      · exact ⟨_, s.wake, s.moveStall_eq b⟩
      · exact hsame
    | postWake =>
      rw [onto_change]
      split
      · exact ⟨s.stall, _, rfl⟩
      · exact hsame
    | _ => exact hx.elim
  | await | access | accessWith => exact hx.elim
  | _ => exact hsame

theorem Action.Extends.move {x : Action} (hx : x.Extends i) (hw : w.closed = false)
    (hdone : (x.perform w).2.closed = true → ((x.perform w).2.slot i).stall = stop) :
    Move.Extends i stop (.act x w) := by
  have hslot : ∃ stall wake, (x.perform w).2.slot i = { w.slot i with stall, wake } := by
    rw [Action.slot_perform]
    split
    · exact hx.onto_frame w.memory (w.slot i)
    · exact ⟨(w.slot i).stall, (w.slot i).wake, rfl⟩
  obtain ⟨stall, wake, hs⟩ := hslot
  change DisplayList.Extends i stop w (x.perform w).2
  refine ⟨hw, Action.size_perform .., Action.queue_perform hx.sparesQueue, ?_, ?_, ?_, hdone⟩
  · rw [hs]
  · rw [hs]
  · rw [hs]

/-! ## The producer -/

namespace Replay

open Process

variable {t : List Move}

/-- The producer has handed over all words before `a`, and is not done. -/
structure Extending (i : Nat) (stop a : Address) (t : List Move) (w : FrontEnd) : Prop where
  moves : All (Move.Extends i stop) t
  stall : (w.slot i).stall = a
  size : i < w.slots.size
  unclosed : w.closed = false

theorem stable_extending : Stable (Runs i) (Extending i stop a) := by
  intro t w v ho hw
  refine ⟨hw.moves, ho.stall.trans hw.stall, ?_, ho.closed.trans hw.unclosed⟩
  rw [ho.size]
  exact hw.size

theorem Extending.snoc {x : Action} {b : Address} (h : Extending i stop a t w) (hx : x.Extends i)
    (hopen : (x.perform w).2.closed = w.closed) (hb : ((x.perform w).2.slot i).stall = b) :
    Extending i stop b (t ++ [.act x w]) (x.perform w).2 := by
  have hclosed := hopen.trans h.unclosed
  refine ⟨all_snoc h.moves (hx.move h.unclosed fun hc => ?_), hb, ?_, hclosed⟩
  · rw [hclosed] at hc
    cases hc
  · rw [Action.size_perform]
    exact h.size

theorem closed_write (w : FrontEnd) (b : Address) (words : List UInt32) :
    ((Action.write b words).perform w).2.closed = w.closed := by
  obtain ⟨memory, h⟩ := Action.write_frame w b words
  rw [h]

theorem closed_notify (w : FrontEnd) (j : Nat) (n : Notice) :
    ((Action.notify j n).perform w).2.closed = w.closed := by
  obtain ⟨queue, events, journal, h⟩ := w.notify_frame j n
  change (w.notify j n).closed = w.closed
  rw [h]

theorem keeps_extending : Keeps (Runs i) (Extending i stop a) (.done ())
    (All (Move.Extends i stop)) fun _ => Extending i stop a :=
  keeps_stay stable_extending (fun _ _ h => h.moves) fun _ _ h => h

theorem keeps_woken : Keeps (Runs i) (Extending i stop a) (Operation.stallMoved i)
    (All (Move.Extends i stop)) fun _ => Extending i stop a := by
  refine keeps_perform stable_extending (fun _ _ h => h.moves) fun t w hw => ?_
  have hnotified := hw.snoc (x := .notify i .stallMoved) ⟨rfl, rfl⟩ (closed_notify ..)
    ((congrArg Slot.stall (FrontEnd.slot_congr w i (w.slots_notify i _))).trans hw.stall)
  refine Keeps.now ?_ hnotified
  refine keeps_act stable_extending (fun _ _ h => h.moves) fun t w hw => ?_
  have hposted : (((Action.change i .postWake).perform w).2.slot i).stall = a :=
    Action.slot_perform_of (P := fun s => s.stall = a) hw.stall (by
      rw [Action.onto_change, if_pos rfl]
      exact hw.stall)
  exact keeps_extending.now (hw.snoc (x := .change i .postWake) rfl rfl hposted)

theorem keeps_setStall {b : Address} (hb : Address.aligned b = b) :
    Keeps (Runs i) (Extending i stop a) (Operation.setStall i b) (All (Move.Extends i stop))
      fun _ => Extending i stop b := by
  refine keeps_perform stable_extending (fun _ _ h => h.moves) fun t w hw => ?_
  have hmoved : (((Action.change i (.moveStall b)).perform w).2.slot i).stall = b := by
    rw [Action.slot_perform, if_pos hw.size, Action.onto_change, if_pos rfl]
    change ((w.slot i).moveStall b).2.stall = b
    rw [Slot.moveStall_eq]
    exact hb
  have hnow := hw.snoc (x := .change i (.moveStall b)) rfl rfl hmoved
  split
  · exact keeps_woken.now hnow
  · exact keeps_extending.now hnow

/-- **The producer**, from `a` on: it extends the list as the worker expects it, and is done exactly
if all words found room. -/
theorem keeps_feed {chunks : List (List UInt32)} (hchunks : ∀ chunk ∈ chunks, chunk ≠ [])
    (ha : Address.aligned a = a) (hstop : stop = a + 4 * UInt32.ofNat chunks.flatten.length) :
    Keeps (Runs i) (Extending i stop a) (feed i a chunks) (All (Move.Extends i stop))
      fun r _ u => u.closed = r.isOk := by
  induction chunks generalizing a with
  | nil =>
    refine keeps_perform stable_extending (fun _ _ h => h.moves) fun t w hw => ?_
    have hend : (w.slot i).stall = stop := by
      rw [hw.stall, hstop]
      simp
    have hclose : Action.Extends i .close := trivial
    have hmoves := all_snoc hw.moves (hclose.move hw.unclosed fun _ => hend)
    have hst : Stable (Runs i) fun t u => All (Move.Extends i stop) t ∧ u.closed = true :=
      fun _ _ _ ho h => ⟨h.1, ho.closed.trans h.2⟩
    exact (keeps_stay hst (fun _ _ h => h.1) fun _ _ h => h.2).now ⟨hmoves, rfl⟩
  | cons chunk rest ih =>
    have hchunk := hchunks chunk List.mem_cons_self
    have hlater : ∀ c ∈ rest, c ≠ [] := fun c hc => hchunks c (List.mem_cons_of_mem _ hc)
    refine keeps_act (a := .write a chunk) stable_extending (fun _ _ h => h.moves) fun t w hw => ?_
    have hwritten := hw.snoc (x := .write a chunk) trivial (closed_write ..)
      (Action.slot_perform_of (P := fun s => s.stall = a) hw.stall hw.stall)
    cases hm : w.memory.writeWords a chunk with
    | error f =>
      rw [Action.perform_write_error hm] at hwritten ⊢
      have hfailed : Keeps (Runs i) (Extending i stop a)
          (.done (.error (.load a f)) : Process (Except Error Unit)) (All (Move.Extends i stop))
          fun r _ u => u.closed = r.isOk :=
        keeps_stay stable_extending (fun _ _ h => h.moves) fun _ _ h => h.unclosed
      exact hfailed.now hwritten
    | ok m =>
      rw [Action.perform_write_ok hm] at hwritten ⊢
      obtain ⟨hspans, -⟩ := spans_of_writeWords ha hchunk hm
      refine Keeps.now ?_ hwritten
      change Keeps _ _ (Operation.setStall i (a + 4 * UInt32.ofNat chunk.length) >>= fun _ =>
        feed i (a + 4 * UInt32.ofNat chunk.length) rest) _ _
      refine keeps_bind (keeps_setStall hspans.aligned_stop) fun _ => ?_
      refine ih hlater hspans.aligned_stop ?_
      rw [hstop, List.flatten_cons, List.length_append, UInt32.ofNat_add, UInt32.mul_add,
        UInt32.add_assoc]

end Replay

end DisplayList
