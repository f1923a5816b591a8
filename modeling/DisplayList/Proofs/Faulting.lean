import DisplayList.Proofs.Access
import DisplayList.Proofs.Accounting
import DisplayList.Proofs.Rounds

/-!
# Lists without a next word

A list for whose next word there is no memory fails, and goes back to the head of the queue. If
nobody touches it and the queued lists are run again, it fails as before: the search for a cursor
and the read through it leave the instruction address where it is.

* `Spares`: what others leave alone;
* `Slot.Faults`: there is no memory for the next word; `Slot.access_next`, `Slot.accessWith_next`:
  no fetch fails otherwise;
* `Sticks` and its rules: what a process that runs such a list does;
* **`attains_drain`**: the run of the queued lists comes to an end, fails with the same fault and
  fetches no word.
-/

namespace DisplayList

variable {i : Nat} {f : Memory.Fault}

/-! ## What others leave alone -/

/-- Memory, the queue and the list at position `i` are left alone. -/
structure Spares (i : Nat) (w v : FrontEnd) : Prop where
  memory : v.memory = w.memory
  queue : v.queue = w.queue
  pc : (v.slot i).pc = (w.slot i).pc
  calls : (v.slot i).calls = (w.slot i).calls
  fetcher : (v.slot i).fetcher = (w.slot i).fetcher
  stall : (v.slot i).stall = (w.slot i).stall
  status : (v.slot i).status = (w.slot i).status
  paused : (v.slot i).flags.paused = (w.slot i).flags.paused
  reset : (v.slot i).flags.reset = (w.slot i).flags.reset

namespace Slot

/-- The list may run: it was not reset and is not done. -/
structure Live (s : Slot) : Prop where
  reset : s.flags.reset = false
  isDone : s.isDone = false

/-- The list runs its next word. -/
structure Ready (s : Slot) : Prop extends s.Live where
  paused : s.flags.paused = false
  stalled : s.isStalled = false

/-- There is no memory for the next word: no cursor can be found for it, or the cursor at hand has
nothing to read. -/
def Faults (s : Slot) (m : Memory) (f : Memory.Fault) : Prop :=
  (∃ a, s.fetcher.wanted s.pc = some a ∧ Cursor.openAt a 4 = .error f) ∨
    s.fetcher.wanted s.pc = none ∧ ∃ c, s.fetcher.cursor? = some c ∧ c.read m = .error f

variable {s s' : Slot} {m : Memory}

/-- **A fetch through the cursor at hand** moves on by a word, or faults and leaves the slot. -/
theorem access_next (hw : s.fetcher.wanted s.pc = none) {r : Except Failure UInt32}
    (h : s.access m .next = (r, s')) :
    (∃ word, r = .ok word) ∨ ∃ f, r = .error (.memory f) ∧ s' = s ∧ s.Faults m f := by
  obtain ⟨c, hc⟩ := Fetcher.cursor_of_wanted hw
  unfold access at h
  simp only [hc] at h
  split at h
  next f hf =>
    cases h
    exact .inr ⟨f, rfl, rfl, .inr ⟨hw, c, hc, hf⟩⟩
  next word c' hr =>
    cases h
    exact .inl ⟨word, rfl⟩

theorem tryAccess_next {r : Except Failure UInt32} (h : s.tryAccess m .next = (.inr r, s')) :
    (∃ word, r = .ok word) ∨ ∃ f, r = .error (.memory f) ∧ s' = s ∧ s.Faults m f := by
  unfold tryAccess at h
  split at h
  · cases h
  next hw =>
    cases h
    exact access_next hw rfl

theorem accessWith_next {a : Address} {c : Cursor} {r : Except Failure UInt32}
    (h : s.accessWith m a c .next = (some r, s')) :
    (∃ word, r = .ok word) ∨
      ∃ f fetcher, r = .error (.memory f) ∧ s' = { s with fetcher } ∧ s'.Faults m f := by
  unfold accessWith at h
  split at h
  · cases h
  next fetcher hf =>
    have hw : fetcher.wanted s.pc = none := by
      unfold Fetcher.install? at hf
      split at hf
      · split at hf
        · cases hf
          rfl
        · cases hf
      next hw =>
        cases hf
        exact hw
    generalize hx : access { s with fetcher } m .next = x at h
    obtain ⟨r', s''⟩ := x
    cases h
    rcases access_next hw hx with hword | ⟨f, hr, rfl, hfaults⟩
    · exact .inl hword
    · exact .inr ⟨f, fetcher, hr, rfl, hfaults⟩

/-- **A fetch where there is no memory.** -/
theorem Faults.tryAccess (h : s.Faults m f) :
    (∃ a, s.tryAccess m .next = (.inl a, s) ∧ Cursor.openAt a 4 = .error f) ∨
      s.tryAccess m .next = (.inr (.error (.memory f)), s) := by
  rcases h with ⟨a, hw, hopen⟩ | ⟨hw, c, hc, hr⟩
  · exact .inl ⟨a, by simp only [Slot.tryAccess, hw], hopen⟩
  · right
    simp only [Slot.tryAccess, hw, access, hc, hr]

end Slot

namespace Spares

variable {w v : FrontEnd} (h : Spares i w v)

include h in
theorem live (hw : (w.slot i).Live) : (v.slot i).Live where
  reset := h.reset.trans hw.reset
  isDone := (congrArg Status.isOver h.status).trans hw.isDone

include h in
theorem ready (hw : (w.slot i).Ready) : (v.slot i).Ready where
  toLive := h.live hw.toLive
  paused := h.paused.trans hw.paused
  stalled := by
    have hstalled := hw.stalled
    unfold Slot.isStalled at hstalled ⊢
    rw [h.pc, h.stall]
    exact hstalled

include h in
theorem faults (hw : (w.slot i).Faults w.memory f) : (v.slot i).Faults v.memory f := by
  unfold Slot.Faults
  rw [h.pc, h.fetcher, h.memory]
  exact hw

end Spares

namespace Process

open Engine

variable {α : Type}

/-! ## A list that has no next word -/

/-- So far no word was fetched, and the list is about to fail. -/
def Stuck (i : Nat) (f : Memory.Fault) : Assertion :=
  fun t w => All (fun m => ¬ m.Fetches i) t ∧ (w.slot i).Ready ∧ (w.slot i).Faults w.memory f

theorem stable_stuck : Stable (Spares i) (Stuck i f) :=
  fun _ _ _ h hw => ⟨hw.1, h.ready hw.2.1, h.faults hw.2.2⟩

theorem Stuck.snoc {t : List Move} {w v : FrontEnd} {m : Move} (h : Stuck i f t w)
    (hm : ¬ m.Fetches i) (hslot : (v.slot i).Ready ∧ (v.slot i).Faults w.memory f)
    (hmemory : v.memory = w.memory) : Stuck i f (t ++ [m]) v :=
  ⟨all_snoc h.1 hm, hslot.1, hmemory ▸ hslot.2⟩

/-- What is to be shown of a process that runs the list. -/
abbrev Sticks (i : Nat) (f : Memory.Fault) (p : Process α) (Q : α → Assertion) : Prop :=
  Attains (Spares i) (Stuck i f) p (All fun m => ¬ m.Fetches i) Q

variable {Q : α → Assertion}

theorem sticks_done {a : α} (h : ∀ t w, Stuck i f t w → Q a t w) : Sticks i f (.done a) Q :=
  attains_stay stable_stuck (fun _ _ hw => hw.1) h

theorem sticks_look {k : Slot → Process α} (h : ∀ s : Slot, s.Ready → Sticks i f (k s) Q) :
    Sticks i f (look i >>= k) Q := by
  refine attains_perform stable_stuck (fun _ _ hw => hw.1) fun t w hw => ?_
  refine (h _ hw.2.1).now (hw.snoc ?_ hw.2 rfl)
  rintro ⟨word, hf⟩
  cases hf

theorem sticks_change {c : Change} {k : c.Answer → Process α}
    (hc : ∀ (s : Slot) (m : Memory), s.Ready ∧ s.Faults m f →
      (c.perform s).2.Ready ∧ (c.perform s).2.Faults m f)
    (h : ∀ r, Sticks i f (k r) Q) : Sticks i f (change i c >>= k) Q := by
  refine attains_perform stable_stuck (fun _ _ hw => hw.1) fun t w hw => ?_
  refine (h _).now (hw.snoc ?_ ?_ rfl)
  · rintro ⟨word, hf⟩
    cases hf
  · refine Action.slot_perform_of (P := fun s => s.Ready ∧ s.Faults w.memory f) hw.2 ?_
    rw [Action.onto_change, if_pos rfl]
    exact hc _ _ hw.2

theorem sticks_bind {β : Type} {p : Process β} {b : β} {k : β → Process α}
    (hp : Sticks i f p fun r t w => r = b ∧ Stuck i f t w) (hk : Sticks i f (k b) Q) :
    Sticks i f (p >>= k) Q := by
  refine attains_bind hp fun r => ?_
  by_cases hr : r = b
  · rw [hr]
    exact hk.pre fun _ _ hw => hw.2
  · exact ⟨fun _ _ _ _ _ hw => absurd hw.1 hr, fun _ _ hw => absurd hw.1 hr⟩

/-- **The fetch fails**, and fetches nothing. -/
theorem sticks_next : Sticks i f (Operation.access i .next)
    fun r t w => r = .error (.memory f) ∧ Stuck i f t w := by
  refine attains_once stable_stuck (fun _ _ hw => hw.1) fun _ => ?_
  refine attains_perform stable_stuck (fun _ _ hw => hw.1) fun t w hw => ?_
  rcases hw.2.2.tryAccess with ⟨a, ha, hopen⟩ | ha
  · rw [perform_access ha, FrontEnd.setSlot_slot]
    have hnow : Stuck i f (t ++ [.act (.access i .next) w]) w := by
      refine hw.snoc ?_ hw.2 rfl
      rintro ⟨word, hf⟩
      cases hf with
      | access hr => rw [perform_access ha] at hr; cases hr
    refine Attains.now ?_ hnow
    simp only [hopen]
    refine attains_tell stable_stuck (fun _ _ hw => hw.1) fun t w hw => ?_
    refine Attains.now (sticks_done fun t w hw => ⟨rfl, hw⟩) (hw.snoc ?_ ?_ ?_)
    · rintro ⟨word, hf⟩
      cases hf
    · rw [FrontEnd.slot_tell]
      exact hw.2
    · obtain ⟨host, journal, ht⟩ := w.tell_frame (.cursor a 4)
      rw [ht]
  · rw [perform_access ha, FrontEnd.setSlot_slot]
    refine Attains.now (sticks_done fun t w hw => ⟨rfl, hw⟩) (hw.snoc ?_ hw.2 rfl)
    rintro ⟨word, hf⟩
    cases hf with
    | access hr => rw [perform_access ha] at hr; cases hr

theorem sticks_round (watched : Bool) : Sticks i f (round watched i)
    (Sum.elim (fun _ _ _ => False) fun r t w => r = .error (.memory f) ∧ Stuck i f t w) := by
  rw [round_eq]
  refine sticks_look fun s hs => ?_
  rw [if_neg (by simp [hs.paused])]
  refine sticks_look fun s hs => ?_
  rw [if_neg (by simp [hs.stalled])]
  exact sticks_bind sticks_next (sticks_done fun t w hw => ⟨rfl, hw⟩)

/-- The list is back at the head of the queue, and the run has failed. -/
def StuckAgain (i : Nat) (f : Memory.Fault) (r : Except Failure (List (Nat × Outcome))) :
    Assertion :=
  fun t w => r = .error (.memory f) ∧ Stuck i f t w ∧ w.queue.head? = some i

theorem stable_stuckAgain (r : Except Failure (List (Nat × Outcome))) :
    Stable (Spares i) (StuckAgain i f r) := by
  rintro t w v h ⟨hr, hw, hq⟩
  exact ⟨hr, stable_stuck t w v h hw, h.queue ▸ hq⟩

theorem sticks_enter (watched : Bool) (outcomes : List (Nat × Outcome)) :
    Sticks i f (enter watched i outcomes) (Sum.elim (fun _ _ _ => False) (StuckAgain i f)) := by
  refine sticks_change (fun s m hs => ⟨⟨⟨hs.1.reset, rfl⟩, hs.1.paused, hs.1.stalled⟩, hs.2⟩)
    fun _ => ?_
  rw [running_eq]
  have hrounds := attains_once (s := ()) (stable_stuck (i := i) (f := f)) (fun _ _ hw => hw.1)
    fun _ => sticks_round watched
  refine sticks_bind hrounds ?_
  refine attains_perform stable_stuck (fun _ _ hw => hw.1) fun t w hw => ?_
  have hnow : StuckAgain i f (.error (.memory f)) (t ++ [.act (.enqueue i .head) w])
      (w.enqueue i .head) := by
    refine ⟨rfl, hw.snoc ?_ hw.2 rfl, rfl⟩
    rintro ⟨word, hf⟩
    cases hf
  refine Attains.now (P := StuckAgain i f (.error (.memory f))) ?_ hnow
  exact attains_stay (stable_stuckAgain _) (fun _ _ hw => hw.2.1.1) fun _ _ hw => hw

/-- **A list that has no next word fails** when the queued lists are run, and is queued first
again. -/
theorem attains_drain (watched : Bool) :
    Attains (Spares i) (fun t w => Stuck i f t w ∧ w.queue.head? = some i) (drain watched)
      (All fun m => ¬ m.Fetches i) (StuckAgain i f) := by
  have hst : Stable (Spares i) fun t w => Stuck i f t w ∧ w.queue.head? = some i :=
    fun t w v h hw => ⟨stable_stuck t w v h hw.1, h.queue ▸ hw.2⟩
  rw [drain_eq]
  refine attains_once hst (fun _ _ hw => hw.1.1) fun outcomes => ?_
  refine attains_perform hst (fun _ _ hw => hw.1.1) fun t w hw => ?_
  have hnext : (Action.dequeue.perform w).1 = some i := hw.2
  have hnow : Stuck i f (t ++ [.act .dequeue w]) (Action.dequeue.perform w).2 := by
    refine hw.1.snoc ?_ hw.1.2 rfl
    rintro ⟨word, hf⟩
    cases hf
  rw [hnext]
  refine Attains.now ?_ hnow
  refine sticks_look fun s hs => ?_
  rw [if_neg (by simp [hs.reset]), runUnlessDone_eq]
  refine sticks_look fun s hs => ?_
  rw [if_neg (by simp [hs.isDone])]
  refine sticks_look fun s hs => ?_
  unfold enterUnlessReset
  rw [if_neg (by simp [hs.reset])]
  refine sticks_look fun s hs => ?_
  split
  · refine sticks_change (fun s m hs => ?_) fun _ => sticks_enter watched outcomes
    exact ⟨⟨⟨hs.1.reset, hs.1.isDone⟩, hs.1.paused, hs.1.stalled⟩, hs.2⟩
  · exact sticks_enter watched outcomes

end Process

end DisplayList
