import DisplayList.Proofs.Steering
import DisplayList.Proofs.Transparency

/-!
# The account of the lists

On the builtin engine every list that is not done is queued, once, but for those that are away: the
list that the engine runs, and the list that the pool is about to hand over. A slot that was reset
has nothing of a list left, and no word can be fetched from it.

* `Slot.AtRest`, `Slot.Stays`: slots with nothing of a list left, and changes that take a slot
  neither into use nor out of it;
* `Action.SparesQueue`, **`Action.nodup_perform`**: actions that leave the queue as it is; none
  queues a list twice;
* `FrontEnd.Accounts` and its rules: `Accounts.perform`, `Accounts.change_away`,
  **`Accounts.enqueue`**, **`Accounts.dequeue`**, `Accounts.withdraw`;
* **`Underway`**: what the engine does quietly keeps the account while it runs a list.
-/

namespace DisplayList

/-! ## Slots that were reset -/

namespace Slot

variable {s s' : Slot}

/-- Nothing of a list is left in the slot. -/
structure AtRest (s : Slot) : Prop where
  isDone : s.isDone = true
  /-- There is no memory where the slot would go on. -/
  pc : s.pc = 0
  source : s.fetcher.source = .unset

theorem atRest_reset (s : Slot) : s.reset.AtRest :=
  ⟨rfl, rfl, rfl⟩

/-- The slot is taken neither into use nor out of it. -/
structure Stays (s s' : Slot) : Prop where
  isDone : s'.isDone = s.isDone
  reset : s'.flags.reset = s.flags.reset
  /-- What was reset has nothing of a list left. -/
  atRest : s.flags.reset = true → s.AtRest → s'.AtRest

theorem Stays.refl (s : Slot) : s.Stays s :=
  ⟨rfl, rfl, fun _ h => h⟩

theorem stays_of_eq (hstatus : s'.status = s.status) (hreset : s'.flags.reset = s.flags.reset)
    (hpc : s'.pc = s.pc) (hfetcher : s'.fetcher = s.fetcher) : s.Stays s' where
  isDone := congrArg Status.isOver hstatus
  reset := hreset
  atRest _ h := by
    refine ⟨?_, hpc.trans h.pc, ?_⟩
    · unfold isDone
      rw [hstatus]
      exact h.isDone
    · rw [hfetcher]
      exact h.source

theorem stays_moveStall (s : Slot) (a : Address) : s.Stays (s.moveStall a).2 := by
  unfold moveStall
  dsimp only
  split
  · exact .refl s
  · exact stays_of_eq rfl rfl rfl rfl

theorem AtRest.not_isStalled (h : s.AtRest) : s.isStalled = false := by
  simp only [isStalled, h.pc, Bool.and_eq_false_imp, beq_iff_eq]
  rintro hs
  simp [← hs]

theorem AtRest.tryAccess (h : s.AtRest) (m : Memory) (a : Access) :
    s.tryAccess m a = (.inl 0, s) := by
  have hw : s.fetcher.wanted s.pc = some 0 := by
    simp only [Fetcher.wanted, h.source, h.pc]
  simp only [Slot.tryAccess, hw]

end Slot

theorem Change.Quiet.reset_perform {c : Change} (hc : c.Quiet) (s : Slot) :
    (c.perform s).2.flags.reset = s.flags.reset := by
  rw [Change.flags_perform]
  cases c with
  | init | reset => exact hc.elim
  | _ => rfl

/-! ## The queue -/

namespace FrontEnd

variable (w : FrontEnd) (i : Nat)

theorem queue_notify_or (n : Notice) :
    (w.notify i n).queue = (w.tellEngine i n).queue ∨ (w.notify i n).queue = w.queue := by
  have hr : ∀ (v : FrontEnd) r n, (v.tellRenderer r i n).queue = v.queue := by
    intro v r n
    obtain ⟨events, journal, h⟩ := tellRenderer_frame v i r n
    rw [h]
  unfold notify
  split
  · exact .inl rfl
  · exact .inr (hr ..)
  · split
    · exact .inl (hr ..)
    · exact .inl rfl
    · exact .inr (hr ..)
    · exact .inl rfl

theorem queue_notify {n : Notice} (hreset : n ≠ .reset) (hsubmitted : ∀ p, n ≠ .submitted p) :
    (w.notify i n).queue = w.queue := by
  refine (w.queue_notify_or i n).elim (fun h => h.trans ?_) fun h => h
  cases n with
  | reset => exact absurd rfl hreset
  | submitted p => exact absurd rfl (hsubmitted p)
  | _ => rfl

variable {w}

theorem nodup_enqueue (h : w.queue.Nodup) (p : Placement) : (w.enqueue i p).queue.Nodup := by
  have hnot : i ∉ w.queue.filter (· != i) := by simp
  cases p with
  | tail =>
    refine List.nodup_append.2 ⟨h.filter _, by simp, fun j hj k hk => ?_⟩
    rintro rfl
    exact hnot (List.mem_singleton.1 hk ▸ hj)
  | head => exact List.nodup_cons.2 ⟨hnot, h.filter _⟩

theorem nodup_tellEngine (h : w.queue.Nodup) (n : Notice) : (w.tellEngine i n).queue.Nodup := by
  cases n with
  | reset => exact h.filter _
  | submitted p => exact nodup_enqueue i h p
  | _ => exact h

end FrontEnd

namespace Action

/-- The action leaves the queue of the engine as it is. -/
def SparesQueue : Action → Prop
  | enqueue .. | dequeue | withdraw _ | notify _ .reset | notify _ (.submitted _) => False
  | _ => True

variable {a : Action} {w : FrontEnd} {i : Nat}

theorem queue_perform (ha : a.SparesQueue) : (a.perform w).2.queue = w.queue := by
  cases a with
  | write a ws =>
    obtain ⟨memory, h⟩ := write_frame w a ws
    rw [h]
  | notify j n =>
    have hn : n ≠ .reset ∧ ∀ p, n ≠ .submitted p := by
      constructor
      · rintro rfl
        exact ha
      · rintro p rfl
        exact ha
    exact w.queue_notify j hn.1 hn.2
  | enqueue | dequeue | withdraw => exact ha.elim
  | _ => rfl

/-- **No list is ever queued twice.** -/
theorem nodup_perform (a : Action) (h : w.queue.Nodup) : (a.perform w).2.queue.Nodup := by
  by_cases ha : a.SparesQueue
  · rw [queue_perform ha]
    exact h
  cases a with
  | enqueue j p => exact FrontEnd.nodup_enqueue j h p
  | dequeue => exact h.sublist (List.tail_sublist _)
  | withdraw j => exact h.filter _
  | notify j n =>
    change (w.notify j n).queue.Nodup
    rcases w.queue_notify_or j n with hn | hn
    · rw [hn]
      exact FrontEnd.nodup_tellEngine j h n
    · rw [hn]
      exact h
  | _ => exact absurd trivial ha

theorem perform_settled (a : Action) (w : FrontEnd) :
    (a.perform w).2.backend = w.backend ∧ (a.perform w).2.poolSize = w.poolSize := by
  cases a with
  | write a ws =>
    obtain ⟨memory, h⟩ := write_frame w a ws
    rw [h]
    exact ⟨rfl, rfl⟩
  | notify j n =>
    obtain ⟨queue, events, journal, h⟩ := w.notify_frame j n
    change (w.notify j n).backend = w.backend ∧ (w.notify j n).poolSize = w.poolSize
    rw [h]
    exact ⟨rfl, rfl⟩
  | _ => exact ⟨rfl, rfl⟩

theorem Steers.sparesQueue (ha : a.Steers i) : a.SparesQueue := by
  rcases ha with ha | ⟨s, rfl⟩
  · cases a with
    | notify j n =>
      rw [ha.2]
      trivial
    | enqueue | dequeue | withdraw => exact ha.elim
    | _ => trivial
  · trivial

theorem Quiet.reset_onto (ha : a.Quiet i) (j : Nat) (m : Memory) (s : Slot) :
    (a.onto j m s).flags.reset = s.flags.reset := by
  by_cases hc : ∃ c, a = .change j c
  · obtain ⟨c, rfl⟩ := hc
    rw [onto_change, if_pos rfl]
    exact ha.2.reset_perform s
  · rw [flags_onto fun c he => hc ⟨c, he⟩]

theorem Quiet.stays (ha : a.Quiet i) {j : Nat} {s : Slot} (h : j = i → s.flags.reset = false)
    (m : Memory) : s.Stays (a.onto j m s) := by
  by_cases hj : j = i
  · refine ⟨?_, ha.reset_onto j m s, fun hr => ?_⟩
    · exact congrArg Status.isOver (ha.status_onto j m s)
    · rw [h hj] at hr
      cases hr
  · rw [Steers.onto_ne (.inl ha) hj]
    exact .refl s

end Action

theorem isDone_change {i : Nat} {c : Change} (hc : ∀ s : Slot, (c.perform s).2.isDone = true)
    (w : FrontEnd) : (((Action.change i c).perform w).2.slot i).isDone = true := by
  rw [Action.slot_perform]
  split
  · rw [Action.onto_change, if_pos rfl]
    exact hc _
  · rw [FrontEnd.slot_of_le w i (by omega)]
    rfl

/-! ## The account -/

namespace FrontEnd

/-- On the builtin engine every list that is not done is queued, those `away` apart; none is queued
twice. -/
structure Accounts (away : List Nat) (w : FrontEnd) : Prop where
  backend : w.backend = .engine
  nodup : w.queue.Nodup
  queued : ∀ j, (w.slot j).isDone = false → j ∉ away → j ∈ w.queue
  /-- Nothing of a list is left in a slot that was reset. -/
  atRest : ∀ j, (w.slot j).flags.reset = true → (w.slot j).AtRest

/-- The list at position `i` is away, and was not reset. -/
structure Underway (i : Nat) (w : FrontEnd) : Prop where
  accounts : w.Accounts [i]
  inUse : (w.slot i).flags.reset = false

namespace Accounts

variable {w v : FrontEnd} {away : List Nat} {i : Nat}

theorem of_fresh (hfresh : w.Fresh) (hbackend : w.backend = .engine) (hqueue : w.queue = []) :
    w.Accounts [] where
  backend := hbackend
  nodup := by simp [hqueue]
  queued j hj _ := by
    obtain ⟨id, h⟩ := hfresh j
    rw [h] at hj
    cases hj
  atRest j _ := by
    obtain ⟨id, h⟩ := hfresh j
    rw [h]
    exact Slot.atRest_reset _

theorem selected (h : w.Accounts away) : w.selected? = none := by
  simp only [selected?, h.backend]

theorem mono {away' : List Nat} (h : w.Accounts away) (hle : away ⊆ away') : w.Accounts away' :=
  ⟨h.backend, h.nodup, fun j hj ha => h.queued j hj fun hm => ha (hle hm), h.atRest⟩

theorem back (h : w.Accounts (i :: away)) (hi : i ∈ w.queue ∨ (w.slot i).isDone = true) :
    w.Accounts away := by
  refine ⟨h.backend, h.nodup, fun j hj ha => ?_, h.atRest⟩
  by_cases he : j = i
  · subst he
    rcases hi with hi | hi
    · exact hi
    · rw [hi] at hj
      cases hj
  · exact h.queued j hj (by simp [he, ha])

theorem congr (h : w.Accounts away) (hbackend : v.backend = w.backend) (hqueue : v.queue = w.queue)
    (hslot : ∀ j, (w.slot j).Stays (v.slot j)) : v.Accounts away where
  backend := hbackend.trans h.backend
  nodup := hqueue.symm ▸ h.nodup
  queued j hj ha := by
    rw [hqueue]
    exact h.queued j ((hslot j).isDone.symm.trans hj) ha
  atRest j hj :=
    have hr : (w.slot j).flags.reset = true := (hslot j).reset.symm.trans hj
    (hslot j).atRest hr (h.atRest j hr)

theorem perform (h : w.Accounts away) {a : Action} (ha : a.SparesQueue)
    (hslot : ∀ j, (w.slot j).Stays (a.onto j w.memory (w.slot j))) :
    (a.perform w).2.Accounts away := by
  refine h.congr (a.perform_settled w).1 (a.queue_perform ha) fun j => ?_
  exact Action.slot_perform_of (.refl _) (hslot j)

theorem tell (h : w.Accounts away) (m : Report) : (w.tell m).2.Accounts away := by
  obtain ⟨host, journal, hm⟩ := w.tell_frame m
  rw [hm]
  exact h.congr rfl rfl fun j => .refl _

theorem change (h : w.Accounts away) {c : Change} (hc : ∀ s : Slot, s.Stays (c.perform s).2) :
    ((Action.change i c).perform w).2.Accounts away := by
  refine h.perform trivial fun j => ?_
  rw [Action.onto_change]
  split
  · exact hc _
  · exact .refl _

theorem change_away (h : w.Accounts away) {c : Change}
    (hc : (c.perform (w.slot i)).2.flags.reset = true → (c.perform (w.slot i)).2.AtRest) :
    ((Action.change i c).perform w).2.Accounts (i :: away) := by
  refine ⟨h.backend, h.nodup, fun j hj ha => ?_, fun j => ?_⟩
  · have hne : ¬ i = j := fun he => ha (by simp [he])
    rw [Action.slot_perform, Action.onto_change, if_neg hne, ite_self] at hj
    exact h.queued j hj fun hm => ha (by simp [hm])
  · refine Action.slot_perform_of (P := fun s => s.flags.reset = true → s.AtRest) (h.atRest j) ?_
    rw [Action.onto_change]
    split
    next he =>
      subst he
      exact hc
    next => exact h.atRest j

theorem init (h : w.Accounts away) (sub : Submission) :
    ((Action.change i (.init sub)).perform w).2.Accounts (i :: away) :=
  h.change_away fun hr => by cases hr

theorem enqueue (h : w.Accounts (i :: away)) (p : Placement) : (w.enqueue i p).Accounts away := by
  have hmem : ∀ j, j ∈ (w.enqueue i p).queue ↔ j = i ∨ j ∈ w.queue := by
    intro j
    by_cases hj : j = i
    · cases p <;> simp [FrontEnd.enqueue, hj]
    · cases p <;> simp [FrontEnd.enqueue, hj]
  refine ⟨h.backend, nodup_enqueue i h.nodup p, fun j hj ha => (hmem j).2 ?_, h.atRest⟩
  by_cases he : j = i
  · exact .inl he
  · exact .inr (h.queued j hj (by simp [he, ha]))

theorem dequeue (h : w.Accounts away) (hi : w.queue.head? = some i) :
    w.dequeue.2.Accounts (i :: away) := by
  obtain ⟨rest, hq⟩ := List.head?_eq_some_iff.1 hi
  have htail : w.dequeue.2.queue = rest := by simp [FrontEnd.dequeue, hq]
  refine ⟨h.backend, ?_, fun j hj ha => ?_, h.atRest⟩
  · rw [htail]
    exact (List.nodup_cons.1 (hq ▸ h.nodup)).2
  · rw [htail]
    have hmem := h.queued j hj fun hm => ha (by simp [hm])
    rw [hq] at hmem
    exact (List.mem_cons.1 hmem).resolve_left fun he => ha (by simp [he])

theorem withdraw (h : w.Accounts away) (hi : (w.slot i).isDone = true) :
    (w.withdraw i).2.Accounts away := by
  refine ⟨h.backend, h.nodup.filter _, fun j hj ha => ?_, h.atRest⟩
  have hne : j ≠ i := by
    rintro rfl
    rw [show (w.slot j).isDone = false from hj] at hi
    cases hi
  exact List.mem_filter.2 ⟨h.queued j hj ha, by simp [hne]⟩

end Accounts

variable {w : FrontEnd} {i : Nat}

theorem Underway.perform (h : w.Underway i) {a : Action} (ha : a.Quiet i) :
    (a.perform w).2.Underway i where
  accounts := by
    refine h.accounts.perform (Action.Steers.sparesQueue (.inl ha)) fun j => ?_
    refine ha.stays (fun he => ?_) w.memory
    rw [he]
    exact h.inUse
  inUse := by
    refine Action.slot_perform_of (P := fun s => s.flags.reset = false) h.inUse ?_
    rw [ha.reset_onto]
    exact h.inUse

theorem Underway.tell (h : w.Underway i) (m : Report) : (w.tell m).2.Underway i where
  accounts := h.accounts.tell m
  inUse := by
    rw [slot_tell]
    exact h.inUse

theorem Underway.setStatus (h : w.Underway i) (s : Status) :
    ((Action.change i (.setStatus s)).perform w).2.Underway i where
  accounts := by
    refine (h.accounts.change_away fun hr => ?_).mono (by simp)
    cases hr.symm.trans h.inUse
  inUse := by
    refine Action.slot_perform_of (P := fun s => s.flags.reset = false) h.inUse ?_
    rw [Action.onto_change, if_pos rfl]
    exact h.inUse

end FrontEnd

end DisplayList
