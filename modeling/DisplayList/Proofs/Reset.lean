import DisplayList.Proofs.Access
import DisplayList.Proofs.Rounds
import DisplayList.Proofs.Steering
import DisplayList.Replay

/-!
# Lists reset while they run

A list that is reset is withdrawn from the queue, but the list that the engine runs is not in the
queue. The engine asks before it runs a list whether it was reset, and not again. Only where it is
about to leave the list for good is a reset heeded: elsewhere the engine goes on from the
instruction address that the reset has left, or fails there, and puts the list back.

* `Engine.Drops`: from here on the engine fetches no word of the list and does not queue it;
* `Engine.LetsGo`: the places from which it leaves a list that is reset there;
* **`drops_iff`**: these are all.
-/

namespace DisplayList

namespace Move

/-- The move puts the list at position `i` into the queue. -/
def Requeues (i : Nat) (m : Move) : Prop :=
  ∃ p w, m = .act (.enqueue i p) w

/-- What is not done to a list that was let go. -/
def HoldsOn (i : Nat) (m : Move) : Prop :=
  m.Fetches i ∨ m.Requeues i

end Move

namespace Engine

open Process

/-! ## Letting go -/

/-- While nobody touches the list, the engine at `q` does nothing more to it: it fetches no word of
it, does not queue it, and comes to no error. -/
def Drops (i : Nat) (q : Process Served) (w : FrontEnd) : Prop :=
  ∀ others : FrontEnd → FrontEnd → Prop, (∀ v u, others v u → u.slot i = v.slot i) →
    ∀ t q' u, Goes others q w t q' u →
      (∀ m ∈ t, ¬ m.HoldsOn i) ∧ ∀ e, q' = .done (.inr (.error e)) → q = q'

/-- The places in which the engine is about to leave the list. -/
inductive LetsGo (watched : Bool) (i : Nat) (outcomes : List (Nat × Outcome)) :
    Process Served → Prop
  /-- It has not asked yet whether the list was reset. -/
  | unasked : LetsGo watched i outcomes (serve watched i outcomes)
  /-- It has, but not yet whether the list is done. -/
  | halfAsked : LetsGo watched i outcomes (runUnlessDone watched i outcomes)
  /-- It has come to an END word, and looks at the word before that. -/
  | stopping (arg : UInt32) {p : Process (Except Failure UInt32)} :
    Left (Operation.access i .previous) p → (∀ r, p ≠ .done r) →
    LetsGo watched i outcomes ((p.bind (stopWith i arg)).bind (goOn watched i outcomes))
  /-- It has come to an END word that ends the list. -/
  | concluding {p : Process Outcome} :
    Left (conclude i) p →
    LetsGo watched i outcomes ((p.bind ended).bind (goOn watched i outcomes))
  /-- It has ended the list. -/
  | ended (outcome : Outcome) :
    outcome.isEnded = true → LetsGo watched i outcomes (leave i outcomes (.ok outcome))
  /-- It has left the list already. -/
  | gone (x : Served) : LetsGo watched i outcomes (.done x)

/-! ## Places from which the engine goes on -/

/-- Left alone, the engine at `q` comes to fetch a word of the list or to queue it. -/
def GoesOn (i : Nat) (q : Process Served) : Prop :=
  ∀ w, MayMake Nobody q w (Move.HoldsOn i)

variable {i : Nat} {outcomes : List (Nat × Outcome)} {watched : Bool} {α : Type}

theorem goesOn_act {a : Action} {k : a.Answer → Process Served} (h : ∀ r, GoesOn i (k r)) :
    GoesOn i (.act a k) :=
  fun _ => .act (h _ _)

theorem goesOn_of_leads {S : α → Prop} {p : Process α} {f : α → Process Served} (h : Leads S p)
    (hf : ∀ a, S a → GoesOn i (f a)) : GoesOn i (p.bind f) := by
  intro w
  obtain ⟨t, a, u, hg, ha⟩ := h.ends w
  exact MayMake.after (hg.bind f) (hf a ha u)

theorem goesOn_requeue {p : Placement} {k : Unit → Process Served} :
    GoesOn i (.act (.enqueue i p) k) :=
  fun w => .here (.inr ⟨p, w, rfl⟩)

/-- The run of the list did not end with an END word. -/
def NotEnded : Except Failure Outcome → Prop
  | .ok outcome => outcome.isEnded = false
  | .error _ => True

/-- **A list that has not ended is put back.** -/
theorem goesOn_leave {r : Except Failure Outcome} (h : NotEnded r) :
    GoesOn i (leave i outcomes r) := by
  cases r with
  | error e => exact goesOn_requeue
  | ok outcome =>
    refine goesOn_act fun s => ?_
    have hn : outcome.isEnded = false := h
    change GoesOn i (if outcome.isEnded then _ else _)
    rw [hn]
    exact goesOn_requeue

theorem goesOn_fetch {p : Process (Except Failure UInt32)}
    {f : Except Failure UInt32 → Process Served} (h : Ends i .next p)
    (hf : ∀ e, GoesOn i (f (.error e))) : GoesOn i (p.bind f) := by
  intro w
  obtain ⟨t, r, u, hg, ha⟩ := h w
  cases r with
  | error e => exact MayMake.after (hg.bind f) (hf e u)
  | ok word =>
    rcases ha with ⟨m, hm, ha⟩ | ⟨e, he⟩
    · exact ⟨t, _, u, hg.bind f, m, hm, .inl ⟨word, ha⟩⟩
    · cases he

/-! ### Rounds -/

theorem goesOn_dispatch {p : Process (Except Failure UInt32)} (h : Ends i .next p) :
    GoesOn i ((p.bind (dispatch watched i)).bind (nextRound watched i outcomes)) := by
  rw [bind_assoc]
  refine goesOn_fetch h fun e => ?_
  have hn : NotEnded (.error e) := trivial
  have hl : GoesOn i (leave i outcomes (.error e)) := goesOn_leave hn
  exact hl

theorem goesOn_stalled : GoesOn i (nextRound watched i outcomes (.inr (.ok .stalled))) := by
  have hn : NotEnded (.ok .stalled) := rfl
  exact goesOn_leave hn

theorem goesOn_paused : GoesOn i (nextRound watched i outcomes (.inr (.ok .paused))) := by
  have hn : NotEnded (.ok .paused) := rfl
  exact goesOn_leave hn

theorem pending_setStatus (w : FrontEnd) (i : Nat) (s : Status) :
    (((Action.change i (.setStatus s)).perform w).2.slot i).wake = (w.slot i).wake := by
  rw [Action.slot_perform]
  split
  · rw [Action.onto_change, if_pos rfl]
    rfl
  · rfl

theorem pending_await (w : FrontEnd) (i : Nat) :
    (((Action.await i).perform w).2.slot i).wake.pending = false := by
  rw [Action.slot_perform]
  split
  · unfold Action.onto
    dsimp only
    rw [if_pos rfl]
    rfl
  next h =>
    rw [FrontEnd.slot_of_le w i (by omega)]
    rfl

theorem mayMake_unpaused {w : FrontEnd} (hw : (w.slot i).wake.pending = false) :
    MayMake Nobody ((unpaused watched i).bind (nextRound watched i outcomes)) w
      (Move.HoldsOn i) := by
  refine .act ?_
  change MayMake Nobody (Process.bind (if (w.slot i).isStalled then _ else _) _) w _
  split
  · refine .act (.act ?_)
    have hv := pending_setStatus w i .stallReached
    generalize ((Action.change i (.setStatus .stallReached)).perform w).2 = v at hv
    have ha : ((Action.await i).perform v).1 = false := by
      change (v.slot i).wake.pending = false
      rw [hv]
      exact hw
    rw [ha]
    exact goesOn_stalled _
  · exact goesOn_dispatch ends_start w

theorem mayMake_round {w : FrontEnd} (hw : (w.slot i).wake.pending = false) :
    MayMake Nobody ((round watched i).bind (nextRound watched i outcomes)) w
      (Move.HoldsOn i) := by
  rw [round_eq]
  refine .act ?_
  change MayMake Nobody (Process.bind (if (w.slot i).flags.paused then _ else _) _) w _
  split
  · exact goesOn_paused _
  · exact mayMake_unpaused hw

/-- **Left alone, a round comes to a fetch, or the list is put back.** A wake-up is taken once; in
the round after that none is pending. -/
theorem goesOn_running : GoesOn i (running watched i outcomes) := by
  intro w
  refine .loop ?_
  change MayMake Nobody ((round watched i).bind (nextRound watched i outcomes)) w _
  rw [round_eq]
  refine .act ?_
  change MayMake Nobody (Process.bind (if (w.slot i).flags.paused then _ else _) _) w _
  split
  · exact goesOn_paused _
  refine .act ?_
  change MayMake Nobody (Process.bind (if (w.slot i).isStalled then _ else _) _) w _
  split
  · refine .act (.act ?_)
    generalize ((Action.change i (.setStatus .stallReached)).perform w).2 = v
    have hx := pending_await v i
    generalize ((Action.await i).perform v).2 = x at hx
    cases ((Action.await i).perform v).1 with
    | false => exact goesOn_stalled _
    | true =>
      refine .act ?_
      change MayMake Nobody (Process.bind (if (x.slot i).isStalled then _ else _) _) x _
      split
      · exact .loop (mayMake_round hx)
      · refine .act (.loop (mayMake_round ?_))
        rw [pending_setStatus]
        exact hx
  · exact goesOn_dispatch ends_start w

theorem goesOn_waited (woken : Bool) :
    GoesOn i ((waited i woken).bind (nextRound watched i outcomes)) := by
  cases woken with
  | false => exact goesOn_stalled
  | true =>
    refine goesOn_act fun s => ?_
    change GoesOn i (Process.bind (if s.isStalled then _ else _) _)
    split
    · exact goesOn_running
    · exact goesOn_act fun _ => goesOn_running

theorem goesOn_unpaused : GoesOn i ((unpaused watched i).bind (nextRound watched i outcomes)) := by
  refine goesOn_act fun s => ?_
  change GoesOn i (Process.bind (if s.isStalled then _ else _) _)
  split
  · exact goesOn_act fun _ => goesOn_act fun woken => goesOn_waited woken
  · exact goesOn_dispatch ends_start

theorem goesOn_round : GoesOn i ((round watched i).bind (nextRound watched i outcomes)) := by
  rw [round_eq]
  refine goesOn_act fun s => ?_
  change GoesOn i (Process.bind (if s.flags.paused then _ else _) _)
  split
  · exact goesOn_paused
  · exact goesOn_unpaused

/-! ### Before the rounds -/

theorem goesOn_enter : GoesOn i (enter watched i outcomes) :=
  goesOn_act fun _ => goesOn_running

theorem goesOn_enterUnlessReset (s : Slot) : GoesOn i (enterUnlessReset watched i outcomes s) := by
  unfold enterUnlessReset
  split
  · have hn : NotEnded (.error (.wasReset s.id)) := trivial
    exact goesOn_leave hn
  · refine goesOn_act fun s => ?_
    change GoesOn i (if s.flags.restarted then _ else _)
    split
    · exact goesOn_act fun _ => goesOn_enter
    · exact goesOn_enter

/-! ### Every place -/

theorem goesOn_goOn {r : Except Failure (Option Outcome)} (h : Continues r) :
    GoesOn i (goOn watched i outcomes r) := by
  match r with
  | .error e =>
    have hn : NotEnded (.error e) := trivial
    have hl : GoesOn i (leave i outcomes (.error e)) := goesOn_leave hn
    exact hl
  | .ok none => exact goesOn_running
  | .ok (some outcome) =>
    have hp : outcome = .paused := h
    have hn : NotEnded (.ok outcome) := by rw [hp]; rfl
    exact goesOn_leave hn

/-- Either the engine is about to let go of the list, or it goes on. -/
def Settled (watched : Bool) (i : Nat) (outcomes : List (Nat × Outcome)) (q : Process Served) :
    Prop :=
  LetsGo watched i outcomes q ∨ GoesOn i q

theorem settled_done {x : Served} {q : Process Served} (h : Left (.done x) q) :
    Settled watched i outcomes q := by
  rw [left_done h]
  exact .inl (.gone x)

theorem settled_requeue {x : Served} {q : Process Served}
    (h : Left (.act (.enqueue i .head) fun _ => .done x) q) : Settled watched i outcomes q := by
  rcases left_act h with rfl | ⟨_, h⟩
  · exact .inr goesOn_requeue
  · exact settled_done h

theorem settled_leave {r : Except Failure Outcome} {q : Process Served}
    (h : Left (leave i outcomes r) q) : Settled watched i outcomes q := by
  cases r with
  | error e => exact settled_requeue h
  | ok outcome =>
    rcases left_act h with rfl | ⟨s, h⟩
    · by_cases he : outcome.isEnded = true
      · exact .inl (.ended outcome he)
      · have hn : NotEnded (.ok outcome) := Bool.eq_false_iff.2 he
        have hl : GoesOn i (leave i outcomes (.ok outcome)) := goesOn_leave hn
        exact .inr hl
    · change Left (if outcome.isEnded then _ else _) q at h
      split at h
      · exact settled_done h
      · exact settled_requeue h

theorem settled_nextRound (x : Unit ⊕ Except Failure Outcome) :
    Settled watched i outcomes (nextRound watched i outcomes x) := by
  cases x with
  | inl u => exact .inr goesOn_running
  | inr r => exact settled_leave (left_refl _)

theorem settled_stopWith {arg : UInt32} {r : Except Failure UInt32}
    {p : Process (Except Failure (Option Outcome))} (h : Left (stopWith i arg r) p) :
    Settled watched i outcomes (p.bind (goOn watched i outcomes)) := by
  have hend : ∀ p, Left ((conclude i).bind ended) p →
      Settled watched i outcomes (p.bind (goOn watched i outcomes)) := by
    intro p h
    rcases left_bind h with ⟨c, rfl, hc⟩ | ⟨outcome, hc, h⟩
    · exact .inl (.concluding hc)
    · rw [left_done h]
      exact .inl (.concluding hc)
  cases r with
  | error e =>
    cases e with
    | memory f => exact hend p h
    | _ =>
      rw [left_done h]
      exact .inr (goesOn_goOn trivial)
  | ok word =>
    unfold stopWith at h
    dsimp only at h
    split at h
    · split at h
      · exact .inr (goesOn_of_leads ((leads_transfer ..).left h) fun _ => goesOn_goOn)
      · exact hend p h
    · exact hend p h

theorem settled_step {c : Command} {p : Process (Except Failure (Option Outcome))}
    (h : Left (step watched i c) p) :
    Settled watched i outcomes (p.bind (goOn watched i outcomes)) := by
  by_cases hc : ∃ arg, c = .stop arg
  · obtain ⟨arg, rfl⟩ := hc
    change Left (stop i arg) p at h
    rw [stop_eq] at h
    rcases left_bind h with ⟨a, rfl, ha⟩ | ⟨r, -, h⟩
    · by_cases hr : ∃ r, a = .done r
      · obtain ⟨r, rfl⟩ := hr
        exact settled_stopWith (left_refl _)
      · exact .inl (.stopping arg ha fun r he => hr ⟨r, he⟩)
    · exact settled_stopWith h
  · have hl := (leads_step watched fun arg he => hc ⟨arg, he⟩).left h
    exact .inr (goesOn_of_leads hl fun _ => goesOn_goOn)

theorem settled_dispatch {r : Except Failure UInt32}
    {p : Process (Unit ⊕ Except Failure Outcome)} (h : Left (dispatch watched i r) p) :
    Settled watched i outcomes (p.bind (nextRound watched i outcomes)) := by
  cases r with
  | error e =>
    rw [left_done h]
    exact settled_nextRound _
  | ok word =>
    rcases left_bind h with ⟨s, rfl, hs⟩ | ⟨r, -, h⟩
    · rw [bind_assoc]
      exact settled_step hs
    · have hx : ∃ x, settle r = .done x := by
        match r with
        | .error e => exact ⟨_, rfl⟩
        | .ok none => exact ⟨_, rfl⟩
        | .ok (some outcome) => exact ⟨_, rfl⟩
      obtain ⟨x, hx⟩ := hx
      rw [hx] at h
      rw [left_done h]
      exact settled_nextRound x

theorem settled_waited {woken : Bool} {p : Process (Unit ⊕ Except Failure Outcome)}
    (h : Left (waited i woken) p) :
    Settled watched i outcomes (p.bind (nextRound watched i outcomes)) := by
  cases woken with
  | false =>
    rw [left_done h]
    exact settled_nextRound _
  | true =>
    rcases left_act h with rfl | ⟨s, h⟩
    · exact .inr (goesOn_waited true)
    · change Left (if s.isStalled then _ else _) p at h
      split at h
      · rw [left_done h]
        exact settled_nextRound _
      · rcases left_act h with rfl | ⟨_, h⟩
        · exact .inr (goesOn_act fun _ => goesOn_running)
        · rw [left_done h]
          exact settled_nextRound _

theorem settled_round {p : Process (Unit ⊕ Except Failure Outcome)}
    (h : Left (round watched i) p) :
    Settled watched i outcomes (p.bind (nextRound watched i outcomes)) := by
  rw [round_eq] at h
  rcases left_act h with rfl | ⟨s, h⟩
  · exact .inr goesOn_round
  change Left (if s.flags.paused then _ else _) p at h
  split at h
  · rw [left_done h]
    exact settled_nextRound _
  rcases left_act h with rfl | ⟨s, h⟩
  · exact .inr goesOn_unpaused
  change Left (if s.isStalled then _ else _) p at h
  split at h
  · rcases left_act h with rfl | ⟨_, h⟩
    · exact .inr (goesOn_act fun _ => goesOn_act fun woken => goesOn_waited woken)
    rcases left_act h with rfl | ⟨woken, h⟩
    · exact .inr (goesOn_act fun woken => goesOn_waited woken)
    · exact settled_waited h
  · rcases left_bind h with ⟨a, rfl, ha⟩ | ⟨r, -, h⟩
    · by_cases hr : ∃ r, a = .done r
      · obtain ⟨r, rfl⟩ := hr
        exact settled_dispatch (left_refl _)
      · exact .inr (goesOn_dispatch ((left_access ha).ends fun r he => hr ⟨r, he⟩))
    · exact settled_dispatch h

theorem settled_running {q : Process Served} (h : Left (running watched i outcomes) q) :
    Settled watched i outcomes q := by
  rcases left_loop h with rfl | ⟨_, p, rfl, hp⟩ | ⟨r, h⟩
  · exact .inr goesOn_running
  · exact settled_round hp
  · exact settled_leave h

/-- **Wherever the engine is with a list**, it is about to let go of it, or goes on. -/
theorem settled_serve {q : Process Served} (h : Left (serve watched i outcomes) q) :
    Settled watched i outcomes q := by
  have henter : ∀ q, Left (enter watched i outcomes) q → Settled watched i outcomes q := by
    intro q h
    rcases left_act h with rfl | ⟨_, h⟩
    · exact .inr goesOn_enter
    · exact settled_running h
  rcases left_act h with rfl | ⟨s, h⟩
  · exact .inl .unasked
  change Left (if s.flags.reset then _ else _) q at h
  split at h
  · exact settled_done h
  rw [runUnlessDone_eq] at h
  rcases left_act h with rfl | ⟨s, h⟩
  · have hl : LetsGo watched i outcomes (runUnlessDone watched i outcomes) := .halfAsked
    rw [runUnlessDone_eq] at hl
    exact .inl hl
  change Left (if s.isDone then _ else _) q at h
  split at h
  · exact settled_done h
  rcases left_act h with rfl | ⟨s, h⟩
  · exact .inr (goesOn_act goesOn_enterUnlessReset)
  change Left (enterUnlessReset watched i outcomes s) q at h
  have hs : GoesOn i (enterUnlessReset watched i outcomes s) := goesOn_enterUnlessReset s
  unfold enterUnlessReset at h hs
  split at h
  · exact settled_leave h
  next hreset =>
    rw [if_neg hreset] at hs
    rcases left_act h with rfl | ⟨s, h⟩
    · exact .inr hs
    change Left (if s.flags.restarted then _ else _) q at h
    split at h
    · rcases left_act h with rfl | ⟨_, h⟩
      · exact .inr (goesOn_act fun _ => goesOn_enter)
      · exact henter q h
    · exact henter q h

/-! ## A list that was reset -/

/-- The slot as a reset leaves it, as far as the engine asks. -/
structure WasReset (s : Slot) : Prop where
  flag : s.flags.reset = true
  done : s.isDone = true
  wanted : s.fetcher.wanted s.pc = some 0

theorem wasReset_reset (w : FrontEnd) (i : Nat) :
    WasReset (((Action.change i .reset).perform w).2.slot i) := by
  have hr : ∀ s : Slot, WasReset s.reset := fun s => ⟨rfl, rfl, rfl⟩
  rw [Action.slot_perform]
  split
  · rw [Action.onto_change, if_pos rfl]
    exact hr _
  next h =>
    rw [FrontEnd.slot_of_le w i (by omega)]
    exact hr _

/-- The list is as the reset left it, and nothing was done to it since. -/
def StillReset (i : Nat) : Assertion :=
  fun t w => All (fun m => ¬ m.HoldsOn i) t ∧ WasReset (w.slot i)

/-- Nothing was done to the list. -/
def LeftAlone (i : Nat) : Assertion :=
  fun t _ => All (fun m => ¬ m.HoldsOn i) t

variable {others : FrontEnd → FrontEnd → Prop}

theorem stable_leftAlone : Stable others (LeftAlone i) :=
  fun _ _ _ _ h => h

theorem stable_stillReset (ho : ∀ v u, others v u → u.slot i = v.slot i) :
    Stable others (StillReset i) := by
  intro t w v h hw
  refine ⟨hw.1, ?_⟩
  rw [ho w v h]
  exact hw.2

theorem not_holdsOn_look (k : Nat) (w : FrontEnd) : ¬ (Move.act (.look k) w).HoldsOn i := by
  rintro (⟨word, h⟩ | ⟨p, w, h⟩)
  · cases h
  · cases h

theorem not_holdsOn_change (k : Nat) (c : Change) (w : FrontEnd) :
    ¬ (Move.act (.change k c) w).HoldsOn i := by
  rintro (⟨word, h⟩ | ⟨p, w, h⟩)
  · cases h
  · cases h

theorem not_holdsOn_report (r : Report) (w : FrontEnd) : ¬ (Move.report r w).HoldsOn i := by
  rintro (⟨word, h⟩ | ⟨p, w, h⟩)
  · cases h
  · cases h

theorem not_holdsOn_previous (w : FrontEnd) : ¬ (Move.act (.access i .previous) w).HoldsOn i := by
  rintro (⟨word, h⟩ | ⟨p, w, h⟩)
  · cases h
  · cases h

theorem not_holdsOn_previousWith (address : Address) (c : Cursor) (w : FrontEnd) :
    ¬ (Move.act (.accessWith i address c .previous) w).HoldsOn i := by
  rintro (⟨word, h⟩ | ⟨p, w, h⟩)
  · cases h
  · cases h

/-! ### The word before an END word -/

/-- The answer of a look at a word of a list that was reset: there is no memory. -/
def NoMemory (i : Nat) (r : Except Failure UInt32) : Assertion :=
  fun t _ => All (fun m => ¬ m.HoldsOn i) t ∧ ∃ f, r = .error (.memory f)

theorem keeps_found (ho : ∀ v u, others v u → u.slot i = v.slot i) (address : Address) :
    Keeps others (StillReset i) (Operation.found i .previous address (Cursor.openAt address 4))
      (All fun m => ¬ m.HoldsOn i) (Sum.elim (fun _ => StillReset i) (NoMemory i)) := by
  have hst := stable_stillReset ho
  cases hc : Cursor.openAt address 4 with
  | error f =>
    refine keeps_stay hst (fun _ _ h => h.1) fun t w h => ?_
    exact ⟨h.1, f, rfl⟩
  | ok c =>
    refine keeps_perform hst (fun _ _ h => h.1) fun t w hw => ?_
    -- The reset wants a cursor at zero, where there is no memory: another one is refused.
    have hne : (0 : Address) ≠ address := by
      rintro rfl
      have h0 : Cursor.openAt 0 4 = .error (.unmapped 0) := rfl
      rw [h0] at hc
      cases hc
    have hr : (w.slot i).accessWith w.memory address c .previous = (none, w.slot i) := by
      unfold Slot.accessWith Fetcher.install?
      rw [hw.2.wanted]
      dsimp only
      rw [if_neg hne]
    rw [perform_accessWith hr, FrontEnd.setSlot_slot]
    have hnow := all_snoc hw.1 (not_holdsOn_previousWith address c w)
    have hstay : Keeps others (StillReset i) (.done (.inl ())) (All fun m => ¬ m.HoldsOn i)
        (Sum.elim (fun _ => StillReset i) (NoMemory i)) :=
      keeps_stay hst (fun _ _ h => h.1) fun _ _ h => h
    exact hstay.now ⟨hnow, hw.2⟩

theorem keeps_seek (ho : ∀ v u, others v u → u.slot i = v.slot i) (address : Address) :
    Keeps others (StillReset i) (Operation.seek i .previous address)
      (All fun m => ¬ m.HoldsOn i) (Sum.elim (fun _ => StillReset i) (NoMemory i)) := by
  refine keeps_tell (stable_stillReset ho) (fun _ _ h => h.1) fun t w hw => ?_
  refine (keeps_found ho address).now ⟨all_snoc hw.1 (not_holdsOn_report _ w), ?_⟩
  rw [FrontEnd.slot_tell]
  exact hw.2

theorem keeps_attempt (ho : ∀ v u, others v u → u.slot i = v.slot i) :
    Keeps others (StillReset i) (Operation.attempt i .previous)
      (All fun m => ¬ m.HoldsOn i) (Sum.elim (fun _ => StillReset i) (NoMemory i)) := by
  refine keeps_perform (stable_stillReset ho) (fun _ _ h => h.1) fun t w hw => ?_
  have hr : (w.slot i).tryAccess w.memory .previous = (.inl 0, w.slot i) := by
    unfold Slot.tryAccess
    rw [hw.2.wanted]
  rw [perform_access hr, FrontEnd.setSlot_slot]
  exact (keeps_seek ho 0).now ⟨all_snoc hw.1 (not_holdsOn_previous w), hw.2⟩

/-- **A look at a word of a list that was reset finds no memory**, wherever the look is. -/
theorem keeps_previous (ho : ∀ v u, others v u → u.slot i = v.slot i)
    {p : Process (Except Failure (Slot.Access.Answer .previous))}
    (h : Left (Operation.access i .previous) p) (hp : ∀ r, p ≠ .done r) :
    Keeps others (StillReset i) p (All fun m => ¬ m.HoldsOn i) (NoMemory i) := by
  have hround : ∀ _ : Unit, Keeps others (StillReset i) (Operation.attempt i .previous)
      (All fun m => ¬ m.HoldsOn i) (Sum.elim (fun _ => StillReset i) (NoMemory i)) :=
    fun _ => keeps_attempt ho
  have ha := left_access h
  cases ha with
  | start =>
    exact keeps_iterate (I := fun _ => StillReset i) (fun _ _ h => h) (fun _ _ h => h.1)
      (stable_stillReset ho) hround
  | attempt => exact keeps_resume hround (keeps_attempt ho)
  | seek address => exact keeps_resume hround (keeps_seek ho address)
  | @found address c hc =>
    have hf := keeps_found ho address
    rw [hc] at hf
    exact keeps_resume hround hf
  | done r => exact absurd rfl (hp r)

/-! ### The end of the list -/

theorem only_conclude_aside :
    Only (fun a => ∀ w, ¬ (Move.act a w).HoldsOn i) (conclude i) :=
  ⟨not_holdsOn_look i, fun _ => ⟨not_holdsOn_change i _, fun _ => ⟨not_holdsOn_change i _,
    fun _ => ⟨not_holdsOn_look i, fun _ => trivial⟩⟩⟩⟩

theorem keeps_conclude {p : Process Outcome} (h : Left (conclude i) p) :
    Keeps others (LeftAlone i) p (All fun m => ¬ m.HoldsOn i)
      fun outcome t _ => All (fun m => ¬ m.HoldsOn i) t ∧ outcome.isEnded = true := by
  have hl : Leads (fun outcome => outcome.isEnded = true) p := leads_conclude.left h
  obtain ⟨w', t', u', hg'⟩ := h
  have hp := (goes_only only_conclude_aside hg').2
  intro t₀ w t q u hw hg
  have ht : All (fun m => ¬ m.HoldsOn i) (t₀ ++ t) := by
    refine all_append.2 ⟨hw, fun m hm => ?_⟩
    have hm' := (goes_only hp hg).1 m hm
    cases m with
    | act a w => exact hm' w
    | report r w => exact not_holdsOn_report r w
  refine ⟨ht, fun outcome ho => ⟨ht, ?_⟩⟩
  have hq := hl.goes hg
  rw [ho] at hq
  exact hq

/-- No error comes of it. -/
def NoError : Served → Assertion :=
  fun x _ _ => ∀ e, x ≠ .inr (.error e)

theorem keeps_leave {outcome : Outcome} (he : outcome.isEnded = true) :
    Keeps others (LeftAlone i) (leave i outcomes (.ok outcome)) (All fun m => ¬ m.HoldsOn i)
      NoError := by
  refine keeps_perform stable_leftAlone (fun _ _ h => h) fun t w hw => ?_
  have hnow : LeftAlone i (t ++ [.act (.look i) w]) ((Action.look i).perform w).2 :=
    all_snoc hw (not_holdsOn_look i w)
  refine Keeps.now ?_ hnow
  rw [if_pos he]
  exact keeps_stay stable_leftAlone (fun _ _ h => h) fun _ _ _ e hx => by cases hx

theorem keeps_concluding {p : Process Outcome} (h : Left (conclude i) p) :
    Keeps others (LeftAlone i) ((p.bind ended).bind (goOn watched i outcomes))
      (All fun m => ¬ m.HoldsOn i) NoError := by
  rw [bind_assoc]
  refine keeps_bind (keeps_conclude h) fun outcome => ?_
  refine keeps_iff.2 fun t w hw => ?_
  exact (keeps_leave hw.2).now hw.1

/-- **Where the engine is about to let go, a reset is heeded.** -/
theorem drops_of_letsGo {q : Process Served} {w : FrontEnd} (h : LetsGo watched i outcomes q)
    (hw : WasReset (w.slot i)) : Drops i q w := by
  intro others ho t q' u hg
  have hst := stable_stillReset (i := i) ho
  have hstart : StillReset i [] w := ⟨all_nil, hw⟩
  -- All places but the last are shown in one way.
  have hkeeps : ∀ {P : Assertion}, P [] w →
      Keeps others P q (All fun m => ¬ m.HoldsOn i) NoError →
      (∀ m ∈ t, ¬ m.HoldsOn i) ∧ ∀ e, q' = .done (.inr (.error e)) → q = q' := by
    intro P hP hk
    obtain ⟨ht, hq⟩ := hk hP hg
    exact ⟨ht, fun e he => absurd rfl (hq _ he e)⟩
  have hdone : ∀ {P : Assertion}, Stable others P →
      (∀ t v, P t v → All (fun m => ¬ m.HoldsOn i) t) →
      Keeps others P (.done (.inl outcomes)) (All fun m => ¬ m.HoldsOn i) NoError :=
    fun hP hT => keeps_stay hP hT fun _ _ _ e hx => by cases hx
  cases h with
  | unasked =>
    refine hkeeps hstart (keeps_perform hst (fun _ _ h => h.1) fun t v hv => ?_)
    refine Keeps.now (P := StillReset i) ?_ ⟨all_snoc hv.1 (not_holdsOn_look i v), hv.2⟩
    change Keeps others _ (if (v.slot i).flags.reset then _ else _) _ _
    rw [if_pos hv.2.flag]
    exact hdone hst fun _ _ h => h.1
  | halfAsked =>
    refine hkeeps hstart (keeps_perform hst (fun _ _ h => h.1) fun t v hv => ?_)
    refine Keeps.now (P := StillReset i) ?_ ⟨all_snoc hv.1 (not_holdsOn_look i v), hv.2⟩
    change Keeps others _ (if (v.slot i).isDone then _ else _) _ _
    rw [if_pos hv.2.done]
    exact hdone hst fun _ _ h => h.1
  | stopping arg hp hn =>
    refine hkeeps hstart ?_
    rw [bind_assoc]
    refine keeps_bind (keeps_previous ho hp hn) fun r => keeps_iff.2 fun t v hv => ?_
    obtain ⟨ht, f, rfl⟩ := hv
    exact (keeps_concluding (left_refl _)).now ht
  | concluding hp => exact hkeeps (P := LeftAlone i) all_nil (keeps_concluding hp)
  | ended outcome he => exact hkeeps (P := LeftAlone i) all_nil (keeps_leave he)
  | gone x =>
    obtain ⟨rfl, rfl, -⟩ := goes_done hg
    exact ⟨by simp, fun _ _ => rfl⟩

theorem not_drops {q : Process Served} {w : FrontEnd}
    (h : MayMake Nobody q w (Move.HoldsOn i)) : ¬ Drops i q w := by
  intro hd
  obtain ⟨t, q', u, hg, m, hm, hB⟩ := h
  have hnobody : ∀ v u : FrontEnd, Nobody v u → u.slot i = v.slot i := fun _ _ h => h.elim
  exact (hd Nobody hnobody t q' u hg).1 m hm hB

/-- **When a reset list is dropped.** Let the engine, beside anybody, be anywhere with a list taken
from its queue, and let the list be reset there. If nobody touches the list after that, the engine
fetches no word of it, does not put it back and does not fail, exactly if it had not yet asked
whether the list was reset or done, or had come to an END word that does not go on elsewhere. -/
theorem drops_iff {w₀ w : FrontEnd} {t : List Move} {q : Process Served}
    (h : Goes Anybody (serve watched i outcomes) w₀ t q w) :
    Drops i q ((Action.change i .reset).perform w).2 ↔ LetsGo watched i outcomes q := by
  constructor
  · intro hd
    rcases settled_serve ⟨w₀, t, w, h⟩ with hl | hg
    · exact hl
    · exact absurd hd (not_drops (hg _))
  · exact fun hl => drops_of_letsGo hl (wasReset_reset w i)

/-! ## A list that is not dropped -/

/-- A list is queued; the host resets it while its cursor is looked for. -/
def resetting : FrontEnd :=
  { Replay.frontEnd {} with
    slots := #[{ (Slot.new 0).init ⟨0x08800000, 0, 0, none⟩ with wake := ⟨true⟩ }]
    queue := [0]
    host := { onCursor := [[("reset", .reset 0)]] } }

/-- What is left of the engine when it looks for the cursor of the first word of this list. -/
def seeking : Process Served :=
  (((Operation.seek 0 .next 0x08800000).bind (Operation.again 0 .next)).bind
    (dispatch true 0)).bind (nextRound true 0 [])

theorem comes_seeking : ComesTo (serve true 0 []) resetting seeking := by
  unfold seeking Operation.again
  rw [resume_bind, resume_bind]
  -- The list is found neither reset nor done, and marked as drawing.
  iterate 5 refine .act ?_
  refine .loop ?_
  -- It is neither paused nor stalled, and a cursor has to be found for its first word.
  iterate 2 refine .act ?_
  refine .loop ?_
  exact .act (.here ..)

/-- The list is reset at this very place. -/
theorem drops_iff_seeking : ∃ t w, Goes Anybody (serve true 0 []) resetting t seeking w ∧
    (Drops 0 seeking ((Action.change 0 .reset).perform w).2 ↔ LetsGo true 0 [] seeking) := by
  obtain ⟨t, w, hg⟩ := comes_seeking
  exact ⟨t, w, hg, drops_iff hg⟩

/-- **A reset list is not dropped.** The engine looks for another word of the list at address zero,
where there is no memory, fails and puts the list back. -/
theorem reset_list_put_back :
    ((Engine.drain true).run 60 resetting).map
        (fun x => (x.1.toOption, x.2.queue, (x.2.slot 0).flags.reset)) =
      some (none, [0], true) ∧
    ∃ t w, Goes Anybody (serve true 0 []) resetting t seeking w ∧
      ¬ Drops 0 seeking ((Action.change 0 .reset).perform w).2 := by
  refine ⟨by decide +kernel, ?_⟩
  obtain ⟨t, w, hg⟩ := comes_seeking
  have he : Ends 0 .next ((Operation.seek 0 .next 0x08800000).bind (Operation.again 0 .next)) :=
    Accessing.ends (.seek _) fun _ h => nomatch h
  exact ⟨t, w, hg, not_drops (goesOn_dispatch he _)⟩

end Engine

end DisplayList
