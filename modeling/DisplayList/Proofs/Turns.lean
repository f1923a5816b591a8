import DisplayList.Proofs.Reporting
import Mathlib.Data.List.Forall2

/-!
# What becomes of the queue

The engine takes lists from its queue, drops those that were reset or are done, and runs the others
until one does not come to its END word or none is left. As long as nobody else touches the lists
and the queue, the queue tells what the engine did: it has lost its first lists, and begins with the
list that did not come to its end.

* `taken`: the lists taken from the queue, of a trace; `Slot.LeftBy`: how a list is left of which
  some outcome is told;
* `Outturn`: what becomes of the queue, of its lists, and what the caller hears;
* `InHand` and its rules: what is known while the engine has a list in hand; `undisturbed_execute`:
  how a run leaves it;
* `nodup_reach`: no list is ever queued twice; **`drain_outturn`**.
-/

namespace DisplayList

/-- The list that is taken from the queue by this move. -/
def Move.taken? : Move → Option Nat
  | .act .dequeue w => w.queue.head?
  | _ => none

/-- The lists taken from the queue by these moves, in order. -/
def taken (t : List Move) : List Nat :=
  t.filterMap Move.taken?

theorem taken_snoc (t : List Move) (m : Move) : taken (t ++ [m]) = taken t ++ m.taken?.toList :=
  filterMap_concat ..

theorem Action.Steers.taken? {i : Nat} {a : Action} (h : a.Steers i) (w : FrontEnd) :
    (Move.act a w).taken? = none := by
  rcases h with h | ⟨s, rfl⟩
  · cases a with
    | dequeue => exact h.elim
    | _ => rfl
  · rfl

/-- The list is run once it is taken from the queue: it was not reset, and is not done. -/
def FrontEnd.runs (w : FrontEnd) (i : Nat) : Bool :=
  !(w.slot i).flags.reset && !(w.slot i).isDone

/-- How a list is left of which this outcome is told. -/
def Slot.LeftBy (s : Slot) : Outcome → Prop
  | .ended finished => s.status = .done ∧ s.flags.ended = finished
  | .paused => s.flags.paused = true ∧ s.isDone = false
  | .stalled => s.status = .stallReached ∧ s.reported = .stallReached ∧ s.pc = s.stall ∧
    s.stall ≠ 0

/-- The list is drawing. -/
def Slot.Draws (s : Slot) : Prop :=
  s.status = .drawing

/-- The list has stalled. -/
def Slot.Stalls (s : Slot) : Prop :=
  s.status = .stallReached ∧ s.isStalled = true

/-- How a run that comes to this leaves its list. -/
def Slot.LeftByRun (s : Slot) : Except Failure Outcome → Prop
  | .ok o => s.LeftBy o
  | .error _ => s.Draws

/-- How a step that comes to this leaves its list. -/
def Slot.LeftByStep (s : Slot) : Except Failure (Option Outcome) → Prop
  | .ok (some o) => s.LeftBy o
  | _ => s.Draws

namespace Slot

variable {s : Slot}

theorem Draws.isDone (h : s.Draws) : s.isDone = false := by
  unfold Slot.isDone
  rw [show s.status = .drawing from h]
  rfl

theorem Stalls.isDone (h : s.Stalls) : s.isDone = false := by
  unfold Slot.isDone
  rw [h.1]
  rfl

theorem Stalls.leftBy (h : s.Stalls) : s.LeftBy .stalled := by
  obtain ⟨hstatus, hstalled⟩ := h
  have hreported : s.reported = .stallReached := by
    simp [Slot.reported, hstatus, hstalled]
  have hpc : s.pc = s.stall ∧ s.stall ≠ 0 := by simpa [Slot.isStalled] using hstalled
  exact ⟨hstatus, hreported, hpc⟩

end Slot

variable {w v u : FrontEnd} {front rest : List Nat} {i : Nat} {outcomes : List (Nat × Outcome)}
  {o : Nat × Outcome}

/-- The outcome is that of the list at position `i`, which is left accordingly. -/
structure Reports (w u : FrontEnd) (i : Nat) (o : Nat × Outcome) : Prop where
  id : o.1 = (w.slot i).id
  left : (u.slot i).LeftBy o.2

/-- The lists `front` were taken from the queue and are over. Those of them that were run have
ended, and these are their outcomes. -/
structure Passed (w u : FrontEnd) (front : List Nat) (outcomes : List (Nat × Outcome)) : Prop where
  reports : List.Forall₂ (Reports w u) (front.filter w.runs) outcomes
  ended : ∀ o ∈ outcomes, o.2.isEnded = true

/-- **What becomes of the queue**, of its lists that were taken, and what the caller hears. -/
inductive Outturn (w : FrontEnd) :
    List Nat → Except Failure (List (Nat × Outcome)) → FrontEnd → Prop
  /-- Every list that was run has ended. -/
  | emptied {u : FrontEnd} {outcomes : List (Nat × Outcome)} :
    Passed w u w.queue outcomes → u.queue = [] → Outturn w w.queue (.ok outcomes) u
  /-- The last list has paused or stalled, and is queued first again. -/
  | held {u : FrontEnd} {front rest : List Nat} {i : Nat} {outcomes : List (Nat × Outcome)}
    {o : Nat × Outcome} :
    w.queue = front ++ i :: rest → w.runs i = true → Passed w u front outcomes →
    Reports w u i o → o.2.isEnded = false → u.queue = i :: rest →
    Outturn w (front ++ [i]) (.ok (outcomes ++ [o])) u
  /-- The last list has failed, and is queued first again. -/
  | failed {u : FrontEnd} {front rest : List Nat} {i : Nat} {outcomes : List (Nat × Outcome)}
    {e : Failure} :
    w.queue = front ++ i :: rest → w.runs i = true → Passed w u front outcomes →
    (u.slot i).status = .drawing → u.queue = i :: rest →
    Outturn w (front ++ [i]) (.error e) u

namespace Passed

theorem nil (w u : FrontEnd) : Passed w u [] [] :=
  ⟨.nil, by simp⟩

theorem congr (h : Passed w v front outcomes)
    (hs : ∀ j ∈ front, w.runs j = true → u.slot j = v.slot j) : Passed w u front outcomes := by
  have hsame : ∀ j ∈ front.filter w.runs, u.slot j = v.slot j := fun j hj =>
    hs j (List.mem_filter.1 hj).1 (List.mem_filter.1 hj).2
  refine ⟨((List.forall₂_and_left _ _).2 ⟨hsame, h.reports⟩).imp fun j o hj => ?_, h.ended⟩
  exact ⟨hj.2.id, hj.1 ▸ hj.2.left⟩

theorem drop (h : Passed w v front outcomes) (hi : w.runs i = false) :
    Passed w v (front ++ [i]) outcomes := by
  refine ⟨?_, h.ended⟩
  rw [List.filter_append, List.filter_cons_of_neg (by simp [hi]), List.filter_nil,
    List.append_nil]
  exact h.reports

theorem concat (h : Passed w v front outcomes) (hi : w.runs i = true) (hr : Reports w v i o)
    (ho : o.2.isEnded = true) : Passed w v (front ++ [i]) (outcomes ++ [o]) := by
  refine ⟨?_, fun x hx => ?_⟩
  · rw [List.filter_append, List.filter_cons_of_pos hi, List.filter_nil]
    exact List.rel_append h.reports (.cons hr .nil)
  · rcases List.mem_append.1 hx with hx | hx
    · exact h.ended x hx
    · rw [List.mem_singleton.1 hx]
      exact ho

end Passed

theorem Outturn.congr {ids : List Nat} {r : Except Failure (List (Nat × Outcome))}
    (h : Outturn w ids r v) (hslot : ∀ j, u.slot j = v.slot j) (hqueue : u.queue = v.queue) :
    Outturn w ids r u := by
  cases h with
  | emptied hp hq => exact .emptied (hp.congr fun j _ _ => hslot j) (hqueue.trans hq)
  | held hw hi hp hr ho hq =>
    exact .held hw hi (hp.congr fun j _ _ => hslot j) ⟨hr.id, (hslot _).symm ▸ hr.left⟩ ho
      (hqueue.trans hq)
  | failed hw hi hp hs hq =>
    exact .failed hw hi (hp.congr fun j _ _ => hslot j) ((hslot _).symm ▸ hs) (hqueue.trans hq)

namespace Process

/-- The others leave the lists and the queue alone. -/
def LeavesLists (w v : FrontEnd) : Prop :=
  v.slots = w.slots ∧ v.queue = w.queue

/-- What is to be shown of a process beside others who leave the lists and the queue alone. -/
abbrev Undisturbed {α : Type} (P : Assertion) (p : Process α) (Q : α → Assertion) : Prop :=
  Keeps LeavesLists P p (fun _ => True) Q

/-- Before a turn: the lists taken so far are over, and all others are as they were. -/
structure BetweenTurns (w : FrontEnd) (outcomes : List (Nat × Outcome)) (t : List Move)
    (v : FrontEnd) : Prop where
  nodup : w.queue.Nodup
  queue : w.queue = taken t ++ v.queue
  passed : Passed w v (taken t) outcomes
  spared : ∀ j, (j ∈ taken t → w.runs j = false) → v.slot j = w.slot j

/-- The engine has the list at position `i` in hand, which is as `P` says. -/
structure InHand (w : FrontEnd) (front : List Nat) (i : Nat) (outcomes : List (Nat × Outcome))
    (P : Slot → Prop) (t : List Move) (v : FrontEnd) : Prop where
  nodup : w.queue.Nodup
  taken : taken t = front ++ [i]
  queue : w.queue = front ++ i :: v.queue
  passed : Passed w v front outcomes
  spared : ∀ j ≠ i, (j ∈ front → w.runs j = false) → v.slot j = w.slot j
  id : (v.slot i).id = (w.slot i).id
  here : P (v.slot i)

variable {α : Type} {P P' : Slot → Prop} {t t' : List Move} {Q : α → Assertion}

namespace InHand

variable (h : InHand w front i outcomes P t v)
include h

theorem congr (ht : DisplayList.taken t' = DisplayList.taken t) (hslot : ∀ j, u.slot j = v.slot j)
    (hqueue : u.queue = v.queue) : InHand w front i outcomes P t' u where
  nodup := h.nodup
  taken := ht.trans h.taken
  queue := hqueue ▸ h.queue
  passed := h.passed.congr fun j _ _ => hslot j
  spared j hj hf := (hslot j).trans (h.spared j hj hf)
  id := (congrArg Slot.id (hslot i)).trans h.id
  here := (hslot i).symm ▸ h.here

theorem mono (hP : P' (v.slot i)) : InHand w front i outcomes P' t v :=
  { h with here := hP }

theorem not_mem : i ∉ front ∧ i ∉ v.queue := by
  have hn := h.queue ▸ h.nodup
  refine ⟨fun hi => ?_, (List.nodup_cons.1 (List.nodup_append.1 hn).2.1).1⟩
  exact (List.nodup_append.1 hn).2.2 i hi i (by simp) rfl

theorem look : InHand w front i outcomes (· = v.slot i) (t ++ [.act (.look i) v]) v := by
  have hsame : InHand w front i outcomes (· = v.slot i) t v := h.mono rfl
  refine hsame.congr ?_ (fun _ => rfl) rfl
  rw [taken_snoc]
  exact List.append_nil _

theorem tell (r : Report) : InHand w front i outcomes P (t ++ [.report r v]) (v.tell r).2 := by
  refine h.congr ?_ (fun j => v.slot_tell j r) ?_
  · rw [taken_snoc]
    exact List.append_nil _
  · obtain ⟨host, journal, hm⟩ := v.tell_frame r
    rw [hm]

theorem steer {a : Action} (ha : a.Steers i) (hd : (v.slot i).isDone = false)
    (hP : P' (a.onto i v.memory (v.slot i))) :
    InHand w front i outcomes P' (t ++ [.act a v]) (a.perform v).2 := by
  have hother : ∀ j ≠ i, (a.perform v).2.slot j = v.slot j := fun j hj =>
    Action.slot_perform_of (P := fun s => s = v.slot j) rfl (ha.onto_ne hj)
  refine ⟨h.nodup, ?_, ?_, h.passed.congr fun j hj _ => hother j ?_,
    fun j hj hf => (hother j hj).trans (h.spared j hj hf), ?_, ?_⟩
  · rw [taken_snoc, ha.taken?, Option.toList_none, List.append_nil]
    exact h.taken
  · rw [Action.queue_perform ha.sparesQueue]
    exact h.queue
  · rintro rfl
    exact h.not_mem.1 hj
  · rw [id_anybody (.act trivial v)]
    exact h.id
  · rw [Action.slot_perform, if_pos (lt_size hd)]
    exact hP

end InHand

theorem stable_inHand : Stable LeavesLists (InHand w front i outcomes P) :=
  fun _ v _ ho h => h.congr rfl (fun j => FrontEnd.slot_congr v j ho.1) ho.2

theorem undisturbed_stay {r : α} (hQ : ∀ t v, InHand w front i outcomes P t v → Q r t v) :
    Undisturbed (InHand w front i outcomes P) (.done r) Q :=
  keeps_stay stable_inHand (fun _ _ _ => trivial) hQ

theorem undisturbed_look {f : Slot → Process α}
    (h : ∀ s, P s → Undisturbed (InHand w front i outcomes (· = s)) (f s) Q) :
    Undisturbed (InHand w front i outcomes P) (look i >>= f) Q :=
  keeps_perform stable_inHand (fun _ _ _ => trivial) fun _ v hv =>
    (h (v.slot i) hv.here).now hv.look

theorem undisturbed_steer (P' : Slot → Prop) {a : Action} {f : a.Answer → Process α}
    (ha : a.Steers i) (hd : ∀ s, P s → s.isDone = false) (hP : ∀ m s, P s → P' (a.onto i m s))
    (h : ∀ r, Undisturbed (InHand w front i outcomes P') (f r) Q) :
    Undisturbed (InHand w front i outcomes P) (perform a >>= f) Q :=
  keeps_perform stable_inHand (fun _ _ _ => trivial) fun _ v hv =>
    (h _).now (hv.steer ha (hd _ hv.here) (hP v.memory _ hv.here))

theorem undisturbed_quiet {p : Process α} (hp : Only (Action.Quiet i) p) :
    Undisturbed (InHand w front i outcomes Slot.Draws) p
      fun _ => InHand w front i outcomes Slot.Draws :=
  keeps_moves stable_inHand (fun _ _ _ => trivial)
    (fun _ _ _ ha hv => hv.steer (.inl ha) hv.here.isDone ((ha.status_onto i _ _).trans hv.here))
    (fun r _ _ hv => hv.tell r) hp

/-! ## A step -/

theorem undisturbed_transfer (c : Transfer) (target : UInt32) :
    Undisturbed (InHand w front i outcomes Slot.Draws) (Engine.transfer i c target)
      fun r => InHand w front i outcomes fun s => s.LeftByStep r := by
  cases c with
  | jump mode =>
    exact keeps_bind (undisturbed_quiet (only_jump ..)) fun _ => undisturbed_stay fun _ _ h => h
  | call mode =>
    refine keeps_bind (undisturbed_quiet (only_call ..)) fun r => ?_
    cases r with
    | error e => exact undisturbed_stay fun _ _ h => h
    | ok x => exact undisturbed_stay fun _ _ h => h
  | ret => exact keeps_bind (undisturbed_quiet only_ret) fun _ => undisturbed_stay fun _ _ h => h
  | pause =>
    refine undisturbed_steer (fun s => s.LeftBy .paused) (.inl ⟨rfl, trivial⟩)
      (fun _ h => h.isDone) (fun m s h => ?_) fun _ => undisturbed_stay fun _ _ h => h
    rw [Action.onto_change, if_pos rfl]
    exact ⟨rfl, h.isDone⟩

theorem undisturbed_conclude :
    Undisturbed (InHand w front i outcomes Slot.Draws) (Engine.conclude i)
      fun o => InHand w front i outcomes fun s => o.isEnded = true ∧ s.LeftBy o := by
  refine keeps_bind (undisturbed_quiet only_endList) fun _ => ?_
  refine undisturbed_steer (fun s => s.status = .done) (.inr ⟨_, rfl⟩)
    (fun _ h => h.isDone) (fun m s _ => ?_) fun _ => ?_
  · rw [Action.onto_change, if_pos rfl]
    rfl
  · refine undisturbed_look fun s hs => undisturbed_stay fun t v hv => hv.mono ?_
    rw [hv.here]
    exact ⟨rfl, hs, rfl⟩

theorem undisturbed_stop (arg : UInt32) :
    Undisturbed (InHand w front i outcomes Slot.Draws) (Engine.stop i arg)
      fun r => InHand w front i outcomes fun s => s.LeftByStep r := by
  have hend : Undisturbed (InHand w front i outcomes Slot.Draws)
      ((Engine.conclude i).bind Engine.ended)
      fun r => InHand w front i outcomes fun s => s.LeftByStep r :=
    keeps_bind undisturbed_conclude fun _ => undisturbed_stay fun _ _ hv => hv.mono hv.here.2
  rw [Engine.stop_eq]
  refine keeps_bind (undisturbed_quiet (only_access (by simp))) fun r => ?_
  unfold Engine.stopWith
  split
  · exact hend
  · exact undisturbed_stay fun _ _ h => h
  · split
    · split
      · exact undisturbed_transfer ..
      · exact hend
    · exact hend

theorem leads_word (watched : Bool) {c : Command} (hc : ∀ arg, c ≠ .stop arg) :
    Leads (fun r => ∀ o, r ≠ .ok (some o)) (Engine.step watched i c) := by
  refine Engine.leads_step_of watched hc (by simp) fun arg _ r => ?_
  cases r <;> simp [Except.map]

/-- **A step.** -/
theorem undisturbed_step (watched : Bool) (c : Command) :
    Undisturbed (InHand w front i outcomes Slot.Draws) (Engine.step watched i c)
      fun r => InHand w front i outcomes fun s => s.LeftByStep r := by
  by_cases hc : ∃ arg, c = .stop arg
  · obtain ⟨arg, rfl⟩ := hc
    exact undisturbed_stop arg
  · have hne : ∀ arg, c ≠ .stop arg := fun arg he => hc ⟨arg, he⟩
    refine ((undisturbed_quiet (only_step watched hne)).leads (leads_word watched hne)).post ?_
    rintro r t v ⟨hv, hr⟩
    match r with
    | .ok (some o) => exact absurd rfl (hr o)
    | .ok none => exact hv
    | .error e => exact hv

/-! ## A run -/

theorem undisturbed_dispatch (watched : Bool) (r : Except Failure UInt32) :
    Undisturbed (InHand w front i outcomes Slot.Draws) (Engine.dispatch watched i r)
      (Sum.elim (fun _ => InHand w front i outcomes fun s => s.Draws ∨ s.Stalls)
        fun r => InHand w front i outcomes fun s => s.LeftByRun r) := by
  cases r with
  | error e => exact undisturbed_stay fun _ _ h => h
  | ok word =>
    refine keeps_bind (undisturbed_step watched _) fun r => ?_
    match r with
    | .error e => exact undisturbed_stay fun _ _ h => h
    | .ok none => exact undisturbed_stay fun _ _ h => h.mono (.inl h.here)
    | .ok (some o) => exact undisturbed_stay fun _ _ h => h

/-- **A round.** Between two rounds the list is drawing, or it has stalled. -/
theorem undisturbed_round (watched : Bool) :
    Undisturbed (InHand w front i outcomes fun s => s.Draws ∨ s.Stalls) (Engine.round watched i)
      (Sum.elim (fun _ => InHand w front i outcomes fun s => s.Draws ∨ s.Stalls)
        fun r => InHand w front i outcomes fun s => s.LeftByRun r) := by
  rw [Engine.round_eq]
  refine undisturbed_look fun s hs => ?_
  have hd : s.isDone = false := hs.elim Slot.Draws.isDone Slot.Stalls.isDone
  split
  next hpaused =>
    refine undisturbed_stay fun _ _ h => h.mono ?_
    rw [h.here]
    exact ⟨hpaused, hd⟩
  next =>
    refine undisturbed_look fun s' hs' => ?_
    subst hs'
    split
    next hstalled =>
      refine undisturbed_steer Slot.Stalls (.inr ⟨_, rfl⟩) (fun x hx => hx ▸ hd)
        (fun m x hx => ?_) fun _ => ?_
      · rw [Action.onto_change, if_pos rfl, hx]
        exact ⟨rfl, hstalled⟩
      refine undisturbed_steer Slot.Stalls (.inl rfl) (fun x hx => hx.isDone)
        (fun m x hx => ?_) fun woken => ?_
      · unfold Action.onto
        dsimp only
        split
        · exact hx
        · exact hx
      unfold Engine.waited
      split
      · refine undisturbed_look fun x hx => ?_
        rw [if_pos hx.2]
        exact undisturbed_stay fun _ _ h => h.mono (.inr (h.here ▸ hx))
      · exact undisturbed_stay fun _ _ h => h.mono h.here.leftBy
    next hstalled =>
      have hdraws : s'.Draws := hs.resolve_right fun h => hstalled h.2
      refine Keeps.pre ?_ fun t v (h : InHand w front i outcomes (· = s') t v) =>
        h.mono (h.here ▸ hdraws)
      exact keeps_bind (undisturbed_quiet (only_access (by simp))) (undisturbed_dispatch watched)

/-- **A run** of a list that is neither reset nor done. -/
theorem undisturbed_execute (watched : Bool) {s : Slot} (hreset : s.flags.reset = false)
    (hdone : s.isDone = false) :
    Undisturbed (InHand w front i outcomes (· = s)) (Engine.execute watched i)
      fun r => InHand w front i outcomes fun s => s.LeftByRun r := by
  have hrun : ∀ s : Slot, s.isDone = false → Undisturbed (InHand w front i outcomes (· = s))
      (change i (.setStatus .drawing) >>= fun _ => iterate () fun _ => Engine.round watched i)
      fun r => InHand w front i outcomes fun s => s.LeftByRun r := by
    intro s hs
    refine undisturbed_steer Slot.Draws (.inr ⟨_, rfl⟩) (fun x hx => hx ▸ hs) (fun m x _ => ?_)
      fun _ => ?_
    · rw [Action.onto_change, if_pos rfl]
      rfl
    · exact keeps_iterate (I := fun _ => InHand w front i outcomes fun s => s.Draws ∨ s.Stalls)
        (fun _ _ h => h.mono (.inl h.here)) (fun _ _ _ => trivial) stable_inHand
        fun _ => undisturbed_round watched
  refine undisturbed_look fun x hx => ?_
  rw [hx, if_neg (by simp [hreset])]
  refine undisturbed_look fun y hy => ?_
  split
  · refine undisturbed_steer (· = (Change.perform y (.setRestarted false)).2)
      (.inl ⟨rfl, trivial⟩) (fun x hx => ?_) (fun m x hx => ?_) fun _ => hrun _ ?_
    · rw [hx, hy]
      exact hdone
    · rw [Action.onto_change, if_pos rfl, hx]
    · rw [hy]
      exact hdone
  · exact hrun _ (hy ▸ hdone)

/-! ## A turn -/

/-- Once the run is over, the queue is as it should be, and no list has changed but those that were
run. -/
def Finished (w : FrontEnd) (r : Except Failure (List (Nat × Outcome))) : Assertion :=
  fun t v => Outturn w (taken t) r v ∧ ∀ j, (j ∈ taken t → w.runs j = false) → v.slot j = w.slot j

/-- What is known after a turn. -/
abbrev AfterServing (w : FrontEnd) : Engine.Served → Assertion :=
  Sum.elim (BetweenTurns w) (Finished w)

theorem stable_betweenTurns : Stable LeavesLists (BetweenTurns w outcomes) := by
  rintro t v u ⟨hslots, hqueue⟩ h
  have hslot : ∀ j, u.slot j = v.slot j := fun j => FrontEnd.slot_congr v j hslots
  exact ⟨h.nodup, hqueue ▸ h.queue, h.passed.congr fun j _ _ => hslot j,
    fun j hf => (hslot j).trans (h.spared j hf)⟩

theorem stable_finished {r : Except Failure (List (Nat × Outcome))} :
    Stable LeavesLists (Finished w r) := by
  rintro t v u ⟨hslots, hqueue⟩ ⟨hout, hspared⟩
  have hslot : ∀ j, u.slot j = v.slot j := fun j => FrontEnd.slot_congr v j hslots
  exact ⟨hout.congr hslot hqueue, fun j hf => (hslot j).trans (hspared j hf)⟩

namespace InHand

variable (h : InHand w front i outcomes P t v)
include h

theorem spared_of_runs (hi : w.runs i = true) {j : Nat}
    (hf : j ∈ DisplayList.taken t → w.runs j = false) : v.slot j = w.slot j := by
  rw [h.taken] at hf
  have hj : j ≠ i := by
    rintro rfl
    rw [hf (by simp)] at hi
    cases hi
  exact h.spared j hj fun hm => hf (List.mem_append_left _ hm)

theorem dropped (hi : w.runs i = false) (hs : v.slot i = w.slot i) :
    BetweenTurns w outcomes t v := by
  refine ⟨h.nodup, ?_, ?_, fun j hf => ?_⟩
  · rw [h.taken, List.append_assoc]
    exact h.queue
  · rw [h.taken]
    exact h.passed.drop hi
  · by_cases hj : j = i
    · rw [hj, hs]
    · rw [h.taken] at hf
      exact h.spared j hj fun hm => hf (List.mem_append_left _ hm)

theorem ended (hi : w.runs i = true) {o : Outcome} (ho : o.isEnded = true)
    (hs : (v.slot i).LeftBy o) : BetweenTurns w (outcomes ++ [((v.slot i).id, o)]) t v := by
  refine ⟨h.nodup, ?_, ?_, fun j => h.spared_of_runs hi⟩
  · rw [h.taken, List.append_assoc]
    exact h.queue
  · rw [h.taken]
    exact h.passed.concat hi ⟨h.id, hs⟩ ho

theorem requeued (hi : w.runs i = true) {r : Except Failure (List (Nat × Outcome))}
    (hout : ∀ u : FrontEnd, u.queue = i :: v.queue → (∀ j, u.slot j = v.slot j) →
      Outturn w (front ++ [i]) r u) :
    Finished w r (t ++ [.act (.enqueue i .head) v]) (v.enqueue i .head) := by
  have hqueue : (v.enqueue i .head).queue = i :: v.queue := by
    have hrest : v.queue.filter (· != i) = v.queue := by
      refine List.filter_eq_self.2 fun j hj => ?_
      have hne : j ≠ i := fun he => h.not_mem.2 (he ▸ hj)
      simp [hne]
    change i :: v.queue.filter (· != i) = _
    rw [hrest]
  have htaken : DisplayList.taken (t ++ [.act (.enqueue i .head) v]) = DisplayList.taken t := by
    rw [taken_snoc]
    exact List.append_nil _
  refine ⟨?_, fun j hf => ?_⟩
  · rw [htaken, h.taken]
    exact hout _ hqueue fun _ => rfl
  · rw [htaken] at hf
    exact h.spared_of_runs hi hf

end InHand

theorem undisturbed_requeue (hi : w.runs i = true) {r : Except Failure (List (Nat × Outcome))}
    (hout : ∀ t v, InHand w front i outcomes P t v → ∀ u : FrontEnd, u.queue = i :: v.queue →
      (∀ j, u.slot j = v.slot j) → Outturn w (front ++ [i]) r u) :
    Undisturbed (InHand w front i outcomes P)
      (perform (.enqueue i .head) >>= fun _ => .done (.inr r)) (AfterServing w) := by
  refine keeps_perform stable_inHand (fun _ _ _ => trivial) fun t v hv => ?_
  refine Keeps.now (P := Finished w r) ?_ (hv.requeued hi (hout t v hv))
  exact keeps_stay stable_finished (fun _ _ _ => trivial) fun _ _ h => h

/-- **The list is left.** -/
theorem undisturbed_leave (hi : w.runs i = true) (r : Except Failure Outcome) :
    Undisturbed (InHand w front i outcomes fun s => s.LeftByRun r) (Engine.leave i outcomes r)
      (AfterServing w) := by
  cases r with
  | error e =>
    refine undisturbed_requeue hi fun t v hv u hq hslot => ?_
    exact .failed hv.queue hi (hv.passed.congr fun j _ _ => hslot j) ((hslot i).symm ▸ hv.here) hq
  | ok o =>
    refine undisturbed_look fun s hs => ?_
    split
    next ho =>
      refine keeps_stay stable_inHand (fun _ _ _ => trivial) fun t v hv => ?_
      have hended := hv.ended hi ho (hv.here.symm ▸ hs)
      rwa [hv.here] at hended
    next ho =>
      refine undisturbed_requeue hi fun t v hv u hq hslot => ?_
      refine .held hv.queue hi (hv.passed.congr fun j _ _ => hslot j) ⟨?_, ?_⟩
        (Bool.eq_false_iff.2 ho) hq
      · exact (congrArg Slot.id hv.here).symm.trans hv.id
      · exact (hslot i).symm ▸ hv.here.symm ▸ hs

/-- **A list taken from the queue** is dropped, or is run and left. -/
theorem undisturbed_serve (watched : Bool) :
    Undisturbed (InHand w front i outcomes (· = w.slot i)) (Engine.serve watched i outcomes)
      (AfterServing w) := by
  have hdropped : w.runs i = false → Undisturbed (InHand w front i outcomes (· = w.slot i))
      (.done (.inl outcomes)) (AfterServing w) := fun hi =>
    undisturbed_stay fun t v hv => hv.dropped hi hv.here
  refine undisturbed_look fun s hs => ?_
  subst hs
  split
  next hreset => exact hdropped (by simp [FrontEnd.runs, hreset])
  next hreset =>
    refine undisturbed_look fun s hs => ?_
    subst hs
    split
    next hdone => exact hdropped (by simp [FrontEnd.runs, hdone])
    next hdone =>
      have hi : w.runs i = true := by simp [FrontEnd.runs, hreset, hdone]
      refine keeps_bind (undisturbed_execute watched ?_ ?_) (undisturbed_leave hi)
      · exact Bool.eq_false_iff.2 hreset
      · exact Bool.eq_false_iff.2 hdone

theorem BetweenTurns.take (h : BetweenTurns w outcomes t v) (hq : v.queue = i :: rest) :
    InHand w (taken t) i outcomes (· = w.slot i) (t ++ [.act .dequeue v]) v.dequeue.2 := by
  have htaken : taken (t ++ [.act .dequeue v]) = taken t ++ [i] := by
    rw [taken_snoc]
    simp [Move.taken?, hq]
  have hqueue : w.queue = taken t ++ i :: v.dequeue.2.queue := by
    rw [h.queue, hq]
    simp [FrontEnd.dequeue, hq]
  have hi : i ∉ taken t := by
    intro hi
    have hn := hqueue ▸ h.nodup
    exact (List.nodup_append.1 hn).2.2 i hi i (by simp) rfl
  have hslot : v.slot i = w.slot i := h.spared i fun hm => absurd hm hi
  exact ⟨h.nodup, htaken, hqueue, h.passed.congr fun _ _ _ => rfl, fun j _ hf => h.spared j hf,
    congrArg Slot.id hslot, hslot⟩

theorem BetweenTurns.finished (h : BetweenTurns w outcomes t v) (hq : v.queue = []) :
    Finished w (.ok outcomes) (t ++ [.act .dequeue v]) v.dequeue.2 := by
  have htaken : taken (t ++ [.act .dequeue v]) = taken t := by
    rw [taken_snoc]
    simp [Move.taken?, hq]
  have hall : w.queue = taken t := by rw [h.queue, hq, List.append_nil]
  have hpassed := h.passed
  refine ⟨?_, fun j hf => h.spared j (htaken ▸ hf)⟩
  rw [htaken, ← hall]
  rw [← hall] at hpassed
  refine .emptied (hpassed.congr fun _ _ _ => rfl) ?_
  simp [FrontEnd.dequeue, hq]

theorem undisturbed_drain (watched : Bool) :
    Undisturbed (BetweenTurns w []) (Engine.drain watched) (Finished w) := by
  rw [Engine.drain_eq]
  refine keeps_iterate (I := fun outcomes => BetweenTurns w outcomes) (fun _ _ h => h)
    (fun _ _ _ => trivial) stable_betweenTurns fun outcomes => ?_
  refine keeps_perform stable_betweenTurns (fun _ _ _ => trivial) fun t v hv => ?_
  have hdequeue : Action.dequeue.perform v = (v.queue.head?, v.dequeue.2) := rfl
  rw [hdequeue]
  cases hq : v.queue with
  | nil =>
    refine Keeps.now (P := Finished w (.ok outcomes)) ?_ (hv.finished hq)
    exact keeps_stay stable_finished (fun _ _ _ => trivial) fun _ _ h => h
  | cons i rest => exact (undisturbed_serve watched).now (hv.take hq)

/-! ## Any queue -/

/-- **No list is ever queued twice.** -/
theorem nodup_reach (hw : w.queue.Nodup) (h : Relation.ReflTransGen Anybody w v) :
    v.queue.Nodup := by
  induction h with
  | refl => exact hw
  | @tail v u _ ho ih =>
    cases ho with
    | @act a _ => exact Action.nodup_perform a ih
    | tell r =>
      obtain ⟨host, journal, hm⟩ := v.tell_frame r
      rw [hm]
      exact ih

/-- **The engine takes its first lists from the queue**, and no others: it drops those that were
reset or are done, and runs the others until one does not come to its END word. Whatever was done
since the queue was empty, beside others who leave the lists and the queue alone, the queue, the
lists and the answer are as `Outturn` says when a run is over, and no list has changed but those
that were run. -/
theorem drain_outturn {watched : Bool} {r : Except Failure (List (Nat × Outcome))}
    (hempty : v.queue = []) (hreach : Relation.ReflTransGen Anybody v w)
    (h : Goes LeavesLists (Engine.drain watched) w t (.done r) u) :
    Outturn w (taken t) r u ∧ ∀ j, (j ∈ taken t → w.runs j = false) → u.slot j = w.slot j := by
  have hv : v.queue.Nodup := by simp [hempty]
  have hstart : BetweenTurns w [] [] w :=
    ⟨nodup_reach hv hreach, rfl, .nil w w, fun _ _ => rfl⟩
  exact ((undisturbed_drain watched).ends hstart h).2

/-- Of three lists queued the first ends, the second was cancelled and is dropped, and the third
has stalled and is queued again. -/
theorem drain_outturn_stalled : ∃ w t u, w.queue = [0, 1, 2] ∧
    Goes LeavesLists (Engine.drain true) w t
      (.done (.ok [(0, .ended false), (2, .stalled)])) u ∧
    taken t = [0, 1, 2] ∧ u.queue = [2] ∧
      Outturn w (taken t) (.ok [(0, .ended false), (2, .stalled)]) u := by
  let x := endQueued.accept 1 ⟨0x08900000, 0, 0, none⟩
  let y := x.accept 2 ⟨0x08A00000, 0x08A00000, 0, none⟩
  let w := ((Action.change 1 (.setStatus .cancelled)).perform y).2
  have hwrite : Relation.ReflTransGen Anybody idlePool
      ((Action.write 0x08800000 [0x0C000000]).perform idlePool).2 := .single (.act trivial _)
  have hend : Relation.ReflTransGen Anybody idlePool endQueued :=
    hwrite.trans (reach_accept rfl (by decide +kernel) (by decide +kernel))
  have hx : Relation.ReflTransGen Anybody idlePool x :=
    hend.trans (reach_accept rfl (by decide +kernel) (by decide +kernel))
  have hy : Relation.ReflTransGen Anybody idlePool y :=
    hx.trans (reach_accept rfl (by decide +kernel) (by decide +kernel))
  have hw : Relation.ReflTransGen Anybody idlePool w := hy.tail (.act trivial _)
  have hrun : ((Engine.drain true).trace 100 w).map
      (fun x => (x.2.1, taken x.1, x.2.2.queue)) =
      some (.ok [(0, .ended false), (2, .stalled)], [0, 1, 2], [2]) := by decide +kernel
  obtain ⟨⟨t, r, u⟩, hu, he⟩ := Option.map_eq_some_iff.1 hrun
  obtain ⟨rfl, he⟩ := Prod.mk.inj he
  obtain ⟨htaken, hqueue⟩ := Prod.mk.inj he
  have hgoes : Goes LeavesLists (Engine.drain true) w t (.done _) u :=
    (alone_of_trace hu).mono fun _ _ ho => ho.elim
  exact ⟨w, t, u, by decide +kernel, hgoes, htaken, hqueue, (drain_outturn rfl hw hgoes).1⟩

end Process

end DisplayList
