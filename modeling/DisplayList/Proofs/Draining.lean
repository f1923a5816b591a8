import DisplayList.Proofs.Trailing

/-!
# The queue beside the producer

The engine serves the only list in its queue, alone with all its words or beside the producer. In
the end it leaves the list in the same way; before that it may let go of it at its stall address
and find it in the queue again.

* `Engine.leftBy`: what a run leaves behind; **`alone_drain`**: a queue of one list, served alone;
* `Waiting`: a list that is queued beside the producer; **`keeps_drain`**: it is served as it is
  alone, or is left waiting.
-/

namespace DisplayList

variable {i n : Nat} {start stop : Address} {goal : Memory} {x y v u w : FrontEnd} {watched : Bool}
  {ρ : Except Failure Outcome}

/-! ## The queue while a list runs -/

theorem Action.Steers.frame {j : Nat} {a : Action} (ha : a.Steers j) (w : FrontEnd) :
    ∃ slots queue registers events host journal,
      (a.perform w).2 = { w with slots, queue, registers, events, host, journal } ∧
        (w.selected? = none → queue = w.queue) := by
  have hsame : ∃ slots queue registers events host journal,
      w = { w with slots, queue, registers, events, host, journal } ∧
        (w.selected? = none → queue = w.queue) :=
    ⟨w.slots, w.queue, w.registers, w.events, w.host, w.journal, rfl, fun _ => rfl⟩
  have hslots : ∀ slots, ∃ slots' queue registers events host journal,
      { w with slots } = { w with slots := slots', queue, registers, events, host, journal } ∧
        (w.selected? = none → queue = w.queue) := fun slots =>
    ⟨slots, w.queue, w.registers, w.events, w.host, w.journal, rfl, fun _ => rfl⟩
  rcases ha with ha | ⟨s, rfl⟩
  · cases a with
    | look k => exact hsame
    | change k c => exact hslots _
    | await k => exact hslots _
    | access k a => exact hslots _
    | accessWith k address c a => exact hslots _
    | notify k n =>
      obtain ⟨-, rfl⟩ := ha
      obtain ⟨queue, events, journal, hn⟩ := w.notify_frame k .finished
      refine ⟨w.slots, queue, w.registers, events, w.host, journal, hn, fun hw => ?_⟩
      have hb := FrontEnd.notify_builtin (i := k) hw .finished
      rw [hn] at hb
      exact congrArg FrontEnd.queue hb
    | kind => exact hsame
    | registers => exact hsame
    | setRegisters r =>
      exact ⟨w.slots, w.queue, r, w.events, w.host, w.journal, rfl, fun _ => rfl⟩
    | testVisible =>
      exact ⟨w.slots, w.queue, w.registers, w.events, _, _, rfl, fun _ => rfl⟩
    | _ => exact ha.elim
  · exact hslots _

theorem runs_steers {j : Nat} {a : Action} (ha : a.Steers j) (w : FrontEnd) :
    Runs i w (a.perform w).2 := by
  have hstall : ((a.perform w).2.slot i).stall = (w.slot i).stall :=
    Action.slot_perform_of (P := fun s => s.stall = (w.slot i).stall) rfl (ha.stall_onto ..)
  have hsize := Action.size_perform a w
  obtain ⟨slots, queue, registers, events, host, journal, h, -⟩ := ha.frame w
  rw [h] at hstall hsize ⊢
  exact ⟨rfl, hstall, hsize, rfl⟩

namespace Process

open Engine

theorem alone_queue {α : Type} {p : Process α} {j : Nat} {t : List Move} {r : α}
    (hp : Only (Action.Steers j) p) (hx : x.selected? = none) (h : Alone p x t r y) :
    y.queue = x.queue := by
  have hkept : y.selected? = none ∧ y.queue = x.queue := by
    refine alone_only (P := fun w => w.selected? = none ∧ w.queue = x.queue) (fun a w ha hw => ?_)
      (fun r w hw => ?_) hp ⟨hx, rfl⟩ h
    · obtain ⟨slots, queue, registers, events, host, journal, h, hq⟩ := ha.frame w
      rw [h]
      exact ⟨hw.1, (hq hw.1).trans hw.2⟩
    · obtain ⟨host, journal, ht⟩ := w.tell_frame r
      rw [ht]
      exact hw
  exact hkept.2

theorem OnWay.queue (h : OnWay i start stop goal watched ρ y n x) : y.queue = x.queue := by
  obtain ⟨t₁, t, hrun, -⟩ := h.run
  exact alone_queue (only_iterate fun _ => only_round watched) h.fed.builtin hrun

end Process

/-! ## A queue of one list, served alone -/

/-- The list is queued, all its words are in memory, and it has not run yet. -/
structure Whole (i : Nat) (start stop : Address) (goal : Memory) (x : FrontEnd) : Prop where
  fed : x.Fed i start stop goal
  closed : x.closed = true
  queue : x.queue = [i]
  running : (x.slot i).isDone = false

namespace Engine

open Process

/-- The front end once the only list in the queue was left: it is put back unless it has ended. -/
def leaving (i : Nat) : Except Failure Outcome → FrontEnd → FrontEnd
  | .ok (.ended _), y => y
  | _, y => y.enqueue i .head

/-- What is said of the only list in the queue. -/
def account (i : Nat) (y : FrontEnd) (r : Except Failure Outcome) :
    Except Failure (List (Nat × Outcome)) :=
  r.map fun outcome => [((y.slot i).id, outcome)]

variable {t : List Move} {r : Except Failure (List (Nat × Outcome))}
  {outcomes : List (Nat × Outcome)}

theorem perform_dequeue_nil (hy : y.queue = []) : Action.dequeue.perform y = (none, y) := by
  have hsame : { y with queue := [] } = y := by rw [← hy]
  change y.dequeue = _
  unfold FrontEnd.dequeue
  rw [hy]
  change (none, { y with queue := [] }) = _
  rw [hsame]

theorem alone_leave (hy : y.queue = [])
    (h : Alone ((leave i [] ρ).bind (resume (turn watched) .done)) y t r u) :
    r = account i y ρ ∧ u = leaving i ρ y := by
  cases ρ with
  | error e =>
    obtain ⟨t', -, h'⟩ := alone_act.1 h
    obtain ⟨-, rfl, rfl⟩ := alone_done.1 h'
    exact ⟨rfl, rfl⟩
  | ok outcome =>
    obtain ⟨t', -, h'⟩ := alone_act.1 h
    change Alone (Process.bind (if outcome.isEnded then _ else _) _) y t' r u at h'
    cases outcome with
    | ended f =>
      obtain ⟨t'', -, h''⟩ := alone_act.1 (alone_loop.1 h')
      rw [perform_dequeue_nil hy] at h''
      obtain ⟨-, rfl, rfl⟩ := alone_done.1 h''
      exact ⟨rfl, rfl⟩
    | paused =>
      obtain ⟨t'', -, h''⟩ := alone_act.1 h'
      obtain ⟨-, rfl, rfl⟩ := alone_done.1 h''
      exact ⟨rfl, rfl⟩
    | stalled =>
      obtain ⟨t'', -, h''⟩ := alone_act.1 h'
      obtain ⟨-, rfl, rfl⟩ := alone_done.1 h''
      exact ⟨rfl, rfl⟩

theorem alone_serve {α : Type} {k : Served → Process α} {r : α}
    (hkept : (x.slot i).flags.reset = false) (hrunning : (x.slot i).flags.restarted = false)
    (hdone : (x.slot i).isDone = false) (h : Alone ((serve watched i []).bind k) x t r u) :
    ∃ t₀ t₁ t₂ ρ y, t = t₀ ++ (t₁ ++ t₂) ∧ (∀ m ∈ t₀, ¬ m.Fetches i) ∧
      Alone (iterate () fun _ => round watched i)
        ((Action.change i (.setStatus .drawing)).perform x).2 t₁ ρ y ∧
      Alone ((leave i [] ρ).bind k) y t₂ r u := by
  have hlook : ¬ (Move.act (.look i) x).Fetches i :=
    (Action.Plain.obeys (a := .look i) trivial).not_fetches x
  have hchange : ¬ (Move.act (.change i (.setStatus .drawing)) x).Fetches i :=
    (Action.Plain.obeys (a := .change i (.setStatus .drawing)) trivial).not_fetches x
  obtain ⟨ta, rfl, ha⟩ := alone_act.1 h
  change Alone (Process.bind (if (x.slot i).flags.reset then _ else _) k) x ta r u at ha
  rw [if_neg (by rw [hkept]; decide), runUnlessDone_eq] at ha
  obtain ⟨tb, rfl, hb⟩ := alone_act.1 ha
  change Alone (Process.bind (if (x.slot i).isDone then _ else _) k) x tb r u at hb
  rw [if_neg (by rw [hdone]; decide)] at hb
  obtain ⟨tc, rfl, hc⟩ := alone_act.1 hb
  change Alone (Process.bind (if (x.slot i).flags.reset then _ else _) k) x tc r u at hc
  rw [if_neg (by rw [hkept]; decide)] at hc
  obtain ⟨td, rfl, hd⟩ := alone_act.1 hc
  change Alone (Process.bind (if (x.slot i).flags.restarted then _ else _) k) x td r u at hd
  rw [if_neg (by rw [hrunning]; decide)] at hd
  obtain ⟨te, rfl, he⟩ := alone_act.1 hd
  change Alone ((running watched i []).bind k) _ te r u at he
  rw [running_eq, bind_assoc] at he
  obtain ⟨ρ, y, t₁, t₂, rfl, h₁, h₂⟩ := alone_bind.1 he
  refine ⟨[.act (.look i) x, .act (.look i) x, .act (.look i) x, .act (.look i) x,
    .act (.change i (.setStatus .drawing)) x], t₁, t₂, ρ, y, rfl, fun m hm => ?_, h₁, h₂⟩
  simp only [List.mem_cons, List.not_mem_nil, or_false] at hm
  rcases hm with rfl | rfl | rfl | rfl | rfl
  · exact hlook
  · exact hlook
  · exact hlook
  · exact hlook
  · exact hchange

/-- **A queue of one list, served alone.** -/
theorem alone_drain (hx : Whole i start stop goal x) (hnear : Near i start t)
    (h : Alone (drain watched) x t r u) :
    ∃ ρ y x', OnWay i start stop goal watched ρ y 0 x' ∧ x'.shown = { x with queue := [] }.shown ∧
      y.queue = [] ∧ r = account i y ρ ∧ u = leaving i ρ y := by
  rw [drain_eq] at h
  obtain ⟨ta, rfl, ha⟩ := alone_act.1 (alone_loop.1 h)
  have hdequeue : Action.dequeue.perform x = (some i, { x with queue := [] }) := by
    change x.dequeue = _
    unfold FrontEnd.dequeue
    rw [hx.queue]
    rfl
  rw [hdequeue] at ha
  have hfed : { x with queue := [] }.Fed i start stop goal :=
    hx.fed.congr rfl rfl hx.fed.quiet rfl rfl
  obtain ⟨tb, t₁, t₂, ρ, y, rfl, htb, hrun, hleave⟩ := alone_serve hfed.slot.kept
    hfed.slot.running hx.running ha
  have hbegin : ∀ m ∈ .act .dequeue x :: tb, ¬ m.Fetches i := by
    intro m hm
    rcases List.mem_cons.1 hm with rfl | hm
    · exact (Action.Plain.obeys (a := .dequeue) trivial).not_fetches x
    · exact htb m hm
  have hrest : Near i start (t₁ ++ t₂) := Near.right (t := .act .dequeue x :: tb) hnear hbegin
  have hset : (Action.change i (.setStatus .drawing)).Hidden := trivial
  have hway : OnWay i start stop goal watched ρ y 0
      ((Action.change i (.setStatus .drawing)).perform { x with queue := [] }).2 :=
    ⟨hfed.perform hset.serves, hx.closed, [], t₁, hrun, hrest.left, fun m hm => by cases hm⟩
  have hqueue : y.queue = [] := hway.queue
  obtain ⟨hr, hu⟩ := alone_leave hqueue hleave
  exact ⟨ρ, y, _, hway, hset.shown _, hqueue, hr, hu⟩

end Engine

/-! ## A queue of one list, beside the producer -/

theorem Feeder.dequeued (h : Feeder i start stop goal v u) :
    Feeder i start stop goal { v with queue := [] } { u with queue := [] } := by
  intro hfed
  have hv : v.Fed i start stop goal := hfed.congr rfl rfl hfed.quiet rfl rfl
  obtain ⟨hu, hshown, hstatus, hstall, hat⟩ := h hv
  exact ⟨hu.congr rfl rfl hu.quiet rfl rfl,
    congrArg (fun w : FrontEnd => { w with queue := [] }) hshown, hstatus, hstall, hat⟩

theorem Mirrors.perform {a : Action} (h : Mirrors i start stop goal x v) (ha : a.Plain) :
    Mirrors i start stop goal (a.perform x).2 (a.perform v).2 := by
  have hx : x.selected? = none :=
    (congrArg FrontEnd.selected? h.shown.symm :).trans h.fed.builtin
  exact ⟨h.fed.perform ha.serves, (ha.shown h.shown hx).2⟩

namespace Process

open Engine

/-- The list is queued, and it trails a run of the whole list. -/
structure Waiting (i : Nat) (start stop : Address) (goal : Memory) (watched : Bool)
    (ρ : Except Failure Outcome) (y : FrontEnd) (n : Nat) (v : FrontEnd) : Prop where
  queue : v.queue = [i]
  running : (v.slot i).isDone = false
  trailing : Trailing i start stop goal watched ρ y n { v with queue := [] }

variable {others : FrontEnd → FrontEnd → Prop}
  (ho : ∀ v u, others v u → Feeder i start stop goal v u)

theorem isDone_of_feeds (h : Feeds i start stop goal v u) :
    (u.slot i).isDone = (v.slot i).isDone := by
  unfold Slot.isDone
  rw [h.status]

include ho in
theorem stable_waiting :
    Stable others fun _ => Waiting i start stop goal watched ρ y n := by
  intro t v u hvu hv
  obtain ⟨x, hx⟩ := hv.trailing
  have hfed := hx.mirrors.fed
  have hf := ho v u hvu (hfed.congr rfl rfl hfed.quiet rfl rfl)
  have hqueue : u.queue = v.queue := (congrArg FrontEnd.queue hf.shown :)
  exact ⟨hqueue.trans hv.queue, (isDone_of_feeds hf).trans hv.running, x,
    hx.feeder (ho v u hvu).dequeued⟩

theorem Trails.queue (h : Trails i start stop goal watched ρ y n x v) : v.queue = y.queue := by
  have hqueue : v.queue = x.queue := (congrArg FrontEnd.queue h.mirrors.shown :)
  rw [hqueue, h.way.queue]

/-- **A list that has stalled is queued again.** -/
theorem Stalled.waiting (hy : y.queue = [])
    (h : Stalled i (Trailing i start stop goal watched ρ y n) v) :
    Waiting i start stop goal watched ρ y n (v.enqueue i .head) := by
  obtain ⟨⟨x, hx⟩, hstatus⟩ := h
  have hqueue := hx.queue.trans hy
  have hsame : { v.enqueue i .head with queue := [] } = v := by rw [← hqueue]; rfl
  refine ⟨?_, ?_, x, ?_⟩
  · unfold FrontEnd.enqueue
    rw [hqueue]
    rfl
  · change (v.slot i).isDone = false
    unfold Slot.isDone
    rw [hstatus]
    rfl
  · rw [hsame]
    exact hx

/-- What the engine says of its queue beside the producer: what it says alone, or that the list has
stalled before it has all its words, and is queued again. -/
def Drained (i : Nat) (start stop : Address) (goal : Memory) (watched : Bool)
    (ρ : Except Failure Outcome) (y : FrontEnd) (n : Nat)
    (r : Except Failure (List (Nat × Outcome))) (v : FrontEnd) : Prop :=
  (r = account i y ρ ∧ (ρ = .ok .stalled → stop.toNat ≤ n) ∧
    AtEnd i start stop goal ρ (leaving i ρ y) v) ∨
  ((∃ id, r = .ok [(id, .stalled)]) ∧ n < stop.toNat ∧
    Waiting i start stop goal watched ρ y n v)

/-- Before the engine takes a list from the queue: it has not run the only one, or that has
ended. -/
def BeforeTurn (i : Nat) (start stop : Address) (goal : Memory) (watched : Bool)
    (ρ : Except Failure Outcome) (y : FrontEnd) (n : Nat) (outcomes : List (Nat × Outcome))
    (v : FrontEnd) : Prop :=
  (outcomes = [] ∧ Waiting i start stop goal watched ρ y n v) ∨
  (account i y ρ = .ok outcomes ∧ leaving i ρ y = y ∧ ρ ≠ .ok .stalled ∧
    AtEnd i start stop goal ρ y v)

/-- What comes after a turn. -/
abbrev AfterTurn (i : Nat) (start stop : Address) (goal : Memory) (watched : Bool)
    (ρ : Except Failure Outcome) (y : FrontEnd) (n : Nat) : Served → Assertion :=
  Sum.elim (fun outcomes _ => BeforeTurn i start stop goal watched ρ y n outcomes)
    fun r _ => Drained i start stop goal watched ρ y n r

include ho in
theorem stable_trailing : Stable others fun _ => Trailing i start stop goal watched ρ y n := by
  intro t v u hvu hv
  obtain ⟨x, hv⟩ := hv
  exact ⟨x, hv.feeder (ho v u hvu)⟩

include ho in
theorem stable_stalled :
    Stable others fun _ => Stalled i (Trailing i start stop goal watched ρ y n) := by
  intro t v u hvu hv
  obtain ⟨⟨x, hx⟩, hstatus⟩ := hv
  exact ⟨⟨x, hx.feeder (ho v u hvu)⟩, (ho v u hvu hx.mirrors.fed).status.trans hstatus⟩

include ho in
theorem keeps_left (hn : ρ = .ok .stalled → stop.toNat ≤ n) :
    Keeps others (fun _ => AtEnd i start stop goal ρ y) (leave i [] ρ) (fun _ => True)
      (AfterTurn i start stop goal watched ρ y n) := by
  have hst : Stable others fun _ => AtEnd i start stop goal ρ y := stable_atEnd ho
  have hput : ∀ (r : Except Failure (List (Nat × Outcome))), r = account i y ρ →
      leaving i ρ y = y.enqueue i .head →
      Keeps others (fun _ => AtEnd i start stop goal ρ y)
        (perform (.enqueue i .head) >>= fun _ => .done (.inr r)) (fun _ => True)
        (AfterTurn i start stop goal watched ρ y n) := by
    intro r hr hl
    refine keeps_perform hst (fun _ _ _ => trivial) fun t v hv => ?_
    have hm := hv.mirrors.perform (a := .enqueue i .head) trivial
    have hrests : Rests i ρ (v.enqueue i .head) := hv.rests.congr rfl
    refine Keeps.now (P := fun _ => AtEnd i start stop goal ρ (y.enqueue i .head)) ?_ ⟨hm, hrests⟩
    refine keeps_stay (stable_atEnd ho) (fun _ _ _ => trivial) fun t v hv => .inl ⟨hr, hn, ?_⟩
    rw [hl]
    exact hv
  cases ρ with
  | error e => exact hput _ rfl rfl
  | ok outcome =>
    refine keeps_perform hst (fun _ _ _ => trivial) fun t v hv => ?_
    have hid : (v.slot i).id = (y.slot i).id := (congrArg Slot.id hv.mirrors.slot :)
    refine Keeps.now (P := fun _ => AtEnd i start stop goal (.ok outcome) y) ?_ hv
    change Keeps _ _ (if outcome.isEnded
      then (.done (.inl [((v.slot i).id, outcome)]) : Process Served)
      else perform (.enqueue i .head) >>= fun _ =>
        .done (.inr (.ok [((v.slot i).id, outcome)]))) _ _
    rw [hid]
    cases outcome with
    | ended f =>
      refine keeps_stay hst (fun _ _ _ => trivial) fun t v hv => .inr ⟨rfl, rfl, ?_, hv⟩
      intro he
      cases he
    | paused => exact hput _ rfl rfl
    | stalled => exact hput _ rfl rfl

include ho in
/-- **A list is left** beside the producer. -/
theorem trails_leave (hy : y.queue = []) (r : Except Failure Outcome) :
    Keeps others (fun _ => Came i start stop goal watched ρ y n r) (leave i [] r) (fun _ => True)
      (AfterTurn i start stop goal watched ρ y n) := by
  refine keeps_iff.2 fun t v hv => ?_
  rcases hv with ⟨rfl, hn, hv⟩ | ⟨rfl, hn, hs⟩
  · exact (keeps_left ho hn).now hv
  · have hst : Stable others fun _ => Stalled i (Trailing i start stop goal watched ρ y n) :=
      stable_stalled ho
    refine Keeps.now (P := fun _ => Stalled i (Trailing i start stop goal watched ρ y n)) ?_ hs
    refine keeps_perform hst (fun _ _ _ => trivial) fun t v hv => ?_
    refine Keeps.now (P := fun _ => Stalled i (Trailing i start stop goal watched ρ y n)) ?_ hv
    generalize ((Action.look i).perform v).1.id = id
    refine keeps_perform hst (fun _ _ _ => trivial) fun t v hv => ?_
    refine Keeps.now (P := fun _ => Waiting i start stop goal watched ρ y n) ?_ (hv.waiting hy)
    exact keeps_stay (stable_waiting ho) (fun _ _ _ => trivial) fun t v hv =>
      .inr ⟨⟨_, rfl⟩, hn, hv⟩

/-- The list was taken from the queue. -/
structure Serving (i : Nat) (start stop : Address) (goal : Memory) (watched : Bool)
    (ρ : Except Failure Outcome) (y : FrontEnd) (n : Nat) (v : FrontEnd) : Prop where
  running : (v.slot i).isDone = false
  trailing : Trailing i start stop goal watched ρ y n v

theorem Serving.fed (h : Serving i start stop goal watched ρ y n v) :
    v.Fed i start stop goal := by
  obtain ⟨x, hx⟩ := h.trailing
  exact hx.mirrors.fed

include ho in
theorem stable_serving : Stable others fun _ => Serving i start stop goal watched ρ y n := by
  intro t v u hvu hv
  have hf := ho v u hvu hv.fed
  exact ⟨(isDone_of_feeds hf).trans hv.running, stable_trailing ho t v u hvu hv.trailing⟩

include ho in
/-- **A list taken from the queue** is run until it is left. -/
theorem trails_serve (hy : y.queue = []) :
    Keeps others (fun _ => Serving i start stop goal watched ρ y n) (serve watched i [])
      (fun _ => True) (AfterTurn i start stop goal watched ρ y n) := by
  have hst : Stable others fun _ => Serving i start stop goal watched ρ y n := stable_serving ho
  refine keeps_perform hst (fun _ _ _ => trivial) fun t v hv => ?_
  refine Keeps.now (P := fun _ => Serving i start stop goal watched ρ y n) ?_ hv
  change Keeps _ _ (if (v.slot i).flags.reset then _ else _) _ _
  rw [if_neg (by rw [hv.fed.slot.kept]; decide), runUnlessDone_eq]
  refine keeps_perform hst (fun _ _ _ => trivial) fun t v hv => ?_
  refine Keeps.now (P := fun _ => Serving i start stop goal watched ρ y n) ?_ hv
  change Keeps _ _ (if (v.slot i).isDone then _ else _) _ _
  rw [if_neg (by rw [hv.running]; decide)]
  refine keeps_perform hst (fun _ _ _ => trivial) fun t v hv => ?_
  refine Keeps.now (P := fun _ => Serving i start stop goal watched ρ y n) ?_ hv
  change Keeps _ _ (if (v.slot i).flags.reset then _ else _) _ _
  rw [if_neg (by rw [hv.fed.slot.kept]; decide)]
  refine keeps_perform hst (fun _ _ _ => trivial) fun t v hv => ?_
  refine Keeps.now (P := fun _ => Serving i start stop goal watched ρ y n) ?_ hv
  change Keeps _ _ (if (v.slot i).flags.restarted then _ else _) _ _
  rw [if_neg (by rw [hv.fed.slot.running]; decide)]
  refine keeps_perform hst (fun _ _ _ => trivial) fun t v hv => ?_
  obtain ⟨x, hx⟩ := hv.trailing
  have hset : (Action.change i (.setStatus .drawing)).Hidden := trivial
  refine Keeps.now (P := fun _ => Trailing i start stop goal watched ρ y n) ?_ ⟨x, hx.hidden hset⟩
  rw [running_eq]
  exact keeps_bind (trails_rounds ho) fun r => trails_leave ho hy r

include ho in
/-- **A turn** beside the producer. -/
theorem trails_turn (hy : y.queue = []) (outcomes : List (Nat × Outcome)) :
    Keeps others (fun _ => BeforeTurn i start stop goal watched ρ y n outcomes)
      (turn watched outcomes) (fun _ => True) (AfterTurn i start stop goal watched ρ y n) := by
  refine keeps_iff.2 fun t v hv => ?_
  rcases hv with ⟨rfl, hv⟩ | ⟨hr, hl, hne, hv⟩
  · refine Keeps.now (P := fun _ => Waiting i start stop goal watched ρ y n) ?_ hv
    refine keeps_perform (stable_waiting ho) (fun _ _ _ => trivial) fun t v hv => ?_
    have hdequeue : Action.dequeue.perform v = (some i, { v with queue := [] }) := by
      change v.dequeue = _
      unfold FrontEnd.dequeue
      rw [hv.queue]
      rfl
    rw [hdequeue]
    exact (trails_serve ho hy).now ⟨hv.running, hv.trailing⟩
  · refine Keeps.now (P := fun _ => AtEnd i start stop goal ρ y) ?_ hv
    refine keeps_perform (stable_atEnd ho) (fun _ _ _ => trivial) fun t v hv => ?_
    have hqueue : v.queue = y.queue := (congrArg FrontEnd.queue hv.mirrors.shown :)
    rw [perform_dequeue_nil (hqueue.trans hy)]
    refine Keeps.now (P := fun _ => AtEnd i start stop goal ρ y) ?_ hv
    refine keeps_stay (stable_atEnd ho) (fun _ _ _ => trivial) fun t v hv =>
      .inl ⟨hr.symm, fun he => absurd he hne, ?_⟩
    rw [hl]
    exact hv

include ho in
/-- **The queue is served beside the producer as it is alone**, or the list is left waiting. -/
theorem trails_drain (hy : y.queue = []) :
    Keeps others (fun _ => Waiting i start stop goal watched ρ y n) (drain watched)
      (fun _ => True) fun r _ => Drained i start stop goal watched ρ y n r := by
  rw [drain_eq]
  refine keeps_iterate
    (I := fun outcomes _ => BeforeTurn i start stop goal watched ρ y n outcomes)
    (fun _ _ h => .inl ⟨rfl, h⟩) (fun _ _ _ => trivial) (fun t v u hvu hv => ?_)
    fun outcomes => trails_turn ho hy outcomes
  rcases hv with ⟨hr, hv⟩ | ⟨hr, hl, hne, hv⟩
  · exact .inl ⟨hr, stable_waiting ho t v u hvu hv⟩
  · exact .inr ⟨hr, hl, hne, stable_atEnd ho t v u hvu hv⟩

end Process

end DisplayList
