import DisplayList.Proofs.Draining

/-!
# The worker

The worker serves the queue again and again while the list in it stalls. Beside the producer it
comes to what it comes to alone with all words, after some stalls.

* `Replay.judge`, `work_eq`: a round of the worker; **`alone_work`**: the worker, alone;
* **`keeps_work`**: the worker beside the producer;
* `Action.Works`: all that the worker does; **`Together.streams`**: producer and worker by turns.
-/

namespace DisplayList

variable {i n : Nat} {start stop : Address} {goal : Memory} {x y v u w : FrontEnd}
  {ρ : Except Failure Outcome}

namespace Replay

open Process Engine

/-! ## The worker, alone -/

/-- What the worker makes of what the engine says of its queue: it goes round again if the last list
has stalled and the producer was not done. -/
def judge (closed : Bool) (outcomes : List Outcome) : Except Failure (List (Nat × Outcome)) →
    List Outcome ⊕ Except Error (List Outcome)
  | .error e => .inr (.error (.execution e))
  | .ok ran =>
    match ran.getLast? with
    | some (_, .stalled) =>
      if closed then .inr (.ok (outcomes ++ ran.map (·.2))) else .inl (outcomes ++ ran.map (·.2))
    | _ => .inr (.ok (outcomes ++ ran.map (·.2)))

theorem work_eq : work = iterate [] fun outcomes => perform .isClosed >>= fun closed =>
    drain true >>= fun r => .done (judge closed outcomes r) := by
  unfold work
  congr 1
  funext outcomes
  congr 1
  funext closed
  congr 1
  funext r
  cases r with
  | error e => rfl
  | ok ran =>
    unfold judge
    dsimp only
    match ran.getLast? with
    | none => rfl
    | some (id, .ended f) => rfl
    | some (id, .paused) => rfl
    | some (id, .stalled) =>
      cases closed with
      | true => rfl
      | false => rfl

/-- What the worker says of a queue of one list. -/
def verdict : Except Failure Outcome → Except Error (List Outcome)
  | .error e => .error (.execution e)
  | .ok outcome => .ok [outcome]

theorem judge_account {closed : Bool} (outcomes : List Outcome)
    (h : ρ = .ok .stalled → closed = true) :
    judge closed outcomes (account i y ρ) = .inr ((verdict ρ).map (outcomes ++ ·)) := by
  cases ρ with
  | error e => rfl
  | ok outcome =>
    cases outcome with
    | ended f => rfl
    | paused => rfl
    | stalled =>
      rw [h rfl]
      rfl

variable {t : List Move} {r : Except Error (List Outcome)}

/-- **The worker, alone** with a list that has all its words. -/
theorem alone_work (hx : Whole i start stop goal x) (hnear : Near i start t)
    (h : Alone work x t r u) :
    ∃ ρ y x', OnWay i start stop goal true ρ y 0 x' ∧ x'.shown = { x with queue := [] }.shown ∧
      y.queue = [] ∧ r = verdict ρ ∧ u = leaving i ρ y := by
  rw [work_eq] at h
  obtain ⟨ta, rfl, ha⟩ := alone_act.1 (alone_loop.1 h)
  change Alone (Process.bind ((drain true).bind fun r => .done (judge x.closed [] r)) _) x ta r u
    at ha
  rw [hx.closed, bind_assoc] at ha
  obtain ⟨b, v, tb, tc, rfl, hb, hc⟩ := alone_bind.1 ha
  have hclosed : ∀ m ∈ [Move.act .isClosed x], ¬ m.Fetches i := by
    intro m hm
    rw [List.mem_singleton.1 hm]
    rintro ⟨word, hf⟩
    cases hf
  have hrest : Near i start (tb ++ tc) := Near.right (t := [.act .isClosed x]) hnear hclosed
  obtain ⟨ρ, y, x', hway, hx', hy, rfl, rfl⟩ := alone_drain hx hrest.left hb
  change Alone (Process.bind (.done (judge true [] (account i y ρ))) _) _ tc r u at hc
  rw [judge_account [] fun _ => rfl] at hc
  obtain ⟨-, rfl, rfl⟩ := alone_done.1 hc
  refine ⟨ρ, y, x', hway, hx', hy, ?_, rfl⟩
  cases ρ with
  | error e => rfl
  | ok outcome => rfl

/-! ## The worker beside the producer -/

variable {others : FrontEnd → FrontEnd → Prop}
  (ho : ∀ v u, others v u → Feeder i start stop goal v u)

/-- What the worker comes to beside the producer: what it comes to alone, after some stalls. -/
def Worked (i : Nat) (start stop : Address) (goal : Memory) (ρ : Except Failure Outcome)
    (y : FrontEnd) (r : Except Error (List Outcome)) (v : FrontEnd) : Prop :=
  (∃ k, r = (verdict ρ).map (List.replicate k .stalled ++ ·)) ∧
    AtEnd i start stop goal ρ (leaving i ρ y) v

/-- Before a round of the worker: the list has stalled in all rounds so far. -/
def BeforeRound (i : Nat) (start stop : Address) (goal : Memory) (ρ : Except Failure Outcome)
    (y : FrontEnd) (n : Nat) (outcomes : List Outcome) (v : FrontEnd) : Prop :=
  (∃ k, outcomes = List.replicate k .stalled) ∧ Waiting i start stop goal true ρ y n v

include ho in
theorem stable_beforeRound (outcomes : List Outcome) :
    Stable others fun _ => BeforeRound i start stop goal ρ y n outcomes :=
  fun t v u hvu hv => ⟨hv.1, stable_waiting ho t v u hvu hv.2⟩

include ho in
theorem stable_drained (r : Except Failure (List (Nat × Outcome))) :
    Stable others fun _ => Drained i start stop goal true ρ y n r := by
  intro t v u hvu hv
  rcases hv with ⟨hr, hn, hv⟩ | ⟨hr, hn, hv⟩
  · exact .inl ⟨hr, hn, stable_atEnd ho t v u hvu hv⟩
  · exact .inr ⟨hr, hn, stable_waiting ho t v u hvu hv⟩

include ho in
theorem keeps_judged (hy : y.queue = []) {closed : Bool} (hopen : closed = false → n = 0)
    (hclosed : closed = true → stop.toNat ≤ n) (outcomes : List Outcome) :
    Keeps others (fun _ => BeforeRound i start stop goal ρ y n outcomes)
      (drain true >>= fun r => .done (judge closed outcomes r)) (fun _ => True)
      (Sum.elim (fun outcomes _ => BeforeRound i start stop goal ρ y 0 outcomes)
        fun r _ => Worked i start stop goal ρ y r) := by
  refine keeps_iff.2 fun t v hv => ?_
  obtain ⟨⟨k, rfl⟩, hv⟩ := hv
  refine Keeps.now (P := fun _ => Waiting i start stop goal true ρ y n) ?_ hv
  refine keeps_bind (trails_drain ho hy) fun r => ?_
  refine keeps_stay (stable_drained ho r) (fun _ _ _ => trivial) fun t v hv => ?_
  rcases hv with ⟨rfl, hn, hv⟩ | ⟨⟨id, rfl⟩, hn, hv⟩
  · have hstop := hv.mirrors.fed.slot.low
    have hhigh := hv.mirrors.fed.slot.high
    have hc : ρ = .ok .stalled → closed = true := by
      intro he
      have hle := hn he
      cases closed with
      | true => rfl
      | false =>
        have hzero := hopen rfl
        omega
    rw [judge_account _ hc]
    exact ⟨⟨k, rfl⟩, hv⟩
  · cases closed with
    | true =>
      have hle := hclosed rfl
      omega
    | false =>
      obtain rfl := hopen rfl
      exact ⟨⟨k + 1, (List.replicate_succ' ..).symm⟩, hv⟩

include ho in
/-- **The worker beside the producer** comes to what it comes to alone, after some stalls. -/
theorem keeps_work (hy : y.queue = []) :
    Keeps others (fun _ => Waiting i start stop goal true ρ y 0) work (fun _ => True)
      fun r _ => Worked i start stop goal ρ y r := by
  rw [work_eq]
  refine keeps_iterate (I := fun outcomes _ => BeforeRound i start stop goal ρ y 0 outcomes)
    (fun _ _ h => ⟨⟨0, rfl⟩, h⟩) (fun _ _ _ => trivial) (stable_beforeRound ho [])
    fun outcomes => ?_
  refine keeps_perform (stable_beforeRound ho outcomes) (fun _ _ _ => trivial) fun t v hv => ?_
  change Keeps _ (Now _ v) (drain true >>= fun r => .done (judge v.closed outcomes r)) _ _
  cases hc : v.closed with
  | false => exact (keeps_judged ho hy (fun _ => rfl) (fun h => by cases h) outcomes).now hv
  | true =>
    -- All words were handed over, and a list that stalls now has run to the end of them.
    obtain ⟨hk, hqueue, hrunning, x, hx⟩ := hv
    have hstall := hx.mirrors.fed.closed hc
    have hlow : stop.toNat ≤ (v.slot i).stall.toNat :=
      Nat.le_of_eq (congrArg UInt32.toNat hstall.symm)
    have hv' : BeforeRound i start stop goal ρ y stop.toNat outcomes v :=
      ⟨hk, hqueue, hrunning, x, hx.way, hx.mirrors, hlow⟩
    exact (keeps_judged ho hy (fun h => by cases h) (fun _ => Nat.le_refl _) outcomes).now hv'

end Replay

/-! ## Producer and worker by turns -/

/-- An action of the worker. -/
def Action.Works (a : Action) : Prop :=
  (∃ j, a.Steers j) ∨ a = .dequeue ∨ a = .isClosed ∨ ∃ j, a = .enqueue j .head

namespace Action

variable {a : Action} (ha : a.Works)

include ha in
theorem Works.runs (i : Nat) (w : FrontEnd) : Runs i w (a.perform w).2 := by
  rcases ha with ⟨j, ha⟩ | rfl | rfl | ⟨j, rfl⟩
  · exact runs_steers ha w
  · exact ⟨rfl, rfl, rfl, rfl⟩
  · exact ⟨rfl, rfl, rfl, rfl⟩
  · exact ⟨rfl, rfl, rfl, rfl⟩

include ha in
theorem Works.leavesHost : a.LeavesHost := by
  rcases ha with ⟨j, ha | ⟨s, rfl⟩⟩ | rfl | rfl | ⟨j, rfl⟩
  · cases a with
    | setHost f => exact ha
    | _ => trivial
  · trivial
  · trivial
  · trivial
  · trivial

end Action

theorem runs_tell (i : Nat) (r : Report) (w : FrontEnd) : Runs i w (w.tell r).2 := by
  obtain ⟨host, journal, h⟩ := w.tell_frame r
  rw [h]
  exact ⟨rfl, rfl, rfl, rfl⟩

namespace Process

theorem only_works : Only Action.Works (Engine.drain true) :=
  only_drain true (fun j _ ha => .inl ⟨j, ha⟩) (.inr (.inl rfl)) fun j => .inr (.inr (.inr ⟨j, rfl⟩))

/-- **All that the worker does.** -/
theorem only_work : Only Action.Works Replay.work := by
  rw [Replay.work_eq]
  refine only_iterate fun outcomes => ?_
  refine only_bind (only_perform (.inr (.inr (.inl rfl)))) fun closed => ?_
  exact only_bind only_works fun r => only_pure _

theorem alone_works {α : Type} {p : Process α} {t : List Move} {r : α} (hp : Only Action.Works p)
    (h : Alone p x t r u) (i : Nat) : Runs i x u :=
  alone_only (fun _ w ha hw => hw.trans (ha.runs i w)) (fun r w hw => hw.trans (runs_tell i r w)) hp
    ⟨rfl, rfl, rfl, rfl⟩ h

theorem alone_runs {α : Type} {p : Process α} {t : List Move} {r : α} (hp : Only Action.Works p)
    (h : Alone p x t r u) (i : Nat) :
    u.memory = x.memory ∧ (u.slot i).stall = (x.slot i).stall :=
  have hruns := alone_works hp h i
  ⟨hruns.memory, hruns.stall⟩

theorem only_stallMoved : Only Action.LeavesHost (Operation.stallMoved i) :=
  only_bind (only_perform trivial) fun _ => only_perform trivial

theorem only_load (a : Address) (words : List UInt32) :
    Only Action.LeavesHost (Replay.load a words) := by
  refine only_bind (only_perform trivial) fun r => ?_
  cases r with
  | error f => exact only_pure _
  | ok u => exact only_pure _

theorem only_supply (a : Address) (parts : List Replay.Part) :
    Only Action.LeavesHost (Replay.supply i a parts) := by
  induction parts generalizing a with
  | nil => exact only_bind (only_perform trivial) fun _ => only_pure _
  | cons part rest ih =>
    refine only_bind (only_load a part.words) fun r => ?_
    cases r with
    | error e => exact only_pure _
    | ok b =>
      have hmoved : ∀ moved : Bool, Only Action.LeavesHost
          (if moved then Operation.stallMoved i else pure ()) := by
        intro moved
        split
        · exact only_stallMoved
        · exact only_pure _
      refine only_bind ?_ fun _ => ih b
      cases part.cursor with
      | none => exact only_bind (only_perform trivial) hmoved
      | some c => exact only_bind (only_perform trivial) hmoved

open Replay

/-- **Producer and worker by turns.** Whatever the turns are, the producer succeeds, and the worker
comes to what it comes to alone. -/
theorem Together.streams {a : Address} {parts : List Part} {r : Except Replay.Error Unit}
    {s : Except Replay.Error (List Outcome)} (hspan : Spans start stop)
    (hparts : ∀ part ∈ parts, part.Sound) (ha : Address.aligned a = a)
    (hlo : start.toNat ≤ a.toNat) (hstop : a.toNat + (bytesOf parts).length = stop.toNat)
    (hg : goal.Holds a.toNat (bytesOf parts)) (hquiet : v.host.Quiet)
    (hover : HandedOver i start stop goal a [] v) (hy : y.queue = [])
    (hwait : Waiting i start stop goal true ρ y 0 v)
    (h : Together (supply i a parts) work v (.done r) (.done s) u) :
    r = .ok () ∧ u.closed = true ∧ Worked i start stop goal ρ y s u := by
  have hsupply := keeps_supply (i := i) hspan hparts ha hlo hstop hg
  have hF : Guarantees (Runs i) (Feeder i start stop goal) (supply i a parts) v :=
    fun t q w hgoes => (hsupply hover hgoes).1
  have hG : Guarantees (Feeder i start stop goal) (Runs i) work v :=
    guarantees_of_only only_work (fun a w ha => ha.runs i w) (runs_tell i)
  have honly : Only Action.LeavesHost work := only_work.mono fun _ ha => ha.leavesHost
  obtain ⟨⟨t, hp⟩, t', hq⟩ := h.beside hquiet (only_supply a parts) honly hF hG
  obtain ⟨-, hr, hclosed⟩ := hsupply.ends hover hp
  have hwork : Keeps (Feeder i start stop goal) (fun _ => Waiting i start stop goal true ρ y 0) work
      (fun _ => True) fun r _ => Worked i start stop goal ρ y r := keeps_work (fun _ _ ho => ho) hy
  exact ⟨hr, hclosed, (hwork.ends hwait hq).2⟩

end Process

end DisplayList
