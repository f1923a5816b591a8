import DisplayList.Proofs.Rerunning

/-!
# When the worker gives up

A replay submits a list with its first words and hands over the others while a worker runs it. The
worker goes round as long as the list stalls, until it has asked whether the producer is done before
a run and was told so. However producer and worker take turns, it gives up neither before the end of
the list nor long after it.

* `Reaches`, **`Launched.beside`**: what a replay can come to, and what each of the two relies on;
* `lateRuns`, `runsDue`, **`keeps_lateRuns`**: how many runs begin once the producer is done;
* **`worker_quits_at_end`**: what the worker collects, and how often it runs.
-/

namespace DisplayList

/-! ## Runs that begin late -/

namespace Move

/-- Somebody asks whether the producer is done. -/
def asks : Move → Bool
  | act .isClosed _ => true
  | _ => false

/-- A list is taken from the queue when the producer is done. -/
def takesLate : Move → Bool
  | act .dequeue w => w.closed
  | _ => false

end Move

/-- How many runs of the queue a worker begins once the producer is done. It begins a run right after
it has asked whether the producer is done, by taking the first list from the queue. -/
def lateRuns : List Move → Nat
  | m :: m' :: t => (if m.asks && m'.takesLate then 1 else 0) + lateRuns (m' :: t)
  | _ => 0

/-- How many there are once a run begins that is due, the worker having asked. -/
def runsDue (t : List Move) : Nat :=
  lateRuns t + if t.getLast?.any Move.asks then 1 else 0

variable {t : List Move} {m : Move}

theorem lateRuns_snoc (t : List Move) (m : Move) : lateRuns (t ++ [m]) =
    lateRuns t + if t.getLast?.any Move.asks && m.takesLate then 1 else 0 := by
  induction t with
  | nil => rfl
  | cons x t ih =>
    cases t with
    | nil => exact Nat.add_comm _ _
    | cons y t =>
      change _ + lateRuns (y :: t ++ [m]) = _ + lateRuns (y :: t) + _
      rw [ih, List.getLast?_cons_cons]
      omega

theorem lateRuns_le_runsDue (t : List Move) : lateRuns t ≤ runsDue t :=
  Nat.le_add_right ..

theorem runsDue_snoc_asks (h : m.asks = true) : runsDue (t ++ [m]) = lateRuns t + 1 := by
  have hlate : m.takesLate = false := by
    cases m with
    | report => rfl
    | act a w =>
      cases a with
      | dequeue => cases h
      | _ => rfl
  simp [runsDue, lateRuns_snoc, hlate, h]

theorem runsDue_snoc_le (h : m.asks = false) : runsDue (t ++ [m]) ≤ runsDue t := by
  simp only [runsDue, lateRuns_snoc, List.getLast?_concat, Option.any_some, h]
  split <;> split <;> simp_all

theorem lateRuns_snoc_pos (h : 0 < lateRuns (t ++ [m])) : 0 < lateRuns t ∨ m.before.closed = true := by
  rw [lateRuns_snoc] at h
  split at h
  next hlate =>
    right
    rw [Bool.and_eq_true] at hlate
    have hm := hlate.2
    cases m with
    | report => cases hm
    | act a w =>
      cases a with
      | dequeue => exact hm
      | _ => cases hm
  next => exact .inl h

namespace Replay

open Process Engine

variable {others : FrontEnd → FrontEnd → Prop} {n : Nat}

theorem closed_perform (a : Action) {w : FrontEnd} (h : w.closed = true) :
    (a.perform w).2.closed = true := by
  cases a with
  | write b words => exact (closed_write w b words).trans h
  | notify j n => exact (closed_notify w j n).trans h
  | close => rfl
  | _ => exact h

theorem closed_tell (r : DisplayList.Report) {w : FrontEnd} (h : w.closed = true) :
    (w.tell r).2.closed = true := by
  obtain ⟨host, journal, ht⟩ := w.tell_frame r
  rw [ht]
  exact h

/-- At most `n` late runs were begun or are due, and none before the producer was done. -/
def Counted (n : Nat) : Assertion :=
  fun t w => runsDue t ≤ n ∧ (0 < lateRuns t → w.closed = true)

theorem Counted.snoc {w : FrontEnd} (h : Counted n t w) (hm : m.asks = false) (hw : m.before = w)
    (hclosed : w.closed = true → m.after.closed = true) : Counted n (t ++ [m]) m.after := by
  refine ⟨Nat.le_trans (runsDue_snoc_le hm) h.1, fun hpos => hclosed ?_⟩
  rcases lateRuns_snoc_pos hpos with hpos | hlate
  · exact h.2 hpos
  · rw [← hw]
    exact hlate

theorem judge_last (outcomes : List Outcome) (r : Except Failure (List (Nat × Outcome))) :
    ∃ x, judge true outcomes r = .inr x := by
  unfold judge
  split
  · exact ⟨_, rfl⟩
  · split
    · exact ⟨_, rfl⟩
    · exact ⟨_, rfl⟩

/-- Between two rounds of the worker at most one run began late, and none before the producer was
done. -/
def CountedOnce (t : List Move) (w : FrontEnd) : Prop :=
  lateRuns t ≤ 1 ∧ (0 < lateRuns t → w.closed = true)

section

variable (ho : ∀ v u, others v u → v.closed = true → u.closed = true)
include ho

theorem stable_counted (n : Nat) : Stable others (Counted n) :=
  fun _ v u hvu hv => ⟨hv.1, fun hpos => ho v u hvu (hv.2 hpos)⟩

theorem keeps_counted (n : Nat) : Keeps others (Counted n) (drain true) (fun t => lateRuns t ≤ n)
    fun _ => Counted n := by
  have honly : Only (fun a => ∀ w, (Move.act a w).asks = false) (drain true) := by
    refine only_drain true (fun j a ha w => ?_) (fun _ => rfl) fun j _ => rfl
    cases a with
    | isClosed =>
      rcases ha with ha | ⟨s, hs⟩
      · exact ha.elim
      · cases hs
    | _ => rfl
  refine keeps_moves (stable_counted ho n) (fun t w hw => Nat.le_trans (lateRuns_le_runsDue t) hw.1)
    (fun a t w ha hw => ?_) (fun r t w hw => ?_) honly
  · exact hw.snoc (m := .act a w) (ha w) rfl (closed_perform a)
  · exact hw.snoc (m := .report r w) rfl rfl (closed_tell r)

/-- **The worker begins at most two runs** once the producer is done: the one before which it asked
too early to hear of that, and the one after it. -/
theorem keeps_lateRuns :
    Keeps others CountedOnce work (fun t => lateRuns t ≤ 2) fun _ t _ => lateRuns t ≤ 2 := by
  have hst : Stable others CountedOnce := fun _ v u hvu hv =>
    ⟨hv.1, fun hpos => ho v u hvu (hv.2 hpos)⟩
  have htrace : ∀ t w, CountedOnce t w → lateRuns t ≤ 2 := fun _ _ hw => by
    have hle := hw.1
    omega
  rw [work_eq]
  refine keeps_iterate (I := fun _ => CountedOnce) (fun _ _ h => h) htrace hst fun outcomes => ?_
  refine keeps_perform hst htrace fun t v hv => ?_
  change Keeps _ (Now _ v) (drain true >>= fun r => .done (judge v.closed outcomes r)) _ _
  have hdue : runsDue (t ++ [.act .isClosed v]) = lateRuns t + 1 := runsDue_snoc_asks rfl
  have hlate : lateRuns (t ++ [.act .isClosed v]) = lateRuns t := by
    rw [lateRuns_snoc]
    simp [Move.takesLate]
  cases hc : v.closed with
  | false =>
    -- No run began late, so that this one is the first that may.
    have hnone : lateRuns t = 0 := by
      refine Nat.eq_zero_of_not_pos fun hpos => ?_
      have hclosed := hv.2 hpos
      rw [hc] at hclosed
      cases hclosed
    have hnow : Counted 1 (t ++ [.act .isClosed v]) v :=
      ⟨by omega, fun hpos => by rw [hlate] at hpos; exact hv.2 hpos⟩
    refine Keeps.now (P := Counted 1) ?_ hnow
    refine (keeps_bind (keeps_counted ho 1) fun r => ?_).weaken (fun _ _ h => h)
      (fun t (ht : lateRuns t ≤ 1) => by omega) fun _ _ _ h => h
    refine keeps_stay (stable_counted ho 1)
      (fun t w hw => Nat.le_trans (lateRuns_le_runsDue t) hw.1) fun t w hw => ?_
    have hle := Nat.le_trans (lateRuns_le_runsDue t) hw.1
    cases judge false outcomes r with
    | inl outcomes => exact ⟨hle, hw.2⟩
    | inr r =>
      change lateRuns t ≤ 2
      omega
  | true =>
    have hnow : Counted 2 (t ++ [.act .isClosed v]) v :=
      ⟨by have hle := hv.1; omega, fun _ => hc⟩
    refine Keeps.now (P := Counted 2) ?_ hnow
    refine keeps_bind (keeps_counted ho 2) fun r => ?_
    refine keeps_stay (stable_counted ho 2)
      (fun t w hw => Nat.le_trans (lateRuns_le_runsDue t) hw.1) fun t w hw => ?_
    have hle := Nat.le_trans (lateRuns_le_runsDue t) hw.1
    obtain ⟨x, hx⟩ := judge_last outcomes r
    rw [hx]
    exact hle

end

/-! ## Replays -/

variable {s : Settings} {o : Options} {words : List UInt32} {i : Nat}
  {p : Process (Except Error Unit)} {q : Process (Except Error (List Outcome))} {u : FrontEnd}

/-- With the builtin engine, a replay submits the list with its first chunk at position `i`, and then
its producer and its worker can take turns until `p` and `q` are left of them, the worker having made
the moves `t`. -/
structure Reaches (s : Settings) (o : Options) (words : List UInt32) (i : Nat) (t : List Move)
    (p : Process (Except Error Unit)) (q : Process (Except Error (List Outcome))) (u : FrontEnd) :
    Prop where
  builtin : s.external = false
  run : ∃ first rest t₀ stall v,
    chunks (o.chunkWords.getD words.length) words = first :: rest ∧
      Alone (lead o first) (frontEnd s) t₀ (.ok (i, stall)) v ∧
      TogetherBy (feed i stall rest) work v t p q u

theorem idle_frontEnd (hs : s.external = false) : (frontEnd s).Idle where
  builtin := by
    unfold FrontEnd.selected? frontEnd
    simp only [hs]
    rfl
  quiet := ⟨rfl, rfl, rfl⟩
  queue := rfl
  closed := rfl
  pool := by simp [frontEnd]

/-- Where producer and worker start: the list was submitted at position `i` and may run up to `a`,
and the words of `rest` are to come behind it. -/
structure Launched (o : Options) (words : List UInt32) (i : Nat) (a : Address)
    (rest : List (List UInt32)) (v : FrontEnd) : Prop where
  quiet : v.host.Quiet
  extending : Extending i (o.after words) a [] v
  rerunnable : Rerunnable i (o.after words) false [i] v
  chunks : ∀ chunk ∈ rest, chunk ≠ []
  aligned : Address.aligned a = a
  stop : o.after words = a + 4 * UInt32.ofNat rest.flatten.length

theorem launched_of_lead {w v : FrontEnd} {first : List UInt32} {rest : List (List UInt32)}
    {t₀ : List Move} {stall : Address} (hw : w.Idle)
    (hchunks : chunks (o.chunkWords.getD words.length) words = first :: rest)
    (h : Alone (lead o first) w t₀ (.ok (i, stall)) v) : Launched o words i stall rest v := by
  have hne : ∀ chunk ∈ first :: rest, chunk ≠ [] := fun chunk hc =>
    ne_nil_of_mem_chunks (hchunks ▸ hc)
  have hwords : words = first ++ rest.flatten := by
    rw [← flatten_chunks (o.chunkWords.getD words.length) words, hchunks, List.flatten_cons]
  obtain ⟨m, hm, haccepts, rfl, rfl⟩ := alone_lead hw h
  have hi : i < w.slots.size := Nat.lt_of_lt_of_le (lt_of_accepts haccepts) hw.pool
  obtain ⟨hspans, -⟩ := spans_of_writeWords (Address.aligned_aligned o.loadAddress)
    (hne first List.mem_cons_self) hm
  have hidle := hw.withMemory m
  have hsize : i < (o.submitted first i m w).slots.size := by
    unfold Options.submitted
    rw [FrontEnd.size_accept]
    exact hi
  have hreset : ((o.submitted first i m w).slot i).flags.reset = false := by
    unfold Options.submitted
    rw [FrontEnd.slot_accept (w := { w with memory := m }) hi]
    rfl
  refine ⟨hw.quiet, ⟨all_nil, stall_submitted hi hspans.aligned_stop, hsize, hw.closed⟩,
    ⟨⟨hsize, fun hc => ?_, nofun⟩, hidle.queue_accept, FrontEnd.isDone_accept hi, hreset⟩,
    fun chunk hc => hne chunk (List.mem_cons_of_mem _ hc), hspans.aligned_stop, ?_⟩
  · have hopen : w.closed = true := hc
    rw [hw.closed] at hopen
    cases hopen
  · unfold Options.after
    rw [hwords, List.length_append, UInt32.ofNat_add, UInt32.mul_add, UInt32.add_assoc]

theorem Launched.keeps_feed {a : Address} {rest : List (List UInt32)} {v : FrontEnd}
    (h : Launched o words i a rest v) :
    Keeps (Runs i) (Extending i (o.after words) a) (feed i a rest)
      (All (Move.Extends i (o.after words))) fun r _ u => u.closed = r.isOk :=
  Replay.keeps_feed h.chunks h.aligned h.stop

/-- **From there on each of the two goes on beside the other**: the worker writes to no memory and
moves no stall address, and the producer extends the list and does nothing else. -/
theorem Launched.beside {a : Address} {rest : List (List UInt32)} {v : FrontEnd} {t : List Move}
    (h : Launched o words i a rest v) (hturns : TogetherBy (feed i a rest) work v t p q u) :
    (∃ t', Goes (Runs i) (feed i a rest) v t' p u) ∧ Goes (Extends i (o.after words)) work v t q u := by
  have hF : Guarantees (Runs i) (Extends i (o.after words)) (feed i a rest) v :=
    fun t q w hgoes => (h.keeps_feed h.extending hgoes).1
  have hG : Guarantees (Extends i (o.after words)) (Runs i) work v :=
    guarantees_of_only only_work (fun a w ha => ha.runs i w) (runs_tell i)
  have honly : Only Action.LeavesHost work := only_work.mono fun _ ha => ha.leavesHost
  have hfeed : Only Action.LeavesHost (feed i a rest) := by
    rw [feed_eq]
    exact only_supply ..
  exact hturns.beside h.quiet hfeed honly hF hG

/-- **The worker gives up only at the real end.** However producer and worker of a replay take
turns, whatever the words are, and whichever waits are given up: the outcomes that the worker
collects are any number of stalls and one last outcome; if that is a stall, the list has come to the
address after its last word; and once the producer is done the worker runs the queue at most twice
more. -/
theorem worker_quits_at_end {t : List Move} (h : Reaches s o words i t p q u) :
    lateRuns t ≤ 2 ∧ ∀ r, q = .done r → Quits i (o.after words) r u := by
  obtain ⟨first, rest, t₀, stall, v, hchunks, hlead, hturns⟩ := h.run
  have hout := launched_of_lead (idle_frontEnd h.builtin) hchunks hlead
  obtain ⟨-, hg⟩ := hout.beside hturns
  have hclosed : ∀ v u, Extends i (o.after words) v u → v.closed = true → u.closed = true := by
    intro v u ho hc
    rw [ho.unclosed] at hc
    cases hc
  have hnone : CountedOnce [] v := ⟨Nat.zero_le _, fun hpos => absurd hpos (Nat.lt_irrefl 0)⟩
  refine ⟨(keeps_lateRuns hclosed hnone hg).1, fun r hr => ?_⟩
  subst hr
  exact (keeps_quits.ends hout.rerunnable hg).2

/-- Two words that do nothing, handed over one at a time. -/
def twoWords : Options where
  chunkWords := some 1

/-- The worker asks whether the producer is done, the producer hands over the last word, and then the
worker goes on to its end. -/
def lateTurns : List Bool :=
  [false, false] ++ .replicate 20 true ++ .replicate 200 false

/-- With these turns the worker begins both of its runs once the producer is done, and collects two
stalls. -/
def stallsTwice (i : Nat) (stall : Address) (v : FrontEnd) : Bool :=
  let x := takeTurns lateTurns (feed i stall [[0]]) work v
  decide (lateRuns x.1 = 2) &&
    x.2.2.1.result?.any fun r => decide (r.toOption = some [.stalled, .stalled])

theorem of_stallsTwice {i : Nat} {stall : Address} {v : FrontEnd} (h : stallsTwice i stall v = true) :
    let x := takeTurns lateTurns (feed i stall [[0]]) work v
    lateRuns x.1 = 2 ∧ x.2.2.1 = .done (.ok [.stalled, .stalled]) := by
  unfold stallsTwice at h
  rw [Bool.and_eq_true, Option.any_eq_true] at h
  obtain ⟨hlate, r, hresult, hr⟩ := h
  refine ⟨of_decide_eq_true hlate, ?_⟩
  cases r with
  | error e => cases of_decide_eq_true hr
  | ok outcomes =>
    have he : outcomes = [.stalled, .stalled] := Option.some.inj (of_decide_eq_true hr)
    rw [← he]
    exact eq_done_of_result? hresult

/-- The list has no end: the worker finds it stalled before the last word was there and at its end,
and gives up. -/
theorem worker_quits_at_end_twice : ∃ i t p u,
    Reaches {} twoWords [0, 0] i t p (.done (.ok [.stalled, .stalled])) u ∧ lateRuns t = 2 ∧
      Quits i 0x08800008 (.ok [.stalled, .stalled]) u := by
  have hshot : ((lead twoWords [0]).trace 300 (frontEnd {})).any fun x =>
      x.2.1.toOption.any fun y => stallsTwice y.1 y.2 x.2.2 := by decide +kernel
  obtain ⟨⟨t₀, led, v⟩, hlead, hshot⟩ := (Option.any_eq_true _ _).1 hshot
  cases led with
  | error e => cases hshot
  | ok y =>
    obtain ⟨i, stall⟩ := y
    obtain ⟨hlate, hdone⟩ := of_stallsTwice hshot
    have hturns := togetherBy_takeTurns lateTurns (feed i stall [[0]]) work v
    rw [hdone] at hturns
    have hreaches : Reaches {} twoWords [0, 0] i _ _ _ _ :=
      ⟨rfl, [0], [[0]], t₀, stall, v, rfl, alone_of_trace hlead, hturns⟩
    exact ⟨i, _, _, _, hreaches, hlate, (worker_quits_at_end hreaches).2 _ rfl⟩

end Replay

end DisplayList
