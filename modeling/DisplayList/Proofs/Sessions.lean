import DisplayList.Proofs.Queueing

/-!
# Sessions

An engine runs the queued lists again and again, while calls are made on the pool and on the switch
behind it: before, meanwhile or from its callbacks, all step by step in any order. A session keeps
the moves that were made so far, each with the state in which it was made.

* `Request.OnSwitch`, `Session.Step`: the calls, and the steps of a session;
* `inHand?`: the list that the engine took from its queue and has not put back; `Tended`: moves that
  fetch and put back no other list;
* **`keeps_serving`**: the engine's moves are of this kind;
* `Session.Trace`, **`Session.trace`**: one state after the other, and all moves of this kind;
* `Session.play`: sessions carried out call by call.
-/

namespace DisplayList

open Process

/-- One step of a process by itself, and the move that it makes, if any. -/
inductive Process.Takes {α : Type} :
    Process α → FrontEnd → List Move → Process α → FrontEnd → Prop
  | act {a : Action} {k : a.Answer → Process α} {w : FrontEnd} :
    Takes (.act a k) w [.act a w] (k (a.perform w).1) (a.perform w).2
  | report {m : Report} {k : Process α} {w : FrontEnd} :
    Takes (.report m k) w [.report m w] k (w.tell m).2
  | loop {σ β : Type} {round : σ → Process (σ ⊕ β)} {s : σ} {k : β → Process α} {w : FrontEnd} :
    Takes (.loop round s k) w [] ((round s).bind (resume round k)) w

/-! ## The list in hand -/

/-- The list that the engine has in hand after a move, if it was `h` before. -/
def Move.hand (h : Option Nat) : Move → Option Nat
  | .act .dequeue w => w.queue.head?
  | .act (.enqueue ..) _ => none
  | _ => h

/-- The list that the engine took from its queue last, unless it has put it back. -/
def inHand? (t : List Move) : Option Nat :=
  t.foldl Move.hand none

@[simp] theorem inHand?_snoc (t : List Move) (m : Move) :
    inHand? (t ++ [m]) = m.hand (inHand? t) := by
  simp [inHand?]

/-- If the move accesses the words of a list, or puts a list back, it is the list in hand. -/
def Move.Tends (h : Option Nat) : Move → Prop
  | .act (.enqueue i _) _ | .act (.access i _) _ | .act (.accessWith i ..) _ => h = some i
  | _ => True

/-- Each move accesses, or puts back, only the list in hand. -/
inductive Tended : List Move → Prop
  | nil : Tended []
  | snoc {t : List Move} {m : Move} : Tended t → m.Tends (inHand? t) → Tended (t ++ [m])

theorem Tended.last {t : List Move} {m : Move} (h : Tended (t ++ [m])) :
    m.Tends (inHand? t) := by
  generalize ht : t ++ [m] = t' at h
  cases h with
  | nil => simp at ht
  | snoc _ hm =>
    obtain ⟨rfl, he⟩ := List.append_inj' ht rfl
    cases he
    exact hm

/-- An action of which the queue, the list in hand and its words are none of its business. -/
def Action.Outside : Action → Prop
  | .enqueue .. | .dequeue | .access .. | .accessWith .. => False
  | _ => True

theorem Move.Is.outside {m : Move} (hm : m.Is Action.Outside) (h : Option Nat) :
    m.Tends h ∧ m.hand h = h := by
  cases m with
  | report => exact ⟨trivial, rfl⟩
  | act a w => cases a <;> first | exact hm.elim | exact ⟨trivial, rfl⟩

/-! ## The engine -/

namespace Process

variable {α : Type} {others : FrontEnd → FrontEnd → Prop} {i : Nat}

theorem steers_tends {m : Move} (hm : m.Is (Action.Steers i)) :
    m.Tends (some i) ∧ m.hand (some i) = some i := by
  cases m with
  | report => exact ⟨trivial, rfl⟩
  | act a w =>
    rcases hm with ha | ⟨s, rfl⟩
    · cases a with
      | access j a => exact ⟨congrArg some ha.1.symm, rfl⟩
      | accessWith j address c a => exact ⟨congrArg some ha.1.symm, rfl⟩
      | enqueue | dequeue => exact ha.elim
      | _ => exact ⟨trivial, rfl⟩
    · exact ⟨trivial, rfl⟩

/-- The engine has the list at position `i` in hand, and tended each list that it had in hand. -/
def Holding (i : Nat) : Assertion := fun t _ => Tended t ∧ inHand? t = some i

theorem holding_append {t t' : List Move} {w : FrontEnd} (h : Holding i t w)
    (ht : All (Move.Is (Action.Steers i)) t') : Holding i (t ++ t') w := by
  induction t' generalizing t with
  | nil => rwa [List.append_nil]
  | cons m t' ih =>
    obtain ⟨hm, ht'⟩ := all_cons.1 ht
    obtain ⟨htends, hhand⟩ := steers_tends hm
    rw [List.append_cons]
    refine ih ⟨h.1.snoc ?_, ?_⟩ ht'
    · rw [h.2]
      exact htends
    · rw [inHand?_snoc, h.2, hhand]

theorem keeps_holding {p : Process α} (hp : Only (Action.Steers i) p) :
    Keeps others (Holding i) p Tended fun _ => Holding i := by
  intro t₀ w t q u h hg
  have ht : Holding i (t₀ ++ t) u := holding_append h (goes_only hp hg).1
  exact ⟨ht.1, fun _ _ => ht⟩

/-- After a run of the queue the engine has nothing in hand. -/
def Emptied : Assertion := fun t _ => Tended t ∧ inHand? t = none

/-- What a round of the queue leaves behind. -/
def TurnTended : Engine.Served → Assertion :=
  Sum.elim (fun _ t _ => Tended t) fun _ => Emptied

theorem keeps_putBack {x : Except Failure (List (Nat × Outcome))} :
    Keeps others (Holding i) (perform (.enqueue i .head) >>= fun _ => pure (.inr x)) Tended
      TurnTended := by
  refine keeps_perform (fun _ _ _ _ h => h) (fun _ _ h => h.1) fun t w h => ?_
  have ht : Tended (t ++ [.act (.enqueue i .head) w]) := h.1.snoc h.2
  refine keeps_done (fun _ _ hn => hn.1 ▸ ht) fun t' _ _ hn _ => ?_
  obtain ⟨rfl, -⟩ := hn
  exact ⟨ht, by simp [Move.hand]⟩

theorem keeps_dropped {x : List (Nat × Outcome)} :
    Keeps others (Holding i) (pure (.inl x)) Tended TurnTended :=
  keeps_done (fun _ _ h => h.1) fun _ _ _ h _ => h.1

theorem keeps_lookIn {f : Slot → Process α} {Q : α → Assertion}
    (h : ∀ s, Keeps others (Holding i) (f s) Tended Q) :
    Keeps others (Holding i) (look i >>= f) Tended Q :=
  keeps_bind (keeps_holding (only_look i).steers) h

theorem keeps_leaveIn (outcomes : List (Nat × Outcome)) (r : Except Failure Outcome) :
    Keeps others (Holding i) (Engine.leave i outcomes r) Tended TurnTended := by
  cases r with
  | error e => exact keeps_putBack
  | ok outcome =>
    refine keeps_lookIn fun s => ?_
    split
    · exact keeps_dropped
    · exact keeps_putBack

theorem keeps_turn (watched : Bool) (outcomes : List (Nat × Outcome)) :
    Keeps others (fun t _ => Tended t) (Engine.turn watched outcomes) Tended TurnTended := by
  refine keeps_perform (fun _ _ _ _ h => h) (fun _ _ h => h) fun t w h => ?_
  have ht : Tended (t ++ [.act .dequeue w]) := h.snoc trivial
  rw [show (Action.dequeue.perform w).1 = w.queue.head? from rfl]
  cases hq : w.queue.head? with
  | none =>
    refine keeps_done (fun _ _ hn => hn.1 ▸ ht) fun t' _ _ hn _ => ?_
    obtain ⟨rfl, -⟩ := hn
    exact ⟨ht, by simp [Move.hand, hq]⟩
  | some i =>
    have hnow : ∀ t' v, Now (t ++ [.act .dequeue w]) ((Action.dequeue.perform w).2) t' v →
        Holding i t' v := by
      rintro _ _ ⟨rfl, -⟩
      exact ⟨ht, by simp [Move.hand, hq]⟩
    refine Keeps.pre ?_ hnow
    refine keeps_lookIn fun s => ?_
    split
    · exact keeps_dropped
    · refine keeps_lookIn fun s => ?_
      split
      · exact keeps_dropped
      · exact keeps_bind (keeps_holding (only_execute watched)) fun r => keeps_leaveIn outcomes r

/-- **The engine** accesses and puts back only the list that it has in hand, and has none when it
is done. -/
theorem keeps_serving (watched : Bool) :
    Keeps others (fun t _ => t = []) (Request.run watched).serve Tended fun _ => Emptied := by
  have hdrain : Keeps others (fun t _ => t = []) (Engine.drain watched) Tended
      fun _ => Emptied := by
    rw [Engine.drain_eq]
    refine keeps_iterate (I := fun _ t _ => Tended t) ?_ (fun _ _ h => h) (fun _ _ _ _ h => h)
      fun outcomes => keeps_turn watched outcomes
    rintro _ _ rfl
    exact .nil
  exact keeps_bind hdrain fun r => keeps_done (fun _ _ h => h.1) fun _ _ _ h _ => h

end Process

/-! ## Calls -/

/-- A call on the pool, on the status of a list or on the switch. -/
def Request.OnSwitch : Request → Prop
  | .setStatus .. | .route _ => True
  | r => r.Calls

theorem Action.Manages.outside {a : Action} (ha : a.Manages) : a.Outside := by
  cases a <;> first | exact ha.elim | trivial

theorem Process.only_onSwitch {r : Request} (hr : r.OnSwitch) : Only Action.Outside r.serve := by
  have hcall : r.Calls → Only Action.Outside r.serve := fun hc => by
    by_cases hs : ∃ sub p, r = .submit sub p
    · obtain ⟨sub, p, rfl⟩ := hs
      exact only_submit (fun _ ha => ha.outside) (fun _ => trivial) p
    · exact (only_call_manages hc fun sub p he => hs ⟨sub, p, he⟩).mono fun _ ha => ha.outside
  cases r with
  | setStatus i s => exact ⟨trivial, fun _ => trivial⟩
  | route b => exact ⟨trivial, fun _ => ⟨trivial, fun _ => trivial⟩⟩
  | _ => exact hcall hr

/-! ## Sessions -/

/-- An engine that runs the queued lists, calls under way, and all that was done so far. -/
structure Session where
  engine : Process Reply
  calls : List (Process Reply)
  moves : List Move
  state : FrontEnd

namespace Session

/-- Nothing was done yet. -/
def start (w : FrontEnd) : Session := ⟨.done .unit, [], [], w⟩

/-- One step of the engine or of a call. What the host does about a report is left to the calls. -/
inductive Step : Session → Session → Prop
  | engine {p q : Process Reply} {ps : List (Process Reply)} {t₀ t : List Move}
    {w v : FrontEnd} : p.Takes w t q v → Step ⟨p, ps, t₀, w⟩ ⟨q, ps, t₀ ++ t, v⟩
  /-- The queued lists are run again. -/
  | run {reply : Reply} {ps : List (Process Reply)} {t₀ : List Move} {w : FrontEnd}
    (watched : Bool) : Step ⟨.done reply, ps, t₀, w⟩ ⟨(Request.run watched).serve, ps, t₀, w⟩
  | call {r : Request} {e : Process Reply} {ps : List (Process Reply)} {t₀ : List Move}
    {w : FrontEnd} : r.OnSwitch → Step ⟨e, ps, t₀, w⟩ ⟨e, r.serve :: ps, t₀, w⟩
  | serve {p q e : Process Reply} {ps qs : List (Process Reply)} {t₀ t : List Move}
    {w v : FrontEnd} :
    p.Takes w t q v → Step ⟨e, ps ++ p :: qs, t₀, w⟩ ⟨e, ps ++ q :: qs, t₀ ++ t, v⟩

/-- The moves lead from `w` to `u`, one after the other, and the engine tends the list in hand. -/
inductive Trace (w : FrontEnd) : List Move → FrontEnd → Prop
  | nil : Trace w [] w
  | snoc {t : List Move} {m : Move} :
    Trace w t m.before → m.Tends (inHand? t) → Trace w (t ++ [m]) m.after

end Session

namespace Process

variable {α : Type} {p q : Process α} {w v : FrontEnd} {t : List Move}

theorem Takes.goes (h : p.Takes w t q v) (others : FrontEnd → FrontEnd → Prop) :
    Goes others p w t q v := by
  cases h with
  | act => exact .act (.stay ..)
  | report => exact .report (.stay ..)
  | loop => exact .loop (.stay ..)

theorem Takes.stepsBy (h : p.Takes w t q v) : StepsBy w v t := by
  cases h with
  | act => exact .inr ⟨_, rfl, rfl, rfl⟩
  | report => exact .inr ⟨_, rfl, rfl, rfl⟩
  | loop => exact .inl ⟨rfl, rfl⟩

theorem anybody_move (m : Move) : Anybody m.before m.after := by
  refine somebody_move ?_
  cases m <;> trivial

end Process

namespace Session

variable {w₀ : FrontEnd} {s s' : Session}

/-- The calls are calls, and the engine does what it does beside them. -/
structure Sound (w₀ : FrontEnd) (s : Session) : Prop where
  calls : ∀ p ∈ s.calls, Only Action.Outside p
  engine : ∃ e v t, Keeps Anybody (fun t _ => t = []) e Tended (fun _ => Emptied) ∧
    Goes Anybody e v t s.engine s.state ∧ inHand? t = inHand? s.moves
  trace : Trace w₀ s.moves s.state

/-- **Every step** keeps a session sound. -/
theorem Sound.step (h : Sound w₀ s) (hs : Step s s') : Sound w₀ s' := by
  obtain ⟨hcalls, ⟨e, v₀, t', he, hg, hhand⟩, htrace⟩ := h
  cases hs with
  | @engine p q ps t₀ t w v ht =>
    have hg' := hg.trans (ht.goes Anybody)
    refine ⟨hcalls, ⟨e, v₀, t' ++ t, he, hg', ?_⟩, ?_⟩
    · rcases ht.stepsBy with ⟨rfl, -⟩ | ⟨m, rfl, -, -⟩
      · simpa using hhand
      · simp only [inHand?_snoc, hhand]
    · rcases ht.stepsBy with ⟨rfl, rfl⟩ | ⟨m, rfl, rfl, rfl⟩
      · simpa using htrace
      · have hm : m.Tends (inHand? t') := Tended.last (he rfl hg').1
        exact htrace.snoc (hhand ▸ hm)
  | run watched =>
    have hnone : inHand? t' = none := ((he rfl hg).2 _ rfl).2
    exact ⟨hcalls, ⟨_, _, [], keeps_serving watched, .stay .., hnone.symm.trans hhand⟩, htrace⟩
  | call hr =>
    have hcalls' := List.forall_mem_cons.2 ⟨only_onSwitch hr, hcalls⟩
    exact ⟨hcalls', ⟨e, v₀, t', he, hg, hhand⟩, htrace⟩
  | @serve p q e' ps qs t₀ t w v ht =>
    obtain ⟨hps, hpqs⟩ := List.forall_mem_append.1 hcalls
    obtain ⟨hp, hqs⟩ := List.forall_mem_cons.1 hpqs
    obtain ⟨hmoves, hq⟩ := goes_only hp (ht.goes Nobody)
    have hcalls' := List.forall_mem_append.2 ⟨hps, List.forall_mem_cons.2 ⟨hq, hqs⟩⟩
    rcases ht.stepsBy with ⟨rfl, rfl⟩ | ⟨m, rfl, rfl, rfl⟩
    · rw [List.append_nil]
      exact ⟨hcalls', ⟨e, v₀, t', he, hg, hhand⟩, htrace⟩
    · -- What a call does is done by somebody else as far as the engine is concerned.
      obtain ⟨htends, hkept⟩ := (hmoves m (List.mem_singleton_self m)).outside (inHand? t₀)
      have hg' := hg.trans (Goes.wait _ (.single (anybody_move m)))
      rw [List.append_nil] at hg'
      refine ⟨hcalls', ⟨e, v₀, t', he, hg', ?_⟩, htrace.snoc htends⟩
      rw [inHand?_snoc, hkept]
      exact hhand

/-- **What was done in a session.** -/
theorem trace (hs : Relation.ReflTransGen Step (start w₀) s) : Trace w₀ s.moves s.state := by
  have h : Sound w₀ s := by
    induction hs with
    | refl =>
      refine ⟨by simp [start], ⟨.done .unit, w₀, [], ?_, .stay .., rfl⟩, .nil⟩
      exact keeps_done (fun _ _ ht => ht ▸ .nil) fun _ _ _ ht _ => ht ▸ ⟨.nil, rfl⟩
    | tail _ hs ih => exact ih.step hs
  exact h.trace

/-! ## Sessions carried out -/

theorem reach_of_goes {f : Process Reply → List Move → FrontEnd → Session}
    (hf : ∀ {p q : Process Reply} {t₀ t : List Move} {w v : FrontEnd},
      p.Takes w t q v → Step (f p t₀ w) (f q (t₀ ++ t) v))
    {p q : Process Reply} {t : List Move} {w u : FrontEnd} (h : Goes Nobody p w t q u)
    (t₀ : List Move) : Relation.ReflTransGen Step (f p t₀ w) (f q (t₀ ++ t) u) := by
  induction h generalizing t₀ with
  | stay => rw [List.append_nil]
  | other ho => exact ho.elim
  | act _ ih =>
    rw [List.append_cons]
    exact .head (hf .act) (ih _)
  | report _ ih =>
    rw [List.append_cons]
    exact .head (hf .report) (ih _)
  | @loop _ _ round s k _ w _ _ _ ih =>
    have hs : Step (f (.loop round s k) t₀ w) (f _ (t₀ ++ []) w) := hf .loop
    rw [List.append_nil] at hs
    exact .head hs (ih t₀)

theorem reach_call {r : Request} {reply : Reply} {t : List Move} {u : FrontEnd}
    (hr : r.OnSwitch) (h : Alone r.serve s.state t reply u) :
    Relation.ReflTransGen Step s ⟨s.engine, .done reply :: s.calls, s.moves ++ t, u⟩ :=
  .head (.call hr) (reach_of_goes (f := fun p t w => ⟨s.engine, p :: s.calls, t, w⟩)
    (fun {_ _ _ _ _ _} ht => @Step.serve _ _ s.engine [] s.calls _ _ _ _ ht) h s.moves)

theorem reach_reset (s : Session) (i : Nat) : ∃ calls,
    Relation.ReflTransGen Step s ⟨s.engine, calls,
      s.moves ++ [.act (.change i .reset) s.state] ++
        [.act (.notify i .reset) ((Action.change i .reset).perform s.state).2],
      (((Action.change i .reset).perform s.state).2).notify i .reset⟩ := by
  have hreset : Alone (Request.reset i).serve s.state [.act (.change i .reset) s.state,
      .act (.notify i .reset) ((Action.change i .reset).perform s.state).2] .unit
      ((((Action.change i .reset).perform s.state).2).notify i .reset) :=
    .act (.act (.stay ..))
  refine ⟨.done .unit :: s.calls, ?_⟩
  rw [List.append_assoc]
  exact reach_call (r := .reset i) trivial hreset

theorem reach_run {watched : Bool} {reply reply' : Reply} {t : List Move} {u : FrontEnd}
    (hidle : s.engine = .done reply)
    (h : Alone (Request.run watched).serve s.state t reply' u) :
    Relation.ReflTransGen Step s ⟨.done reply', s.calls, s.moves ++ t, u⟩ := by
  obtain ⟨engine, calls, moves, state⟩ := s
  obtain rfl : engine = .done reply := hidle
  exact .head (.run watched) (reach_of_goes (f := fun p t w => ⟨p, calls, t, w⟩) .engine h moves)

/-- Carries out calls and runs of the queued lists one after the other, and keeps the moves. -/
def play (n : Nat) : List Request → List Move × FrontEnd → Option (List Move × FrontEnd)
  | [], x => some x
  | r :: rest, x => (r.serve.trace n x.2).bind fun y => play n rest (x.1 ++ y.1, y.2.2)

theorem reach_of_play {n : Nat} {requests : List Request} {t : List Move} {u : FrontEnd}
    {reply : Reply} (hidle : s.engine = .done reply)
    (hr : ∀ r ∈ requests, r.OnSwitch ∨ ∃ watched, r = .run watched)
    (h : play n requests (s.moves, s.state) = some (t, u)) :
    ∃ s', Relation.ReflTransGen Step s s' ∧ s'.moves = t ∧ s'.state = u := by
  induction requests generalizing s reply with
  | nil =>
    cases h
    exact ⟨s, .refl, rfl, rfl⟩
  | cons r rest ih =>
    obtain ⟨hr, hrest⟩ := List.forall_mem_cons.1 hr
    obtain ⟨⟨t', reply', u'⟩, ht, hplay⟩ := Option.bind_eq_some_iff.1 h
    have ha := alone_of_trace ht
    rcases hr with hr | ⟨watched, rfl⟩
    · obtain ⟨s', hs, hs'⟩ := ih (s := ⟨s.engine, .done reply' :: s.calls, s.moves ++ t', u'⟩)
        hidle hrest hplay
      exact ⟨s', (reach_call hr ha).trans hs, hs'⟩
    · obtain ⟨s', hs, hs'⟩ := ih (s := ⟨.done reply', s.calls, s.moves ++ t', u'⟩) rfl hrest hplay
      exact ⟨s', (reach_run hidle ha).trans hs, hs'⟩

end Session

end DisplayList
