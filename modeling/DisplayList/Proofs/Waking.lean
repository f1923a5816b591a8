import DisplayList.Proofs.Shown
import DisplayList.Replay

/-!
# Wake-ups at the stall address

The engine that finds a list at its stall address waits there for a wake-up. It looks first and
waits later, and a producer moves the stall address first and posts the wake-up later, so that they
can miss each other; but no wake-up is lost.

* `Heeds`, **`heeds_consumes`**: the engine waits only when its last look has found the list
  stalled;
* `Owes`, `Handshake.Step`: producers who have still to post a wake-up; one consumer and any number
  of producers, by turns;
* `Handshake.Awake`, **`Sound.step`**: since that look, a stall address that has moved is known by a
  wake-up, posted or still to be posted;
* **`wakeup_pending`**: a consumer blocked for nothing is about to be woken.
-/

namespace DisplayList

open Process

variable {i : Nat}

/-! ## Looks and waits -/

/-- Whether the list at position `i` was found stalled at the last look, and nothing was done since
but to write a status. -/
def Action.finds (i : Nat) (found : Bool) : (a : Action) → a.Answer → Bool
  | .look j, s => if j = i then s.isStalled else found
  | .change _ (.setStatus _), _ => found
  | _, _ => false

/-- The process waits for the list at position `i` only where it has found it stalled. -/
def Heeds (i : Nat) : {α : Type} → Bool → Process α → Prop
  | _, _, .done _ => True
  | _, found, .act a k => (a = .await i → found = true) ∧ ∀ r, Heeds i (a.finds i found r) (k r)
  | _, _, .report _ k => Heeds i false k
  | _, _, .loop round _ k => (∀ s, Heeds i false (round s)) ∧ ∀ b, Heeds i false (k b)

section Heeds

variable {α β σ : Type} {found : Bool}

theorem Heeds.mono {p : Process α} (h : Heeds i false p) : Heeds i found p := by
  induction p generalizing found with
  | done a => trivial
  | act a k ih =>
    refine ⟨fun ha => absurd (h.1 ha) (by simp), fun r => ?_⟩
    have hfinds : a.finds i found r = a.finds i false r ∨ a.finds i false r = false := by
      cases a with
      | look j => by_cases hj : j = i <;> simp [Action.finds, hj]
      | change j c => cases c <;> simp [Action.finds]
      | _ => exact .inr rfl
    rcases hfinds with he | he
    · rw [he]
      exact h.2 r
    · have hr := h.2 r
      rw [he] at hr
      exact ih r hr
  | report m k _ => exact h
  | loop => exact h

theorem Heeds.bind {p : Process β} {f : β → Process α} (hp : Heeds i found p)
    (hf : ∀ b, Heeds i false (f b)) : Heeds i found (p.bind f) := by
  induction p generalizing found with
  | done b => exact (hf b).mono
  | act a k ih => exact ⟨hp.1, fun r => ih r (hp.2 r) hf⟩
  | report m k ih => exact ih hp hf
  | loop round s k _ ih => exact ⟨hp.1, fun b => ih b (hp.2 b) hf⟩

theorem heeds_of_only {p : Process α} (h : Only (fun a => ∀ j, a ≠ .await j) p) :
    Heeds i found p := by
  refine Heeds.mono ?_
  induction p with
  | done a => trivial
  | act a k ih => exact ⟨fun ha => absurd ha (h.1 i), fun r => (ih r (h.2 r)).mono⟩
  | report m k ih => exact ih h
  | loop round s k ih ih' => exact ⟨fun s => ih s (h.1 s), fun b => ih' b (h.2 b)⟩

theorem heeds_iterate {s : σ} {round : σ → Process (σ ⊕ α)} (h : ∀ s, Heeds i false (round s)) :
    Heeds i false (iterate s round) :=
  ⟨h, fun _ => trivial⟩

theorem Action.Plain.not_await {a : Action} (ha : a.Plain) (j : Nat) : a ≠ .await j := by
  rintro rfl
  exact ha

theorem heeds_of_oblivious {p : Process α} (h : Oblivious p) : Heeds i found p :=
  heeds_of_only (h.only.mono fun _ ha => ha.not_await)

theorem heeds_access (j : Nat) (a : Slot.Access) : Heeds i found (Operation.access j a) :=
  heeds_of_only (only_tries (by simp) fun _ _ _ => by simp)

theorem heeds_step (watched : Bool) (j : Nat) (c : Command) :
    Heeds i found (Engine.step watched j c) := by
  by_cases hc : ∃ arg, c = .stop arg
  · obtain ⟨arg, rfl⟩ := hc
    change Heeds i found (Engine.stop j arg)
    rw [Engine.stop_eq]
    exact (heeds_access j .previous).bind fun r => heeds_of_oblivious (oblivious_stopWith arg r)
  · exact heeds_of_oblivious (oblivious_step watched fun arg he => hc ⟨arg, he⟩)

/-- **A round waits only for a list that it has found stalled.** -/
theorem heeds_round (watched : Bool) (j : Nat) : Heeds i false (Engine.round watched j) := by
  rw [Engine.round_eq]
  refine ⟨by simp, fun s => ?_⟩
  change Heeds i _ (if s.flags.paused then _ else Engine.unpaused watched j)
  split
  · trivial
  · refine Heeds.mono ⟨by simp, fun s => ?_⟩
    change Heeds i _ (if s.isStalled then _ else _)
    split
    next hs =>
      refine ⟨by simp, fun _ => ⟨fun he => ?_, fun woken => ?_⟩⟩
      · cases he
        simp [Action.finds, hs]
      · refine heeds_of_only ?_
        change Only _ (Engine.waited j woken)
        unfold Engine.waited
        split
        · refine only_bind (only_perform (by simp)) fun s => ?_
          split
          · exact only_pure _
          · exact only_bind (only_perform (by simp)) fun _ => only_pure _
        · exact only_pure _
    next =>
      refine (heeds_access j .next).bind fun r => ?_
      cases r with
      | error e => trivial
      | ok word =>
        refine (heeds_step watched j _).bind fun r => ?_
        match r with
        | .error e => trivial
        | .ok none => trivial
        | .ok (some outcome) => trivial

theorem heeds_execute (watched : Bool) (j : Nat) : Heeds i found (Engine.execute watched j) := by
  have hrounds : Heeds i false (iterate () fun _ => Engine.round watched j) :=
    heeds_iterate fun _ => heeds_round watched j
  have hrun : ∀ found, Heeds i found (change j (.setStatus .drawing) >>= fun _ =>
      iterate () fun _ => Engine.round watched j) := fun _ => ⟨by simp, fun _ => hrounds.mono⟩
  refine ⟨by simp, fun s => ?_⟩
  change Heeds i _ (if s.flags.reset then _ else _)
  split
  · trivial
  · refine ⟨by simp, fun s => ?_⟩
    change Heeds i _ (if s.flags.restarted then _ else _)
    split
    · exact ⟨by simp, fun _ => hrun _⟩
    · exact hrun _

theorem heeds_drain (watched : Bool) : Heeds i false (Engine.drain watched) := by
  have hput : ∀ (j : Nat) (x : Engine.Served) (found : Bool),
      Heeds i found (perform (.enqueue j .head) >>= fun _ => .done x) :=
    fun _ _ _ => ⟨by simp, fun _ => trivial⟩
  rw [Engine.drain_eq]
  refine heeds_iterate fun outcomes => ⟨by simp, fun next => ?_⟩
  cases next with
  | none => trivial
  | some j =>
    refine ⟨by simp, fun s => ?_⟩
    change Heeds i _ (if s.flags.reset then _ else _)
    split
    · trivial
    · refine ⟨by simp, fun s => ?_⟩
      change Heeds i _ (if s.isDone then _ else _)
      split
      · trivial
      · refine (heeds_execute watched j).bind fun r => ?_
        cases r with
        | error e => exact hput j _ _
        | ok outcome =>
          refine ⟨by simp, fun s => ?_⟩
          change Heeds i _ (if outcome.isEnded then _ else _)
          split
          · trivial
          · exact hput j _ _

end Heeds

/-- Whoever runs lists: all that are queued, or a single one. -/
inductive Consumes : Process Reply → Prop
  | run (watched : Bool) : Consumes (Request.run watched).serve
  | execute (j : Nat) : Consumes (Request.execute j).serve

/-- **The engine waits only for a list that it has found stalled.** -/
theorem heeds_consumes {p : Process Reply} (h : Consumes p) : Heeds i false p := by
  cases h with
  | run watched => exact (heeds_drain watched).bind fun _ => trivial
  | execute j => exact (heeds_execute true j).bind fun _ => trivial

/-! ## Producers -/

theorem Slot.eq_of_moveStall {s : Slot} {a : Address} (h : (s.moveStall a).1 = false) :
    (s.moveStall a).2 = s := by
  unfold moveStall at h ⊢
  dsimp only at h ⊢
  split at h
  next ha => rw [if_pos ha]
  next => cases h

/-- The stall address is moved, alone or with a cursor. -/
inductive MovesStall (i : Nat) : Process Unit → Prop
  | setStall (a : Address) : MovesStall i (Operation.setStall i a)
  | setStallWith (a : Address) (window : Window) : MovesStall i (Operation.setStallWith i a window)

/-- The stall address has been moved, and the wake-up is still to be posted: before the backend is
told, or after. -/
inductive Owes (i : Nat) : Process Unit → Prop
  | tell : Owes i (Operation.stallMoved i)
  | post : Owes i (change i .postWake)

/-- What may be left of a producer. -/
inductive Produces (i : Nat) : Process Unit → Prop
  | moves {p : Process Unit} : MovesStall i p → Produces i p
  | owes {p : Process Unit} : Owes i p → Produces i p
  | done : Produces i (.done ())

/-- An action of somebody else: it leaves the list where it is, its stall address too, and takes no
wake-up of it. -/
def Action.Bystands (i : Nat) (a : Action) : Prop :=
  ∀ m s, (a.onto i m s).pc = s.pc ∧ (a.onto i m s).stall = s.stall ∧
    (s.wake.pending = true → (a.onto i m s).wake.pending = true)

/-- One consumer and any number of producers of the list at some position. -/
structure Handshake where
  consumer : Process Reply
  producers : List (Process Unit)
  state : FrontEnd

namespace Handshake

/-- One step of the consumer, of a producer or of somebody else. -/
inductive Step (i : Nat) : Handshake → Handshake → Prop
  | act {a : Action} {k : a.Answer → Process Reply} {ps : List (Process Unit)} {w : FrontEnd} :
    Step i ⟨.act a k, ps, w⟩ ⟨k (a.perform w).1, ps, (a.perform w).2⟩
  /-- What the host does about the report is left to producers and others. -/
  | report {m : Report} {k : Process Reply} {ps : List (Process Unit)} {w : FrontEnd} :
    Step i ⟨.report m k, ps, w⟩ ⟨k, ps, (w.tell m).2⟩
  | loop {σ β : Type} {round : σ → Process (σ ⊕ β)} {s : σ} {k : β → Process Reply}
    {ps : List (Process Unit)} {w : FrontEnd} :
    Step i ⟨.loop round s k, ps, w⟩ ⟨(round s).bind (resume round k), ps, w⟩
  /-- The consumer is called again. -/
  | again {reply : Reply} {p : Process Reply} {ps : List (Process Unit)} {w : FrontEnd} :
    Consumes p → Step i ⟨.done reply, ps, w⟩ ⟨p, ps, w⟩
  /-- A producer is called. -/
  | call {c : Process Reply} {p : Process Unit} {ps : List (Process Unit)} {w : FrontEnd} :
    MovesStall i p → Step i ⟨c, ps, w⟩ ⟨c, p :: ps, w⟩
  | produce {c : Process Reply} {a : Action} {k : a.Answer → Process Unit}
    {ps qs : List (Process Unit)} {w : FrontEnd} :
    Step i ⟨c, ps ++ .act a k :: qs, w⟩ ⟨c, ps ++ k (a.perform w).1 :: qs, (a.perform w).2⟩
  | other {c : Process Reply} {a : Action} {ps : List (Process Unit)} {w : FrontEnd} :
    a.Bystands i → Step i ⟨c, ps, w⟩ ⟨c, ps, (a.perform w).2⟩
  | tell {c : Process Reply} {m : Report} {ps : List (Process Unit)} {w : FrontEnd} :
    Step i ⟨c, ps, w⟩ ⟨c, ps, (w.tell m).2⟩

/-- The list is at its stall address, or a wake-up is posted, or is going to be. -/
def Awake (i : Nat) (ps : List (Process Unit)) (w : FrontEnd) : Prop :=
  (w.slot i).pc = (w.slot i).stall ∨ (w.slot i).wake.pending = true ∨ ∃ p ∈ ps, Owes i p

/-- If the consumer has found the list stalled at its last look, it may be blocked only as long as
nobody has moved the stall address for good. -/
structure Sound (i : Nat) (found : Bool) (c : Handshake) : Prop where
  heeds : Heeds i found c.consumer
  producers : ∀ p ∈ c.producers, Produces i p
  awake : found = true → Awake i c.producers c.state

variable {found : Bool} {c c' : Handshake} {ps qs : List (Process Unit)} {w v : FrontEnd}

theorem Awake.congr (h : Awake i ps w) (hpc : (v.slot i).pc = (w.slot i).pc)
    (hstall : (v.slot i).stall = (w.slot i).stall)
    (hwake : (w.slot i).wake.pending = true → (v.slot i).wake.pending = true) : Awake i ps v := by
  rcases h with h | h | h
  · left
    rw [hpc, hstall]
    exact h
  · exact .inr (.inl (hwake h))
  · exact .inr (.inr h)

theorem Awake.bystands (h : Awake i ps w) {a : Action} (ha : a.Bystands i) :
    Awake i ps (a.perform w).2 := by
  have hslot : ((a.perform w).2.slot i).pc = (w.slot i).pc ∧
      ((a.perform w).2.slot i).stall = (w.slot i).stall ∧
      ((w.slot i).wake.pending = true → ((a.perform w).2.slot i).wake.pending = true) :=
    Action.slot_perform_of (P := fun s => s.pc = (w.slot i).pc ∧ s.stall = (w.slot i).stall ∧
      ((w.slot i).wake.pending = true → s.wake.pending = true)) ⟨rfl, rfl, fun h => h⟩ (ha _ _)
  exact h.congr hslot.1 hslot.2.1 hslot.2.2

theorem Awake.act {a : Action} (h : found = true → Awake i ps w)
    (hfinds : a.finds i found (a.perform w).1 = true) : Awake i ps (a.perform w).2 := by
  cases a with
  | look j =>
    change (if j = i then (w.slot j).isStalled else found) = true at hfinds
    split at hfinds
    next hj =>
      subst hj
      simp only [Slot.isStalled, Bool.and_eq_true, beq_iff_eq] at hfinds
      exact .inl hfinds.1
    next => exact h hfinds
  | change j c =>
    cases c with
    | setStatus s =>
      refine (h hfinds).bystands fun m s => ?_
      rw [Action.onto_change]
      split
      · exact ⟨rfl, rfl, fun h => h⟩
      · exact ⟨rfl, rfl, fun h => h⟩
    | _ => cases hfinds
  | _ => cases hfinds

theorem not_owes {p : Process Unit} (h : MovesStall i p) : ¬ Owes i p := by
  intro ho
  cases h with
  | setStall a =>
    generalize hp : Operation.setStall i a = p at ho
    cases ho <;> cases hp
  | setStallWith a window =>
    generalize hp : Operation.setStallWith i a window = p at ho
    cases ho <;> cases hp

theorem Awake.moves {p : Process Unit} (h : Awake i (ps ++ p :: qs) w) (hp : MovesStall i p)
    {c : Change} {moved : Bool} (hc : moved = false → (c.perform (w.slot i)).2.pc = (w.slot i).pc ∧
      (c.perform (w.slot i)).2.stall = (w.slot i).stall ∧
      (c.perform (w.slot i)).2.wake = (w.slot i).wake) :
    Awake i (ps ++ (if moved then Operation.stallMoved i else .done ()) :: qs)
      ((Action.change i c).perform w).2 := by
  cases moved with
  | true => exact .inr (.inr ⟨_, List.mem_append_right _ List.mem_cons_self, .tell⟩)
  | false =>
    have hslot := Action.slot_perform_of (P := fun s => s.pc = (w.slot i).pc ∧
      s.stall = (w.slot i).stall ∧ s.wake = (w.slot i).wake) (a := .change i c) ⟨rfl, rfl, rfl⟩
      (by rw [Action.onto_change, if_pos rfl]; exact hc rfl)
    refine Awake.congr (w := w) ?_ hslot.1 hslot.2.1 fun hw => by rw [hslot.2.2]; exact hw
    rcases h with h | h | ⟨x, hx, hox⟩
    · exact .inl h
    · exact .inr (.inl h)
    · refine .inr (.inr ⟨x, ?_, hox⟩)
      have hne : x ≠ p := by
        rintro rfl
        exact not_owes hp hox
      simp only [List.mem_append, List.mem_cons, hne, false_or] at hx ⊢
      exact hx.imp_right .inr

theorem awake_post (ps : List (Process Unit)) (w : FrontEnd) :
    Awake i ps ((Action.change i .postWake).perform w).2 := by
  by_cases hi : i < w.slots.size
  · refine .inr (.inl ?_)
    rw [Action.slot_perform, if_pos hi, Action.onto_change, if_pos rfl]
    rfl
  · left
    rw [Action.slot_perform, if_neg hi, w.slot_of_le i (by omega)]
    rfl

/-- **A step of a producer.** -/
theorem produces_step {a : Action} {k : a.Answer → Process Unit} (h : Produces i (.act a k))
    (w : FrontEnd) : Produces i (k (a.perform w).1) ∧
      ∀ ps qs, Awake i (ps ++ .act a k :: qs) w →
        Awake i (ps ++ k (a.perform w).1 :: qs) (a.perform w).2 := by
  have hmoved : ∀ moved : Bool,
      Produces i (if moved then Operation.stallMoved i else .done ()) := by
    intro moved
    split
    · exact .owes .tell
    · exact .done
  generalize hp : Process.act a k = p at h
  cases h with
  | moves hm =>
    cases hm with
    | setStall x =>
      change Process.act a k = .act (.change i (.moveStall x))
        fun moved : Bool => if moved then Operation.stallMoved i else .done () at hp
      cases hp
      refine ⟨hmoved _, fun ps qs hw => hw.moves (.setStall x) fun he => ?_⟩
      change ((w.slot i).moveStall x).2.pc = _ ∧ ((w.slot i).moveStall x).2.stall = _ ∧
        ((w.slot i).moveStall x).2.wake = _
      rw [Slot.eq_of_moveStall he]
      exact ⟨rfl, rfl, rfl⟩
    | setStallWith x window =>
      change Process.act a k = .act (.change i (.moveStallWith x window))
        fun moved : Bool => if moved then Operation.stallMoved i else .done () at hp
      cases hp
      refine ⟨hmoved _, fun ps qs hw => hw.moves (.setStallWith x window) fun he => ?_⟩
      change ((w.slot i).moveStall x).2.pc = _ ∧ ((w.slot i).moveStall x).2.stall = _ ∧
        ((w.slot i).moveStall x).2.wake = _
      rw [Slot.eq_of_moveStall he]
      exact ⟨rfl, rfl, rfl⟩
  | owes ho =>
    cases ho with
    | tell =>
      cases hp
      exact ⟨.owes .post, fun ps qs _ =>
        .inr (.inr ⟨_, List.mem_append_right _ List.mem_cons_self, .post⟩)⟩
    | post =>
      cases hp
      exact ⟨.done, fun ps qs _ => awake_post _ w⟩
  | done => cases hp

/-- **Every step keeps what the consumer knows.** -/
theorem Sound.step (h : Sound i found c) (hs : Step i c c') : ∃ found', Sound i found' c' := by
  obtain ⟨hheeds, hproducers, hawake⟩ := h
  cases hs with
  | act => exact ⟨_, hheeds.2 _, hproducers, Awake.act hawake⟩
  | report => exact ⟨false, hheeds, hproducers, by simp⟩
  | @loop σ β round s k _ _ =>
    refine ⟨false, (hheeds.1 s).bind fun x => ?_, hproducers, by simp⟩
    cases x with
    | inl s => exact hheeds
    | inr b => exact hheeds.2 b
  | again hp => exact ⟨false, heeds_consumes hp, hproducers, by simp⟩
  | call hp =>
    refine ⟨found, hheeds, List.forall_mem_cons.2 ⟨.moves hp, hproducers⟩, fun hf => ?_⟩
    rcases hawake hf with hw | hw | ⟨x, hx, hox⟩
    · exact .inl hw
    · exact .inr (.inl hw)
    · exact .inr (.inr ⟨x, List.mem_cons_of_mem _ hx, hox⟩)
  | @produce _ a k ps qs w =>
    obtain ⟨hps, hpqs⟩ := List.forall_mem_append.1 hproducers
    obtain ⟨hp, hqs⟩ := List.forall_mem_cons.1 hpqs
    obtain ⟨hp', hstep⟩ := produces_step hp w
    refine ⟨found, hheeds, ?_, fun hf => hstep ps qs (hawake hf)⟩
    exact List.forall_mem_append.2 ⟨hps, List.forall_mem_cons.2 ⟨hp', hqs⟩⟩
  | other ha => exact ⟨found, hheeds, hproducers, fun hf => (hawake hf).bystands ha⟩
  | @tell _ m _ w =>
    refine ⟨found, hheeds, hproducers, fun hf => (hawake hf).congr ?_ ?_ ?_⟩
    · rw [FrontEnd.slot_tell]
    · rw [FrontEnd.slot_tell]
    · rw [FrontEnd.slot_tell]
      exact fun h => h

theorem Sound.reach {p : Process Reply} (hp : Consumes p)
    (h : Relation.ReflTransGen (Step i) ⟨p, [], w⟩ c) : ∃ found, Sound i found c := by
  induction h with
  | refl => exact ⟨false, heeds_consumes hp, by simp, by simp⟩
  | tail _ hs ih =>
    obtain ⟨found, hc⟩ := ih
    exact hc.step hs

end Handshake

/-- **No wake-up is lost.** Whatever the turns of the consumer, the producers and others are: when
the consumer is blocked in its wait for a list, no wake-up is pending, and the stall address is not
where the list is, then some producer has moved the stall address and has still to post his
wake-up. -/
theorem wakeup_pending {p : Process Reply} {w : FrontEnd} {c : Handshake}
    {k : (Action.await i).Answer → Process Reply} (hp : Consumes p)
    (h : Relation.ReflTransGen (Handshake.Step i) ⟨p, [], w⟩ c)
    (hblocked : c.consumer = .act (.await i) k)
    (hnone : (c.state.slot i).wake.pending = false)
    (hmoved : (c.state.slot i).stall ≠ (c.state.slot i).pc) :
    ∃ q ∈ c.producers, Owes i q := by
  obtain ⟨found, hheeds, -, hawake⟩ := Handshake.Sound.reach hp h
  rw [hblocked] at hheeds
  rcases hawake (hheeds.1 rfl) with hpc | hpending | howes
  · exact absurd hpc.symm hmoved
  · rw [hnone] at hpending
    cases hpending
  · exact howes

/-! ## A consumer blocked for nothing -/

/-- The consumer may come to be blocked at a list whose stall address has moved. -/
def Handshake.MayBlock (i : Nat) (c : Handshake) : Prop :=
  ∃ (c' : Handshake) (k : (Action.await i).Answer → Process Reply),
    Relation.ReflTransGen (Handshake.Step i) c c' ∧ c'.consumer = .act (.await i) k ∧
      (c'.state.slot i).wake.pending = false ∧ (c'.state.slot i).stall ≠ (c'.state.slot i).pc

theorem Handshake.MayBlock.head {c c' : Handshake} (hs : Handshake.Step i c c')
    (h : Handshake.MayBlock i c') : Handshake.MayBlock i c := by
  obtain ⟨c'', k, hc, hrest⟩ := h
  exact ⟨c'', k, .head hs hc, hrest⟩

/-- A list is queued that may not even run its first word. -/
def stalledAtStart : FrontEnd :=
  { Replay.frontEnd {} with
    slots := #[(Slot.new 0).init ⟨0x08800000, 0x08800000, 0, none⟩]
    queue := [0] }

/-- The engine waits for this list, and a producer has just let it go on by two words. -/
theorem wakeup_pending_stalledAtStart : ∃ (c : Handshake)
    (k : (Action.await 0).Answer → Process Reply),
    Relation.ReflTransGen (Handshake.Step 0) ⟨(Request.run true).serve, [], stalledAtStart⟩ c ∧
      c.consumer = .act (.await 0) k ∧ (c.state.slot 0).wake.pending = false ∧
      (c.state.slot 0).stall ≠ (c.state.slot 0).pc ∧ ∃ q ∈ c.producers, Owes 0 q := by
  have hblock : Handshake.MayBlock 0 ⟨(Request.run true).serve, [], stalledAtStart⟩ := by
    -- The list is taken from the queue, looked at and marked as drawing; then it is found stalled.
    refine .head .loop ?_
    iterate 6 refine .head .act ?_
    refine .head .loop ?_
    iterate 3 refine .head .act ?_
    refine .head (.call (.setStall 0x08800008)) ?_
    refine .head (@Handshake.Step.produce 0 _ _ _ [] [] _) ?_
    exact ⟨_, _, .refl, rfl, by decide +kernel, by decide +kernel⟩
  obtain ⟨c, k, hc, hconsumer, hnone, hmoved⟩ := hblock
  exact ⟨c, k, hc, hconsumer, hnone, hmoved,
    wakeup_pending (.run true) hc hconsumer hnone hmoved⟩

end DisplayList
