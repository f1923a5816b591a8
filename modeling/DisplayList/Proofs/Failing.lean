import Mathlib.Control.Monad.Basic
import DisplayList.Proofs.Alone
import DisplayList.Proofs.Faulting

/-!
# Lists that fail

A list that fails goes back to the head of the queue, to be reset by whoever ran it. If nobody
touches it and the queued lists are run again, then a list for whose next word there is no memory
fails as before. A call too deep, though, is found out only when its word has been fetched: the next
run goes on with the word after it.

* `Failed`, **`spared_list`**: a list fails for want of a next word, or after a word was fetched;
* **`spared_drain`**: so it is whenever the queued lists are run;
* `Later`, `FailsAgain`: a list that fails with the same error whenever the queued lists are run;
* **`failsAgain_iff`**: a list fails again exactly if it had no next word.
-/

namespace DisplayList.Process

open Engine

variable {α : Type} {i : Nat}

/-! ## What is known of a list that runs -/

/-- What is to be shown of a process beside others who leave the list alone. -/
abbrev Spared (i : Nat) (P : Assertion) (p : Process α) (Q : α → Assertion) : Prop :=
  Keeps (Spares i) P p (fun _ => True) Q

/-- A word of the list was fetched. -/
def HasFetched (i : Nat) (t : List Move) : Prop :=
  ∃ m ∈ t, m.Fetches i

/-- The list may run. -/
def MayRun (i : Nat) : Assertion :=
  fun _ w => (w.slot i).Live

/-- The list runs its next word. -/
def IsReady (i : Nat) : Assertion :=
  fun _ w => (w.slot i).Ready

/-- A word of the list was fetched, and the list may run on. -/
def PastWord (i : Nat) : Assertion :=
  fun t w => MayRun i t w ∧ HasFetched i t

/-- How the list may have failed: there is no memory for its next word; or it failed otherwise, when
a word was fetched. -/
def Failed (i : Nat) (e : Failure) : Assertion :=
  fun t w => MayRun i t w ∧
    ((∃ f, e = .memory f ∧ (w.slot i).Ready ∧ (w.slot i).Faults w.memory f) ∨
      (∀ f, e ≠ .memory f) ∧ HasFetched i t)

theorem stable_hasFetched : Stable (Spares i) fun t _ => HasFetched i t :=
  fun _ _ _ _ h => h

theorem stable_mayRun : Stable (Spares i) (MayRun i) :=
  fun _ _ _ ho h => ho.live h

theorem stable_isReady : Stable (Spares i) (IsReady i) :=
  fun _ _ _ ho h => ho.ready h

theorem stable_pastWord : Stable (Spares i) (PastWord i) :=
  stable_mayRun.and stable_hasFetched

theorem stable_failed (e : Failure) : Stable (Spares i) (Failed i e) := by
  rintro t w v ho ⟨hlive, h⟩
  refine ⟨ho.live hlive, ?_⟩
  rcases h with ⟨f, he, hready, hf⟩ | h
  · exact .inl ⟨f, he, ho.ready hready, ho.faults hf⟩
  · exact .inr h

theorem HasFetched.append {t : List Move} (h : HasFetched i t) (t' : List Move) :
    HasFetched i (t ++ t') := by
  obtain ⟨m, hm, hf⟩ := h
  exact ⟨m, List.mem_append_left _ hm, hf⟩

theorem hasFetched_snoc (t : List Move) {m : Move} (h : m.Fetches i) :
    HasFetched i (t ++ [m]) :=
  ⟨m, by simp, h⟩

variable {p : Process α} {P : Assertion} {Q : α → Assertion}

theorem spared_hasFetched (p : Process α) :
    Spared i (fun t _ => HasFetched i t) p fun _ t _ => HasFetched i t :=
  fun _ _ _ _ _ hw _ => ⟨trivial, fun _ _ => HasFetched.append hw _⟩

theorem spared_stay {a : α} (hQ : Stable (Spares i) (Q a)) (h : ∀ t w, P t w → Q a t w) :
    Spared i P (.done a) Q :=
  (keeps_stay hQ (fun _ _ _ => trivial) fun _ _ hw => hw).pre h

theorem spared_done {a : α} (hQ : Stable (Spares i) (Q a)) {t : List Move} {w : FrontEnd}
    (h : Q a t w) : Spared i (Now t w) (.done a) Q :=
  (spared_stay hQ fun _ _ hw => hw).now h

theorem spared_perform {a : Action} {k : a.Answer → Process α} (hP : Stable (Spares i) P)
    (h : ∀ t w, P t w →
      Spared i (Now (t ++ [.act a w]) (a.perform w).2) (k (a.perform w).1) Q) :
    Spared i P (perform a >>= k) Q :=
  keeps_perform hP (fun _ _ _ => trivial) h

theorem spared_live {a : Action} {k : a.Answer → Process α}
    (ha : ∀ w, (w.slot i).Live → ((a.perform w).2.slot i).Live)
    (h : ∀ r, Spared i (MayRun i) (k r) Q) : Spared i (MayRun i) (perform a >>= k) Q :=
  spared_perform stable_mayRun fun _ w hw => (h _).now (ha w hw)

theorem live_quiet {a : Action} {w : FrontEnd} (ha : a.Quiet i) (hw : (w.slot i).Live) :
    ((a.perform w).2.slot i).Live := by
  refine Action.slot_perform_of hw ⟨?_, ?_⟩
  · rw [ha.reset_onto]
    exact hw.reset
  · exact (congrArg Status.isOver (ha.status_onto i w.memory (w.slot i))).trans hw.isDone

/-- **What the engine does quietly** leaves the list as it may run. -/
theorem spared_quiet (hp : Only (Action.Quiet i) p) :
    Spared i (MayRun i) p fun _ => MayRun i := by
  refine keeps_only (P := fun w => (w.slot i).Live) stable_mayRun (fun a w => live_quiet)
    (fun r w hw => ?_) hp
  rw [FrontEnd.slot_tell]
  exact hw

theorem spared_past (hp : Only (Action.Quiet i) p) :
    Spared i (PastWord i) p fun _ => PastWord i :=
  ((spared_quiet hp).and (spared_hasFetched p)).weaken (fun _ _ h => h) (fun _ _ => trivial)
    fun _ _ _ h => h

/-! ## The fetch -/

/-- What a fetch comes to. -/
def GotWord (i : Nat) : Except Failure UInt32 → Assertion
  | .error e => Failed i e
  | .ok _ => PastWord i

theorem pastWord_snoc {a : Action} {t : List Move} {w : FrontEnd} {word : UInt32}
    (hw : (w.slot i).Ready) (ha : a.Quiet i) (h : (Move.act a w).Answers i .next (.ok word)) :
    PastWord i (t ++ [.act a w]) (a.perform w).2 :=
  ⟨live_quiet ha hw.toLive, hasFetched_snoc _ ⟨word, h⟩⟩

theorem failed_of_faults {f : Memory.Fault} {t : List Move} {w : FrontEnd}
    (hr : (w.slot i).Ready) (hf : (w.slot i).Faults w.memory f) : Failed i (.memory f) t w :=
  ⟨hr.toLive, .inl ⟨f, rfl, hr, hf⟩⟩

/-- A round of a fetch is repeated, or comes to a result. -/
abbrev Tried (i : Nat) : Unit ⊕ Except Failure UInt32 → Assertion :=
  Sum.elim (fun _ => IsReady i) (GotWord i)

theorem spared_found {address : Address} {c : Cursor} (hc : Cursor.openAt address 4 = .ok c) :
    Spared i (IsReady i) (Operation.found i .next address (.ok c)) (Tried i) := by
  refine spared_perform stable_isReady fun t w hw => ?_
  cases hr : (w.slot i).accessWith w.memory address c .next with
  | mk r s =>
  have hp := perform_accessWith hr
  cases r with
  | none =>
    rw [accessWith_none hr, FrontEnd.setSlot_slot] at hp
    rw [hp]
    exact spared_done (Q := Tried i) stable_isReady hw
  | some r =>
    rcases Slot.accessWith_next hr with ⟨word, rfl⟩ | ⟨f, fetcher, rfl, rfl, hf⟩
    · have hquiet : (Action.accessWith i address c .next).Quiet i := ⟨rfl, by simp, hc⟩
      have hpast := pastWord_snoc (t := t) hw hquiet (.accessWith (by rw [hp]))
      rw [hp] at hpast ⊢
      exact spared_done (Q := Tried i) stable_pastWord hpast
    · rw [hp]
      refine spared_done (Q := Tried i) (stable_failed (.memory f)) (failed_of_faults ?_ ?_)
      · rw [FrontEnd.slot_setSlot_self (lt_size hw.isDone)]
        exact ⟨⟨hw.reset, hw.isDone⟩, hw.paused, hw.stalled⟩
      · rw [FrontEnd.slot_setSlot_self (lt_size hw.isDone)]
        exact hf

theorem spared_seek (address : Address) :
    Spared i (fun t w => IsReady i t w ∧ (w.slot i).fetcher.wanted (w.slot i).pc = some address)
      (Operation.seek i .next address) (Tried i) := by
  refine keeps_tell (fun t w v ho hw => ?_) (fun _ _ _ => trivial) fun t w hw => ?_
  · rw [ho.pc, ho.fetcher]
    exact ⟨ho.ready hw.1, hw.2⟩
  rw [← FrontEnd.slot_tell w i (.cursor address 4)] at hw
  cases hc : Cursor.openAt address 4 with
  | error f =>
    have hfailed := failed_of_faults (t := t ++ [.report (.cursor address 4) w]) hw.1
      (.inl ⟨address, hw.2, hc⟩)
    exact spared_done (Q := Tried i) (stable_failed (.memory f)) hfailed
  | ok c => exact (spared_found hc).now hw.1

/-- **A fetch** gets a word, or there is no memory for it. -/
theorem spared_next : Spared i (IsReady i) (Operation.access i .next) (GotWord i) := by
  refine keeps_iterate (I := fun _ => IsReady i) (fun _ _ h => h) (fun _ _ _ => trivial)
    stable_isReady fun _ => ?_
  refine spared_perform stable_isReady fun t w hw => ?_
  cases hr : (w.slot i).tryAccess w.memory .next with
  | mk r s =>
  have hp := perform_access hr
  cases r with
  | inl address =>
    obtain ⟨rfl, hwant⟩ := tryAccess_inl hr
    rw [FrontEnd.setSlot_slot] at hp
    rw [hp]
    exact (spared_seek address).now ⟨hw, hwant⟩
  | inr r =>
    rcases Slot.tryAccess_next hr with ⟨word, rfl⟩ | ⟨f, rfl, rfl, hf⟩
    · have hquiet : (Action.access i .next).Quiet i := ⟨rfl, by simp⟩
      have hpast := pastWord_snoc (t := t) hw hquiet (.access (by rw [hp]))
      rw [hp] at hpast ⊢
      exact spared_done (Q := Tried i) stable_pastWord hpast
    · rw [FrontEnd.setSlot_slot] at hp
      rw [hp]
      exact spared_done (Q := Tried i) (stable_failed (.memory f)) (failed_of_faults hw hf)

/-! ## The step -/

/-- Not a fault of memory. -/
def NoFault {β : Type} (r : Except Failure β) : Prop :=
  ∀ f, r ≠ .error (.memory f)

/-- What a step comes to: a list that goes on or fails may run on, and has got a word. -/
def CameTo (i : Nat) : Except Failure (Option Outcome) → Assertion
  | .ok (some _) => fun t _ => HasFetched i t
  | r => fun t w => NoFault r ∧ PastWord i t w

theorem CameTo.of_pastWord {r : Except Failure (Option Outcome)} {t : List Move} {w : FrontEnd}
    (hr : NoFault r) (h : PastWord i t w) : CameTo i r t w := by
  cases r with
  | error e => exact ⟨hr, h⟩
  | ok o =>
    cases o with
    | none => exact ⟨hr, h⟩
    | some outcome => exact h.2

theorem spared_came {p : Process (Except Failure (Option Outcome))} (hp : Only (Action.Quiet i) p)
    (hr : Spared i (fun _ _ => True) p fun r _ _ => NoFault r) :
    Spared i (PastWord i) p (CameTo i) :=
  ((spared_past hp).and hr).weaken (fun _ _ h => ⟨h, trivial⟩) (fun _ _ => trivial)
    fun _ _ _ h => .of_pastWord h.2 h.1

theorem noFault_ok {β : Type} (b : β) : NoFault (.ok b : Except Failure β) :=
  fun _ h => by cases h

theorem noFault_call (s : Slot) (target : Address) (offset : UInt32) :
    NoFault (s.call target offset) := by
  intro f hf
  unfold Slot.call at hf
  cases hp : s.calls.push ⟨s.pc, offset⟩ with
  | ok calls =>
    rw [hp] at hf
    cases hf
  | error e =>
    rw [hp] at hf
    cases hf
    cases (CallStack.push_eq_error_iff.1 hp).2

theorem NoFault.map {β γ : Type} {r : Except Failure β} (h : NoFault r) (g : β → γ) :
    NoFault (r.map g) := by
  cases r with
  | ok b => exact noFault_ok _
  | error e =>
    intro f hf
    cases hf
    exact h f rfl

theorem spared_calling (mode : Mode) (arg : UInt32) :
    Spared i (fun _ _ => True) (Operation.call i mode arg >>= fun r => pure (r.map fun _ => none))
      fun (r : Except Failure (Option Outcome)) _ _ => NoFault r := by
  have hany : Stable (Spares i) fun _ _ => True := fun _ _ _ _ _ => trivial
  refine keeps_bind (M := fun r _ _ => NoFault r) ?_ fun r =>
    keeps_stay (fun _ _ _ _ h => h) (fun _ _ _ => trivial) fun _ _ h => h.map _
  refine spared_perform hany fun t w _ => ?_
  refine Keeps.pre (P := fun _ _ => True) ?_ fun _ _ _ => trivial
  refine keeps_act hany (fun _ _ _ => trivial) fun t w _ => ?_
  refine spared_done (fun _ _ _ _ h => h) ?_
  change NoFault ((Change.call _ _).perform (w.slot i)).1
  unfold Change.perform
  dsimp only
  split
  · exact noFault_ok _
  next e he => exact fun f hf => noFault_call (w.slot i) _ _ f (by cases hf; exact he)

theorem spared_transfer (t : Transfer) (target : UInt32) :
    Spared i (PastWord i) (transfer i t target) (CameTo i) := by
  refine spared_came (only_transfer t target) ?_
  by_cases hcall : ∃ mode, t = .call mode
  · obtain ⟨mode, rfl⟩ := hcall
    exact spared_calling mode target
  · refine (leads_transfer_of (noFault_ok _) (noFault_ok _) (fun mode h => ?_) target).keeps
    exact absurd ⟨mode, h⟩ hcall

theorem spared_conclude : Spared i (PastWord i) ((conclude i).bind ended) (CameTo i) := by
  refine keeps_bind (M := fun _ t _ => HasFetched i t) ?_ fun outcome => ?_
  · exact (spared_hasFetched _).pre fun _ _ h => h.2
  · exact spared_stay (Q := CameTo i) stable_hasFetched fun _ _ h => h

theorem spared_stop (arg : UInt32) : Spared i (PastWord i) (stop i arg) (CameTo i) := by
  rw [stop_eq]
  refine keeps_bind (spared_past (only_access (by simp))) fun r => ?_
  unfold stopWith
  split
  · exact spared_conclude
  next e he =>
    refine keeps_stay stable_pastWord (fun _ _ _ => trivial) fun _ _ h => .of_pastWord ?_ h
    intro f hf
    cases hf
    exact he f rfl
  · split
    · split
      · exact spared_transfer _ _
      · exact spared_conclude
    · exact spared_conclude

/-- **A step** does not fault. -/
theorem spared_step (watched : Bool) (c : Command) :
    Spared i (PastWord i) (step watched i c) (CameTo i) := by
  by_cases hstop : ∃ arg, c = .stop arg
  · obtain ⟨arg, rfl⟩ := hstop
    exact spared_stop arg
  have hne : ∀ arg, c ≠ .stop arg := fun arg h => hstop ⟨arg, h⟩
  refine spared_came (only_step watched hne) ?_
  by_cases hcall : ∃ arg, c = .call arg
  · obtain ⟨arg, rfl⟩ := hcall
    exact spared_calling .relativeOffset arg
  · refine (leads_step_of watched hne (noFault_ok _) fun arg h => ?_).keeps
    exact absurd ⟨arg, h⟩ hcall

/-! ## The rounds -/

/-- What the rounds come to: a list that ends has got a word. -/
def CameOut (i : Nat) : Except Failure Outcome → Assertion
  | .error e => Failed i e
  | .ok outcome => fun t _ => outcome.isEnded = true → HasFetched i t

theorem stable_cameOut (r : Except Failure Outcome) : Stable (Spares i) (CameOut i r) := by
  cases r with
  | error e => exact stable_failed e
  | ok outcome => exact fun t w v ho h => h

/-- After a round the list goes on, or the rounds are over. -/
abbrev RoundDone (i : Nat) : Unit ⊕ Except Failure Outcome → Assertion :=
  Sum.elim (fun _ => MayRun i) (CameOut i)

theorem spared_settle (r : Except Failure (Option Outcome)) :
    Spared i (CameTo i r) (settle r) (RoundDone i) := by
  cases r with
  | error e =>
    refine spared_stay (Q := RoundDone i) (stable_failed e) fun t w hw => ?_
    exact ⟨hw.2.1, .inr ⟨fun f hf => hw.1 f (congrArg _ hf), hw.2.2⟩⟩
  | ok o =>
    cases o with
    | none => exact spared_stay (Q := RoundDone i) stable_mayRun fun _ _ hw => hw.2.1
    | some outcome =>
      exact spared_stay (Q := RoundDone i) (stable_cameOut (.ok outcome)) fun _ _ hw _ => hw

theorem spared_dispatch (watched : Bool) (r : Except Failure UInt32) :
    Spared i (GotWord i r) (dispatch watched i r) (RoundDone i) := by
  cases r with
  | error e => exact spared_stay (Q := RoundDone i) (stable_failed e) fun _ _ hw => hw
  | ok word => exact keeps_bind (spared_step watched _) spared_settle

theorem live_setStatus {s : Status} (hs : s.isOver = false) {w : FrontEnd} (hw : (w.slot i).Live) :
    (((Action.change i (.setStatus s)).perform w).2.slot i).Live := by
  refine Action.slot_perform_of hw ?_
  rw [Action.onto_change, if_pos rfl]
  exact ⟨hw.reset, hs⟩

theorem spared_waited (woken : Bool) : Spared i (MayRun i) (waited i woken) (RoundDone i) := by
  have hgo : Spared i (MayRun i) (.done (.inl ())) (RoundDone i) :=
    spared_stay (Q := RoundDone i) stable_mayRun fun _ _ hw => hw
  cases woken with
  | false => exact spared_stay (Q := RoundDone i) (stable_cameOut (.ok .stalled)) fun _ _ _ => nofun
  | true =>
    refine spared_live (fun _ hw => hw) fun s => ?_
    split
    · exact hgo
    · exact spared_live (fun _ hw => live_setStatus rfl hw) fun _ => hgo

theorem spared_round (watched : Bool) : Spared i (MayRun i) (round watched i) (RoundDone i) := by
  rw [round_eq]
  refine spared_perform stable_mayRun fun t w hw => ?_
  split
  · exact spared_done (Q := RoundDone i) (stable_cameOut (.ok .paused)) nofun
  next hpaused =>
  have hnow : MayRun i (t ++ [.act (.look i) w]) w ∧ (w.slot i).flags.paused = false :=
    ⟨hw, Bool.eq_false_iff.2 hpaused⟩
  refine Keeps.now (P := fun t w => MayRun i t w ∧ (w.slot i).flags.paused = false) ?_ hnow
  refine spared_perform (fun _ _ _ ho hw => ⟨ho.live hw.1, ho.paused.trans hw.2⟩) fun t w hw => ?_
  split
  · refine Keeps.now (P := MayRun i) ?_ hw.1
    refine spared_live (fun _ hw => live_setStatus rfl hw) fun _ => ?_
    exact spared_live (fun _ hw => live_quiet (a := .await i) rfl hw) spared_waited
  next hstalled =>
    have hready : (w.slot i).Ready := ⟨hw.1, hw.2, Bool.eq_false_iff.2 hstalled⟩
    exact (keeps_bind spared_next (spared_dispatch watched)).now hready

/-! ## The run of the list -/

/-- What a run of the list comes to: a list that has failed is queued first. -/
def CameBack (i : Nat) : Served → Assertion
  | .inl _ => fun t _ => HasFetched i t
  | .inr (.error e) => fun t w => Failed i e t w ∧ w.queue.head? = some i
  | .inr (.ok _) => fun _ _ => True

theorem stable_cameBack (x : Served) : Stable (Spares i) (CameBack i x) := by
  cases x with
  | inl outcomes => exact stable_hasFetched
  | inr r =>
    cases r with
    | error e => exact fun t w v ho h => ⟨stable_failed e t w v ho h.1, ho.queue ▸ h.2⟩
    | ok outcomes => exact fun _ _ _ _ h => h

theorem spared_leave (outcomes : List (Nat × Outcome)) (r : Except Failure Outcome) :
    Spared i (CameOut i r) (leave i outcomes r) (CameBack i) := by
  have hback : ∀ x t w, CameBack i x t w → Spared i (Now t w) (.done x) (CameBack i) :=
    fun x t w h => spared_done (stable_cameBack x) h
  cases r with
  | error e =>
    refine spared_perform (stable_failed e) fun t w hw => hback _ _ _ ?_
    exact ⟨⟨hw.1, hw.2.imp_right fun h => ⟨h.1, h.2.append _⟩⟩, rfl⟩
  | ok outcome =>
    refine spared_perform (stable_cameOut (.ok outcome)) fun t w hw => ?_
    split
    next hended => exact hback _ _ _ ((hw hended).append _)
    next =>
      refine Keeps.pre (P := fun _ _ => True) ?_ fun _ _ _ => trivial
      exact spared_perform (fun _ _ _ _ h => h) fun t w _ =>
        hback _ _ _ trivial

/-- **A list that runs** and fails has no next word, or has got a word. -/
theorem spared_list (watched : Bool) (outcomes : List (Nat × Outcome)) :
    Spared i (MayRun i) (running watched i outcomes) (CameBack i) := by
  have hrounds : Spared i (MayRun i) (iterate () fun _ => round watched i) (CameOut i) :=
    keeps_iterate (I := fun _ => MayRun i) (fun _ _ h => h) (fun _ _ _ => trivial) stable_mayRun
      fun _ => spared_round watched
  rw [running_eq]
  exact keeps_bind hrounds (spared_leave outcomes)

theorem spared_enter (watched : Bool) (outcomes : List (Nat × Outcome)) :
    Spared i (MayRun i) (enter watched i outcomes) (CameBack i) :=
  spared_live (fun _ hw => live_setStatus rfl hw) fun _ => spared_list watched outcomes

theorem spared_look {k : Slot → Process α} (h : ∀ s : Slot, s.Live → Spared i (MayRun i) (k s) Q) :
    Spared i (MayRun i) (look i >>= k) Q :=
  spared_perform stable_mayRun fun _ _ hw => (h _ hw).now hw

theorem spared_serve (watched : Bool) (outcomes : List (Nat × Outcome)) :
    Spared i (MayRun i) (serve watched i outcomes) (CameBack i) := by
  refine spared_look fun s hs => ?_
  rw [if_neg (by simp [hs.reset]), runUnlessDone_eq]
  refine spared_look fun s hs => ?_
  rw [if_neg (by simp [hs.isDone])]
  refine spared_look fun s hs => ?_
  unfold enterUnlessReset
  rw [if_neg (by simp [hs.reset])]
  refine spared_look fun s hs => ?_
  split
  · exact spared_live (fun _ hw => live_quiet (a := .change i _) ⟨rfl, trivial⟩ hw) fun _ =>
      spared_enter watched outcomes
  · exact spared_enter watched outcomes

/-- The list may run and is queued first, unless a word of it was fetched already. -/
def Waits (i : Nat) : Assertion :=
  fun t w => HasFetched i t ∨ MayRun i t w ∧ w.queue.head? = some i

/-- **Where the list is queued first**, the run of the queued lists does not fail otherwise before
a word of it is fetched. -/
theorem spared_drain (watched : Bool) : Spared i (Waits i) (drain watched) fun r t _ =>
    ∀ e, r = .error e → (∃ f, e = .memory f) ∨ HasFetched i t := by
  have hst : Stable (Spares i) (Waits i) :=
    fun t w v ho hw => hw.imp_right fun h => ⟨ho.live h.1, ho.queue ▸ h.2⟩
  rw [drain_eq]
  refine keeps_iterate (I := fun _ => Waits i) (fun _ _ h => h) (fun _ _ _ => trivial) hst
    fun outcomes => spared_perform hst fun t w hw => ?_
  rcases hw with hw | ⟨hlive, hhead⟩
  · refine ((spared_hasFetched _).now (hw.append _)).post fun x t u hu => ?_
    cases x with
    | inl outcomes => exact .inl hu
    | inr r => exact fun e _ => .inr hu
  · have hnext : (Action.dequeue.perform w).1 = some i := hhead
    have hnow : MayRun i (t ++ [.act .dequeue w]) (Action.dequeue.perform w).2 := hlive
    rw [hnext]
    refine ((spared_serve watched outcomes).now hnow).post fun x t u hu => ?_
    cases x with
    | inl outcomes => exact .inl hu
    | inr r =>
      rintro e rfl
      rcases hu.1.2 with ⟨f, he, -⟩ | ⟨-, hf⟩
      · exact .inl ⟨f, he⟩
      · exact .inr hf

/-! ## Failing again -/

/-- What the front end may come to while the list is left alone and the queued lists are run. -/
inductive Later (i : Nat) (u : FrontEnd) : FrontEnd → Prop
  | refl : Later i u u
  | spare {w v : FrontEnd} : Later i u w → Spares i w v → Later i u v
  | run {w v : FrontEnd} {watched : Bool} {t : List Move}
    {r : Except Failure (List (Nat × Outcome))} :
    Later i u w → Goes (Spares i) (drain watched) w t (.done r) v → Later i u v

/-- Whenever the queued lists are run from now on, and the list is left alone, the run fails with
the error `e`, fetches no word of the list and leaves it queued first; and the run comes to an
end. -/
def FailsAgain (i : Nat) (e : Failure) (u : FrontEnd) : Prop :=
  ∀ v, Later i u v → ∀ watched, Returns (drain watched) v ∧
    ∀ t q x, Goes (Spares i) (drain watched) v t q x →
      All (fun m => ¬ m.Fetches i) t ∧ ∀ r, q = .done r → r = .error e ∧ x.queue.head? = some i

/-- **A list without a next word fails again**, as often as it is run. -/
theorem failsAgain_of_stuck {f : Memory.Fault} {u : FrontEnd}
    (hu : Stuck i f [] u ∧ u.queue.head? = some i) : FailsAgain i (.memory f) u := by
  have hlater : ∀ v, Later i u v → Stuck i f [] v ∧ v.queue.head? = some i := by
    intro v hv
    induction hv with
    | refl => exact hu
    | spare _ ho ih => exact ⟨stable_stuck _ _ _ ho ih.1, ho.queue ▸ ih.2⟩
    | @run w v watched t r _ hg ih =>
      obtain ⟨-, -, hv, hhead⟩ := (attains_drain watched).1.ends ih hg
      exact ⟨⟨all_nil, hv.2⟩, hhead⟩
  intro v hv watched
  refine ⟨(attains_drain watched).2 [] v (hlater v hv), fun t q x hg => ?_⟩
  obtain ⟨ht, hq⟩ := (attains_drain watched).1 (hlater v hv) hg
  refine ⟨ht, fun r hr => ?_⟩
  obtain ⟨he, -, hhead⟩ := hq r hr
  exact ⟨he, hhead⟩

theorem memory_of_failsAgain {e : Failure} {u : FrontEnd} (hlive : (u.slot i).Live)
    (hhead : u.queue.head? = some i) (h : FailsAgain i e u) : ∃ f, e = .memory f := by
  obtain ⟨⟨t, r, x, hg⟩, hall⟩ := h u .refl false
  have hspare : Goes (Spares i) (drain false) u t (.done r) x := hg.mono fun _ _ ho => ho.elim
  obtain ⟨ht, hr⟩ := hall _ _ _ hspare
  obtain ⟨rfl, -⟩ := hr r rfl
  have hwaits : Waits i [] u := .inr ⟨hlive, hhead⟩
  rcases ((spared_drain false).ends hwaits hspare).2 e rfl with hf | ⟨m, hm, hfetch⟩
  · exact hf
  · exact absurd hfetch (ht m hm)

/-- **When a list that failed fails again.** Let the run of a list fail while nobody else touches
the list. Then the list is queued first; and if it is left alone, it fails with the same error
whenever the queued lists are run, without a word being fetched, exactly if the error is that there
is no memory. -/
theorem failsAgain_iff {watched : Bool} {outcomes : List (Nat × Outcome)} {w u : FrontEnd}
    {t : List Move} {e : Failure} (hw : (w.slot i).Live)
    (h : Goes (Spares i) (running watched i outcomes) w t (.done (.inr (.error e))) u) :
    u.queue.head? = some i ∧ (FailsAgain i e u ↔ ∃ f, e = .memory f) := by
  have hstart : MayRun i [] w := hw
  obtain ⟨⟨hlive, hfailed⟩, hhead⟩ := ((spared_list watched outcomes).ends hstart h).2
  refine ⟨hhead, memory_of_failsAgain hlive hhead, ?_⟩
  rintro ⟨f, rfl⟩
  rcases hfailed with ⟨f', he, hready, hfaults⟩ | ⟨hne, -⟩
  · cases he
    exact failsAgain_of_stuck ⟨⟨all_nil, hready, hfaults⟩, hhead⟩
  · exact absurd rfl (hne f)

/-- A list runs at an address where there is no memory. -/
def unmapped : FrontEnd :=
  { Replay.frontEnd {} with
    slots := #[{ (Slot.new 0).init ⟨0x0A000000, 0, 0, none⟩ with status := .drawing }] }

/-- This list fails again. -/
theorem failsAgain_iff_unmapped : ∃ t u,
    Goes (Spares 0) (running true 0 []) unmapped t
      (.done (.inr (.error (.memory (.unmapped 0x0A000000))))) u ∧
    u.queue.head? = some 0 ∧ FailsAgain 0 (.memory (.unmapped 0x0A000000)) u := by
  have hlive : (unmapped.slot 0).Live := ⟨rfl, rfl⟩
  have hrun : ((running true 0 []).trace 60 unmapped).map (fun x => x.2.1) =
      some (.inr (.error (.memory (.unmapped 0x0A000000)))) := by decide +kernel
  obtain ⟨⟨t, r, u⟩, hu, rfl⟩ := Option.map_eq_some_iff.1 hrun
  have hgoes : Goes (Spares 0) (running true 0 []) unmapped t (.done _) u :=
    (alone_of_trace hu).mono fun _ _ ho => ho.elim
  obtain ⟨hhead, hiff⟩ := failsAgain_iff hlive hgoes
  exact ⟨t, u, hgoes, hhead, hiff.2 ⟨_, rfl⟩⟩

/-! ## A call too deep -/

/-- A list that calls itself without end is queued. Its words are BASE, CALL and END. -/
def runaway : FrontEnd :=
  { ((Action.write 0x08800000 [0x10080000, 0x0A800004, 0x0C000000]).perform
      (Replay.frontEnd {})).2 with
    slots := #[{ (Slot.new 0).init ⟨0x08800000, 0, 0, none⟩ with wake := ⟨true⟩ }]
    queue := [0] }

/-- **A list that has called too deep runs on.** The first run fails with the list queued first; the
second goes on behind the call, ends the list and drops it. -/
theorem runaway_runs_on : ∃ t u t' v,
    Alone (drain true) runaway t (.error (.overflow 32)) u ∧ u.queue = [0] ∧
      Alone (drain true) u t' (.ok [(0, .ended false)]) v ∧ v.queue = [] ∧
      ¬ FailsAgain 0 (.overflow 32) u := by
  have hfirst : ((drain true).trace 500 runaway).map (fun x => (x.2.1, x.2.2.queue)) =
      some (.error (.overflow 32), [0]) := by decide +kernel
  have hsecond : (((drain true).trace 500 runaway).bind fun x =>
      ((drain true).trace 60 x.2.2).map fun y => (y.2.1, y.2.2.queue)) =
      some (.ok [(0, .ended false)], []) := by decide +kernel
  obtain ⟨⟨t, r, u⟩, hu, he⟩ := Option.map_eq_some_iff.1 hfirst
  obtain ⟨hr, hqueue⟩ := Prod.mk.inj he
  rw [hu] at hsecond
  obtain ⟨⟨t', r', v⟩, hv, he'⟩ := Option.map_eq_some_iff.1 hsecond
  obtain ⟨hr', hqueue'⟩ := Prod.mk.inj he'
  dsimp only at hr hr' hqueue hqueue' hv
  subst hr hr'
  have hagain := alone_of_trace hv
  refine ⟨t, u, t', v, alone_of_trace hu, hqueue, hagain, hqueue', fun h => ?_⟩
  have hspare : Goes (Spares 0) (drain true) u t' (.done (.ok [(0, .ended false)])) v :=
    Goes.mono (fun _ _ ho => ho.elim) hagain
  cases (((h u .refl true).2 _ _ _ hspare).2 _ rfl).1

end DisplayList.Process
