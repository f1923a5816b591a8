import DisplayList.Proofs.Rounds
import DisplayList.Proofs.Steering

/-!
# Runs of one list

The engine looks at a list, fetches and carries out its words and writes that it draws or has
stalled: over and over, until the list pauses, stalls, fails or ends. What all these moves keep is
known when the run is over. Only the end of the list is a matter of its own.

* `Action.Drives`: what the engine does to a list before its end; `only_draw`;
* `Rides`: what is known of a run of a list, and what it takes to know it;
  **`Rides.execute`**: the whole run.
-/

namespace DisplayList

/-- An action of the engine on the list at position `i` before the list ends. -/
def Action.Drives (i : Nat) (a : Action) : Prop :=
  a.Quiet i ∨ ∃ s : Status, s.isOver = false ∧ a = .change i (.setStatus s)

theorem Action.Drives.steers {i : Nat} {a : Action} (h : a.Drives i) : a.Steers i := by
  rcases h with h | ⟨s, -, rfl⟩
  · exact .inl h
  · exact .inr ⟨s, rfl⟩

namespace Process

variable {α : Type} {others : FrontEnd → FrontEnd → Prop} {i : Nat} {T : List Move → Prop}
  {I : Assertion} {E : Except Failure Outcome → Assertion}

theorem only_settle {allowed : Action → Prop} (r : Except Failure (Option Outcome)) :
    Only allowed (Engine.settle r) := by
  cases r with
  | error e => exact only_pure _
  | ok o =>
    cases o with
    | none => exact only_pure _
    | some outcome => exact only_pure _

theorem only_dispatch_of {allowed : Action → Prop} {watched : Bool}
    (h : ∀ c, Only allowed (Engine.step watched i c)) (r : Except Failure UInt32) :
    Only allowed (Engine.dispatch watched i r) := by
  cases r with
  | error e => exact only_pure _
  | ok word => exact (h _).bind fun r => only_settle r

theorem Only.drives {p : Process α} (h : Only (Action.Quiet i) p) : Only (Action.Drives i) p :=
  h.mono fun _ => .inl

theorem only_draw {s : Status} (hs : s.isOver = false) :
    Only (Action.Drives i) (change i (.setStatus s)) :=
  only_perform (.inr ⟨s, hs, rfl⟩)

/-- **A run of a list.** While the engine runs the list at position `i`, what `I` says is known; and
once the run is over, what `E` says of its result. -/
structure Rides (others : FrontEnd → FrontEnd → Prop) (i : Nat) (T : List Move → Prop)
    (I : Assertion) (E : Except Failure Outcome → Assertion) : Prop where
  stable : Stable others I
  trace : ∀ t w, I t w → T t
  act : ∀ a t w, a.Drives i → I t w → I (t ++ [.act a w]) (a.perform w).2
  report : ∀ r t w, I t w → I (t ++ [.report r w]) (w.tell r).2
  /-- Unless the list ends, nothing else is known once the run is over. -/
  unended : ∀ r t w, (∀ o, r = .ok o → o.isEnded = false) → I t w → E r t w
  conclude : Keeps others I (Engine.conclude i) T fun o => E (.ok o)
  stable_over : ∀ r, Stable others (E r)
  trace_over : ∀ r t w, E r t w → T t

namespace Rides

variable (h : Rides others i T I E)
include h

theorem keeps {p : Process α} (hp : Only (Action.Drives i) p) : Keeps others I p T fun _ => I :=
  keeps_moves h.stable h.trace h.act h.report hp

theorem stay {r : α} {Q : α → Assertion} (hQ : ∀ t w, I t w → Q r t w) :
    Keeps others I (.done r) T Q :=
  keeps_stay h.stable h.trace hQ

theorem stay_over (r : Except Failure Outcome) {a : α} {Q : α → Assertion}
    (hQ : ∀ t w, E r t w → Q a t w) : Keeps others (E r) (.done a) T Q :=
  keeps_stay (h.stable_over r) (h.trace_over r) hQ

omit h in
/-- What is known after a step. -/
def Stepped (I : Assertion) (E : Except Failure Outcome → Assertion) :
    Except Failure (Option Outcome) → Assertion
  | .ok none => I
  | .ok (some o) => E (.ok o)
  | .error e => E (.error e)

theorem stepped {r : Except Failure (Option Outcome)} (hr : Engine.Continues r) {t : List Move}
    {w : FrontEnd} (hw : I t w) : Stepped I E r t w := by
  match r with
  | .ok none => exact hw
  | .ok (some o) =>
    obtain rfl : o = .paused := hr
    refine h.unended _ t w (fun o ho => ?_) hw
    cases ho
    rfl
  | .error e => exact h.unended _ t w (fun o ho => by cases ho) hw

theorem stop (arg : UInt32) : Keeps others I (Engine.stop i arg) T (Stepped I E) := by
  have hend : Keeps others I ((Engine.conclude i).bind Engine.ended) T (Stepped I E) :=
    keeps_bind h.conclude fun o => h.stay_over (.ok o) fun _ _ hw => hw
  rw [Engine.stop_eq]
  refine keeps_bind (h.keeps (only_access (by simp)).drives) fun r => ?_
  unfold Engine.stopWith
  split
  · exact hend
  next e _ => exact h.stay fun t w hw => h.stepped (r := .error e) trivial hw
  · split
    · split
      · exact ((h.keeps (only_transfer ..).drives).leads (Engine.leads_transfer ..)).post
          fun r t w hw => h.stepped hw.2 hw.1
      · exact hend
    · exact hend

theorem step (watched : Bool) (c : Command) :
    Keeps others I (Engine.step watched i c) T (Stepped I E) := by
  by_cases hc : ∃ arg, c = .stop arg
  · obtain ⟨arg, rfl⟩ := hc
    exact h.stop arg
  · have hne : ∀ arg, c ≠ .stop arg := fun arg he => hc ⟨arg, he⟩
    exact ((h.keeps (only_step watched hne).drives).leads (Engine.leads_step watched hne)).post
      fun r t w hw => h.stepped hw.2 hw.1

theorem dispatch (watched : Bool) (r : Except Failure UInt32) :
    Keeps others I (Engine.dispatch watched i r) T (Sum.elim (fun _ => I) E) := by
  cases r with
  | error e => exact h.stay fun t w hw => h.unended _ t w (fun o ho => by cases ho) hw
  | ok word =>
    refine keeps_bind (h.step watched _) fun r => ?_
    match r with
    | .error e => exact h.stay_over (.error e) fun _ _ hw => hw
    | .ok none => exact h.stay fun _ _ hw => hw
    | .ok (some o) => exact h.stay_over (.ok o) fun _ _ hw => hw

theorem round (watched : Bool) :
    Keeps others I (Engine.round watched i) T (Sum.elim (fun _ => I) E) := by
  have hgo : ∀ u : Unit, Keeps others I (.done (.inl u)) T (Sum.elim (fun _ => I) E) :=
    fun _ => h.stay fun _ _ hw => hw
  have hend : ∀ o : Outcome, o.isEnded = false →
      Keeps others I (.done (.inr (.ok o))) T (Sum.elim (fun _ : Unit => I) E) := by
    refine fun o ho => h.stay fun t w hw => h.unended _ t w (fun o' ho' => ?_) hw
    cases ho'
    exact ho
  have hlook := h.keeps (only_look i).drives
  rw [Engine.round_eq]
  refine keeps_bind hlook fun s => ?_
  split
  · exact hend _ rfl
  · refine keeps_bind hlook fun s => ?_
    split
    · refine keeps_bind (h.keeps (only_draw rfl)) fun _ => ?_
      refine keeps_bind (h.keeps (only_perform (.inl rfl))) fun woken => ?_
      unfold Engine.waited
      split
      · refine keeps_bind hlook fun s => ?_
        split
        · exact hgo _
        · exact keeps_bind (h.keeps (only_draw rfl)) fun _ => hgo _
      · exact hend _ rfl
    · exact keeps_bind (h.keeps (only_access (by simp)).drives) (h.dispatch watched)

/-- **The whole run.** -/
theorem execute (watched : Bool) : Keeps others I (Engine.execute watched i) T E := by
  have hrun : Keeps others I (change i (.setStatus .drawing) >>= fun _ =>
      iterate () fun _ => Engine.round watched i) T E := by
    refine keeps_bind (h.keeps (only_draw rfl)) fun _ => ?_
    exact keeps_iterate (I := fun _ => I) (fun _ _ hw => hw) h.trace h.stable
      fun _ => h.round watched
  have hlook := h.keeps (only_look i).drives
  refine keeps_bind hlook fun s => ?_
  split
  · exact h.stay fun t w hw => h.unended _ t w (fun o ho => by cases ho) hw
  · refine keeps_bind hlook fun s => ?_
    split
    · refine keeps_bind (h.keeps ?_) fun _ => hrun
      exact (only_change (c := .setRestarted false) trivial).drives
    · exact hrun

end Rides

end Process

end DisplayList
