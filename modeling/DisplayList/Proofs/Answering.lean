import DisplayList.Proofs.Finding
import DisplayList.Proofs.Rounds
import DisplayList.Service

/-!
# What is never answered

An access is never answered that there is no cursor. Everything else that is done with a list comes
to its words through accesses, so nothing that can be asked of a front end is answered so.

* `Results` and its rules: what a process may be done with, whoever acts beside it;
* `results_access`, `results_call`: the two operations that may fail;
* `results_execute`, **`results_drain`**: the engine;
* **`serve_ne_noCursor`**: no request is answered that a list has no cursor.
-/

namespace DisplayList

namespace Process

variable {α β σ : Type} {others : FrontEnd → FrontEnd → Prop} {S : α → Prop}

/-- Whoever acts beside it, the process is done only with results as `S` says. -/
def Results (others : FrontEnd → FrontEnd → Prop) (S : α → Prop) (p : Process α) : Prop :=
  Keeps others (fun _ _ => True) p (fun _ => True) fun a _ _ => S a

theorem Results.of_goes {p : Process α} (h : Results others S p) {w u : FrontEnd} {t : List Move}
    {a : α} (hg : Goes others p w t (.done a) u) : S a :=
  (h.ends trivial hg).2

theorem results_any {p : Process α} (h : ∀ a, S a) : Results others S p :=
  fun _ _ _ _ _ _ _ => ⟨trivial, fun a _ => h a⟩

theorem results_done {a : α} (h : S a) : Results others S (.done a) :=
  keeps_done (fun _ _ _ => trivial) fun _ _ _ _ _ => h

theorem results_perform {a : Action} {S : a.Answer → Prop} (h : ∀ w, S (a.perform w).1) :
    Results others S (perform a) :=
  keeps_act (fun _ _ _ _ hw => hw) (fun _ _ _ => trivial) fun _ w _ =>
    keeps_done (fun _ _ _ => trivial) fun _ _ _ _ _ => h w

/-- **Sequences.** -/
theorem results_bind {R : β → Prop} {p : Process β} {f : β → Process α} (hp : Results others R p)
    (hf : ∀ b, R b → Results others S (f b)) : Results others S (p >>= f) :=
  keeps_bind hp fun b => keeps_iff.2 fun _ _ hb => (hf b hb).now trivial

theorem results_then {p : Process β} {f : β → Process α} (hf : ∀ b, Results others S (f b)) :
    Results others S (p >>= f) :=
  results_bind (R := fun _ => True) (results_any fun _ => trivial) fun b _ => hf b

/-- **Loops.** The last round gives the result. -/
theorem results_iterate {s : σ} {round : σ → Process (σ ⊕ α)}
    (h : ∀ s, Results others (fun x => ∀ a, x = .inr a → S a) (round s)) :
    Results others S (iterate s round) := by
  refine keeps_iterate (I := fun _ _ _ => True) (fun _ _ _ => trivial) (fun _ _ _ => trivial)
    (fun _ _ _ _ hw => hw) fun s => (h s).post fun x t u hx => ?_
  cases x with
  | inl s => trivial
  | inr a => exact hx a rfl

end Process

open Process

variable {others : FrontEnd → FrontEnd → Prop} {i : Nat}

/-! ## Operations -/

namespace Operation

theorem results_access (a : Slot.Access) :
    Results others (fun r => r ≠ .error .noCursor) (access i a) := by
  rw [access_eq_accessThrough]
  exact keeps_equipped.anew.weaken (fun _ _ _ => rfl) (fun _ h => h)
    fun _ _ _ ⟨_, hr⟩ => hr.ne_noCursor

theorem results_call (mode : Mode) (arg : UInt32) :
    Results others (fun r => r ≠ .error .noCursor) (call i mode arg) := by
  refine results_then fun r => results_perform fun w => ?_
  have hslot : ((Change.call (mode.target r arg) r.offset).perform (w.slot i)).1 ≠
      .error .noCursor := by
    unfold Change.perform
    dsimp only
    split
    next => simp
    next e hs =>
      unfold Slot.call at hs
      cases hpush : (w.slot i).calls.push ⟨(w.slot i).pc, r.offset⟩ with
      | ok calls =>
        rw [hpush] at hs
        cases hs
      | error e' =>
        rw [hpush] at hs
        cases hs
        rw [(CallStack.push_eq_error_iff.1 hpush).2]
        simp
  exact hslot

end Operation

/-! ## The pool -/

theorem Pool.results_submit (sub : Submission) (p : Placement) :
    Results others (fun r => r ≠ .error .noCursor) (submit sub p) := by
  refine results_then fun size => results_then fun busy => ?_
  split
  · exact results_done (by simp)
  · refine results_then fun free => ?_
    cases free with
    | none => exact results_done (by simp)
    | some i => exact results_then fun _ => results_then fun _ => results_done (by simp)

/-! ## The engine -/

namespace Engine

theorem results_called (mode : Mode) (arg : UInt32) :
    Results others (fun r => r ≠ .error .noCursor)
      (Operation.call i mode arg >>= fun r => .done (r.map fun _ => (none : Option Outcome))) := by
  refine results_bind (Operation.results_call mode arg) fun r hr => results_done ?_
  cases r with
  | ok u => simp [Except.map]
  | error e => simpa [Except.map] using hr

theorem results_transfer (t : Transfer) (target : UInt32) :
    Results others (fun r => r ≠ .error .noCursor) (transfer i t target) := by
  by_cases ht : ∃ mode, t = .call mode
  · obtain ⟨mode, rfl⟩ := ht
    exact results_called mode target
  · exact (leads_transfer_of (S := fun r => r ≠ .error .noCursor) (by simp) (by simp)
      (fun mode he => absurd ⟨mode, he⟩ ht) target).keeps

theorem results_stopWith (arg : UInt32) {r : Except Failure UInt32} (hr : r ≠ .error .noCursor) :
    Results others (fun r => r ≠ .error .noCursor) (stopWith i arg r) := by
  have hend : Results others (fun r => r ≠ .error .noCursor) ((conclude i).bind ended) :=
    results_then fun _ => results_done (by simp)
  unfold stopWith
  split
  · exact hend
  next e _ => exact results_done (by simpa using hr)
  · split
    · split
      · exact results_transfer ..
      · exact hend
    · exact hend

theorem results_step (watched : Bool) (c : Command) :
    Results others (fun r => r ≠ .error .noCursor) (step watched i c) := by
  by_cases hstop : ∃ arg, c = .stop arg
  · obtain ⟨arg, rfl⟩ := hstop
    change Results others _ (stop i arg)
    rw [stop_eq]
    exact results_bind (Operation.results_access .previous) fun r hr => results_stopWith arg hr
  by_cases hcall : ∃ arg, c = .call arg
  · obtain ⟨arg, rfl⟩ := hcall
    exact results_called .relativeOffset arg
  · exact (leads_step_of (S := fun r => r ≠ .error .noCursor) watched
      (fun arg he => hstop ⟨arg, he⟩) (by simp) fun arg he => absurd ⟨arg, he⟩ hcall).keeps

theorem results_round (watched : Bool) : Results others
    (fun x => ∀ r, x = .inr r → r ≠ .error .noCursor) (round watched i) := by
  rw [round_eq]
  refine results_then fun s => ?_
  split
  · exact results_done (by simp)
  refine results_then fun s => ?_
  split
  · refine results_then fun _ => results_then fun woken => ?_
    unfold waited
    split
    · refine results_then fun s => ?_
      split
      · exact results_done (by simp)
      · exact results_then fun _ => results_done (by simp)
    · exact results_done (by simp)
  · have herror : ∀ {e : Failure}, e ≠ .noCursor →
        ∀ r, (Sum.inr (.error e) : Unit ⊕ Except Failure Outcome) = .inr r →
          r ≠ .error .noCursor := by
      rintro e he _ ⟨⟩ ⟨⟩
      exact he rfl
    refine results_bind (Operation.results_access .next) fun r hr => ?_
    cases r with
    | error e => exact results_done (herror (by simpa using hr))
    | ok word =>
      refine results_bind (results_step watched _) fun r hr => ?_
      match r with
      | .error e => exact results_done (herror (by simpa using hr))
      | .ok none => exact results_done (by simp)
      | .ok (some outcome) => exact results_done (by simp)

theorem results_execute (watched : Bool) (i : Nat) :
    Results others (fun r => r ≠ .error .noCursor) (execute watched i) := by
  have hrun : Results others (fun r => r ≠ .error .noCursor)
      (change i (.setStatus .drawing) >>= fun _ => iterate () fun _ => round watched i) :=
    results_then fun _ => results_iterate fun _ => results_round watched
  refine results_then fun s => ?_
  split
  · exact results_done (by simp)
  · refine results_then fun s => ?_
    split
    · exact results_then fun _ => hrun
    · exact hrun

/-- **The engine does not fail because a list has no cursor.** -/
theorem results_drain (watched : Bool) :
    Results others (fun r => r ≠ .error .noCursor) (drain watched) := by
  rw [drain_eq]
  refine results_iterate fun outcomes => results_then fun next => ?_
  cases next with
  | none => exact results_done (by simp)
  | some i =>
    refine results_then fun s => ?_
    split
    · exact results_done (by simp)
    refine results_then fun s => ?_
    split
    · exact results_done (by simp)
    refine results_bind (results_execute watched i) fun r hr => ?_
    cases r with
    | error e => exact results_then fun _ => results_done (by simpa using hr)
    | ok outcome =>
      refine results_then fun s => ?_
      split
      · exact results_done (by simp)
      · exact results_then fun _ => results_done (by simp)

end Engine

/-! ## Requests -/

namespace Request

theorem results_ofExcept {α : Type} {f : α → Reply} {p : Process (Except Failure α)}
    (hf : ∀ a, f a ≠ .failure .noCursor)
    (hp : Results others (fun r => r ≠ .error .noCursor) p) :
    Results others (fun r => r ≠ .failure .noCursor)
      (p >>= fun r => .done (Reply.ofExcept f r)) := by
  refine results_bind hp fun r hr => results_done ?_
  cases r with
  | ok a => exact hf a
  | error e => simpa [Reply.ofExcept] using hr

theorem results_thenUnit (p : Process Unit) :
    Results others (fun r => r ≠ .failure .noCursor) p.thenUnit :=
  results_then fun _ => results_done (by simp)

theorem results_withCursor (plan : CursorPlan) (f : Cursor → Process Unit) :
    Results others (fun r => r ≠ .failure .noCursor) (withCursor plan f) := by
  unfold withCursor
  split
  · exact results_done (by simp)
  · exact results_thenUnit _

theorem results_serve (r : Request) :
    Results others (fun r => r ≠ .failure .noCursor) r.serve := by
  have hone : ∀ {α : Type} {p : Process α} {f : α → Reply}, (∀ a, f a ≠ .failure .noCursor) →
      Results others (fun r => r ≠ .failure .noCursor) (p >>= fun r => .done (f r)) :=
    fun hf => results_then fun a => results_done (hf a)
  cases r with
  | write a ws =>
    refine results_then fun r => ?_
    cases r with
    | ok u => exact results_done (by simp)
    | error f => exact results_done (by simp)
  | submit sub p =>
    refine results_bind (Pool.results_submit sub p) fun r hr => ?_
    cases r with
    | ok i => exact hone (by simp)
    | error e => exact results_done (by simpa using hr)
  | poolSlot i =>
    refine results_then fun size => ?_
    split
    · exact hone (by simp)
    · exact results_done (by simp)
  | dequeue =>
    refine results_then fun next => ?_
    cases next with
    | none => exact results_done (by simp)
    | some i => exact hone (by simp)
  | pool | route external | router | services => exact results_then fun _ => hone (by simp)
  | run watched => exact results_ofExcept (by simp) (Engine.results_drain watched)
  | execute i => exact results_ofExcept (by simp) (Engine.results_execute true i)
  | call i mode arg => exact results_ofExcept (by simp) (Operation.results_call mode arg)
  | access i a => cases a <;> exact results_ofExcept (by simp) (Operation.results_access _)
  | setStallWith i a plan lo hi => exact results_withCursor ..
  | useCursor i plan => exact results_withCursor ..
  | waitSignalled i longEnough =>
    refine results_then fun woken => ?_
    split
    · exact results_then fun _ => results_done (by simp)
    · refine results_then fun _ => ?_
      by_cases hl : longEnough
      · simp only [hl, if_true]
        exact hone (by simp)
      · simp only [hl]
        exact results_done (by simp)
  | status i => exact results_then fun _ => results_then fun _ => hone (by simp)
  | withdraw | isInUse | text | diagnostic | queue | wait | takeBlocked => exact hone (by simp)
  | _ => exact results_thenUnit _

/-- **No request is answered that a list has no cursor**, whatever the state of the front end is and
whoever acts meanwhile. -/
theorem serve_ne_noCursor (r : Request) {reply : Reply} {w v : FrontEnd} {t : List Move}
    (hg : Goes others r.serve w t (.done reply) v) : reply ≠ .failure .noCursor :=
  (results_serve r).of_goes hg

end Request

end DisplayList
