import DisplayList.Proofs.Obeying

/-!
# Waits at the stall address

A list that has run as far as it may waits there, and nothing of its wait is shown. One that is left
alone waits in vain.

* `Action.Hidden`: what the engine does while it waits;
* **`keeps_wait`**: a wait, beside others;
* `AtStall`, **`alone_stalled`**: a list that has stalled and is left alone.
-/

namespace DisplayList

variable {i : Nat} {x y v u w : FrontEnd}

/-- An action that writes a status or waits: nothing of it is shown. -/
def Action.Hidden : Action → Prop
  | change _ (.setStatus _) | await _ => True
  | _ => False

namespace Action

variable {a : Action} (ha : a.Hidden)

include ha in
theorem Hidden.serves : a.Serves := by
  cases a with
  | change j c =>
    cases c with
    | setStatus s => trivial
    | _ => exact ha.elim
  | await j => trivial
  | _ => exact ha.elim

include ha in
theorem Hidden.shown (w : FrontEnd) : (a.perform w).2.shown = w.shown := by
  cases a with
  | change j c =>
    cases c with
    | setStatus s => exact FrontEnd.shown_setSlot_of rfl
    | _ => exact ha.elim
  | await j => exact FrontEnd.shown_setSlot_of rfl
  | _ => exact ha.elim

end Action

namespace Process

open Engine

variable {others : FrontEnd → FrontEnd → Prop} {R : FrontEnd → Prop} {watched : Bool}

/-- The list is known to have stalled. -/
def Stalled (i : Nat) (R : FrontEnd → Prop) : FrontEnd → Prop :=
  fun v => R v ∧ (v.slot i).status = .stallReached

/-- What a round leaves that waits: `R`, and if the wait was in vain, a list that has stalled. -/
def Waited (i : Nat) (R : FrontEnd → Prop) :
    Unit ⊕ Except Failure Outcome → List Move → FrontEnd → Prop :=
  Sum.elim (fun _ _ => R) fun r _ v => r = .ok .stalled ∧ Stalled i R v

/-- **A wait at the stall address**: nothing is done that is shown. -/
theorem keeps_wait (hst : Stable others fun _ => R)
    (hR : ∀ (a : Action) w, a.Hidden → R w → R (a.perform w).2)
    (hsize : ∀ w, R w → i < w.slots.size)
    (hstatus : ∀ v u, others v u → R v → (u.slot i).status = (v.slot i).status) :
    Keeps others (fun _ => R)
      (change i (.setStatus .stallReached) >>= fun _ => perform (.await i) >>= waited i)
      (fun _ => True) (Waited i R) := by
  have hstalled : Stable others fun _ => Stalled i R := fun t v u ho hv =>
    ⟨hst t v u ho hv.1, (hstatus v u ho hv.1).trans hv.2⟩
  have hgo : Keeps others (fun _ => R) (.done (.inl ())) (fun _ => True) (Waited i R) :=
    keeps_stay hst (fun _ _ _ => trivial) fun _ _ h => h
  refine keeps_perform hst (fun _ _ _ => trivial) fun t v hv => ?_
  have hset : Stalled i R ((Action.change i (.setStatus .stallReached)).perform v).2 := by
    refine ⟨hR _ v trivial hv, ?_⟩
    rw [Action.slot_perform, if_pos (hsize v hv), Action.onto_change, if_pos rfl]
    rfl
  refine Keeps.now (P := fun _ => Stalled i R) ?_ hset
  refine keeps_perform hstalled (fun _ _ _ => trivial) fun t v hv => ?_
  have hafter : Stalled i R ((Action.await i).perform v).2 := by
    refine ⟨hR _ v trivial hv.1, ?_⟩
    rw [Action.slot_perform, if_pos (hsize v hv.1)]
    unfold Action.onto
    dsimp only
    rw [if_pos rfl]
    exact hv.2
  cases ((Action.await i).perform v).1 with
  | false =>
    refine Keeps.now (P := fun _ => Stalled i R) ?_ hafter
    exact keeps_stay hstalled (fun _ _ _ => trivial) fun _ _ h => ⟨rfl, h⟩
  | true =>
    refine Keeps.now (P := fun _ => R) ?_ hafter.1
    refine keeps_perform hst (fun _ _ _ => trivial) fun t v hv => ?_
    change Keeps _ _ (if (v.slot i).isStalled then _ else _) _ _
    split
    · exact hgo.now hv
    · refine Keeps.now (P := fun _ => R) ?_ hv
      refine keeps_perform hst (fun _ _ _ => trivial) fun t v hv => ?_
      exact hgo.now (hR _ v trivial hv)

/-- A list at its stall address that is not paused. -/
structure AtStall (i : Nat) (x v : FrontEnd) : Prop where
  size : i < v.slots.size
  shown : v.shown = x.shown
  paused : (v.slot i).flags.paused = false
  stalled : (v.slot i).isStalled = true

theorem AtStall.perform {a : Action} (h : AtStall i x v) (ha : a.Hidden) :
    AtStall i x (a.perform v).2 := by
  have hslot := FrontEnd.slot_of_shown (ha.shown v) i
  have hpc : ((a.perform v).2.slot i).pc = (v.slot i).pc := (congrArg Slot.pc hslot :)
  have hflags : ((a.perform v).2.slot i).flags = (v.slot i).flags := (congrArg Slot.flags hslot :)
  have hstall : ((a.perform v).2.slot i).stall = (v.slot i).stall :=
    Action.slot_perform_of (P := fun s => s.stall = (v.slot i).stall) rfl (ha.serves.stall_onto ..)
  have hstalled := h.stalled
  refine ⟨?_, (ha.shown v).trans h.shown, ?_, ?_⟩
  · rw [Action.size_perform]
    exact h.size
  · rw [hflags]
    exact h.paused
  · unfold Slot.isStalled at hstalled ⊢
    rw [hpc, hstall]
    exact hstalled

/-- **A list that has stalled and is left alone goes nowhere.** -/
theorem alone_stalled {ρ : Except Failure Outcome} {t : List Move} (hx : AtStall i x x)
    (h : Alone (iterate () fun _ => round watched i) x t ρ y) :
    ρ = .ok .stalled ∧ Stalled i (AtStall i x) y := by
  have hst : Stable Nobody fun _ => AtStall i x := fun _ _ _ ho _ => ho.elim
  have hround : Keeps Nobody (fun _ => AtStall i x) (round watched i) (fun _ => True)
      (Sum.elim (fun _ _ => AtStall i x) fun r _ v => r = .ok .stalled ∧
        Stalled i (AtStall i x) v) := by
    rw [round_eq]
    refine keeps_perform hst (fun _ _ _ => trivial) fun t v hv => ?_
    change Keeps _ _ (if (v.slot i).flags.paused then _ else _) _ _
    rw [if_neg (by rw [hv.paused]; decide)]
    refine Keeps.now (P := fun _ => AtStall i x) ?_ hv
    refine keeps_perform hst (fun _ _ _ => trivial) fun t v hv => ?_
    change Keeps _ _ (if (v.slot i).isStalled then _ else _) _ _
    rw [if_pos hv.stalled]
    refine Keeps.now (P := fun _ => AtStall i x) ?_ hv
    refine (keeps_wait hst (fun a w ha hw => hw.perform ha) (fun w hw => hw.size)
      fun v u ho _ => ho.elim).post fun r t v hv => ?_
    cases r with
    | inl s => exact hv
    | inr r => exact hv
  have hrun := keeps_iterate (s := ()) (P := fun _ => AtStall i x) (I := fun _ _ => AtStall i x)
    (fun _ _ h => h) (fun _ _ _ => trivial) hst fun _ => hround
  exact (hrun.alone hx h).2

end Process

end DisplayList
