import DisplayList.Proofs.Histories
import DisplayList.Proofs.Overwriting
import DisplayList.Replay

/-!
# Lists cancelled while they run

The engine asks whether a list is over before it runs it, and then writes the status of the list as
it goes along: that it is drawing, that it has reached its stall address, that it is drawing again.
It does not ask again before these writes. A list that is cancelled meanwhile, by a callback, by
whoever draws or by another thread, is therefore moved back.

* `Move.Revives`, `Move.KeepsOver`: what a move of the engine does to the status of a list;
* `Held`: the engine has found a list not over, or made it so, and not written its status since;
* `Engine.Cancelled`: a list that it holds is over when it stands where it writes its status;
* **`keepsOver_iff`**: no list is moved back exactly if none is cancelled so.
-/

namespace DisplayList

namespace Move

variable (j : Nat)

/-- The move writes the status of the list at position `j`. -/
def WritesStatus (m : Move) : Prop :=
  ∃ s w, m = .act (.change j (.setStatus s)) w

/-- The move writes the status of a list that is not over. -/
def Revives (m : Move) : Prop :=
  ∃ s w, s.isOver = false ∧ m = .act (.change j (.setStatus s)) w

/-- The move leaves the list over if it was. -/
def KeepsOver (m : Move) : Prop :=
  (m.before.slot j).isDone = true → (m.after.slot j).isDone = true

end Move

/-- At some move the list was not over, and its status was not written since. -/
def Held (j : Nat) (t : List Move) : Prop :=
  ∃ a m b, t = a ++ m :: b ∧ (m.after.slot j).isDone = false ∧ ∀ x ∈ b, ¬ x.WritesStatus j

/-- **A list is cancelled under the engine.** The run comes to a place in which the engine is about
to write the status of the list, and goes on from there. The engine had found the list not over, but
it is over now. -/
def Engine.Cancelled (watched : Bool) (j : Nat) (w : FrontEnd) (t : List Move)
    (q : Process (Except Failure (List (Nat × Outcome)))) (u : FrontEnd) : Prop :=
  ∃ place, Overwrites watched j place ∧ ∃ a m b, t = a ++ m :: b ∧
    Process.Goes Process.Anybody (drain watched) w a
      (place.bind (Process.resume (turn watched) .done)) m.before ∧
    Process.Goes Process.Anybody (place.bind (Process.resume (turn watched) .done)) m.before
      (m :: b) q u ∧
    Held j a ∧ (m.before.slot j).isDone = true

/-- Every move that may make the list anything but over is made while the list is held. -/
inductive Orderly (j : Nat) : List Move → Prop
  | nil : Orderly j []
  | keep {t : List Move} {m : Move} : Orderly j t → m.KeepsOver j → Orderly j (t ++ [m])
  | revive {t : List Move} {m : Move} :
    Orderly j t → Held j t → m.Revives j → Orderly j (t ++ [m])

variable {i j : Nat} {t : List Move} {m : Move}

theorem Held.snoc (h : Held j t) (hm : ¬ m.WritesStatus j) : Held j (t ++ [m]) :=
  since_concat.2 (.inr ⟨h, hm⟩)

theorem held_snoc (t : List Move) (h : (m.after.slot j).isDone = false) : Held j (t ++ [m]) :=
  since_concat.2 (.inl h)

theorem Orderly.mem (h : Orderly j t) (hm : m ∈ t) :
    m.KeepsOver j ∨ ∃ a b, t = a ++ m :: b ∧ Held j a ∧ m.Revives j := by
  induction h with
  | nil => cases hm
  | @keep t m' _ hk ih =>
    rcases List.mem_append.1 hm with hm | hm
    · rcases ih hm with hk' | ⟨a, b, rfl, hh, hr⟩
      · exact .inl hk'
      · exact .inr ⟨a, b ++ [m'], by simp, hh, hr⟩
    · rw [List.mem_singleton.1 hm]
      exact .inl hk
  | @revive t m' _ hh' hr' ih =>
    rcases List.mem_append.1 hm with hm | hm
    · rcases ih hm with hk' | ⟨a, b, rfl, hh, hr⟩
      · exact .inl hk'
      · exact .inr ⟨a, b ++ [m'], by simp, hh, hr⟩
    · rw [List.mem_singleton.1 hm]
      exact .inr ⟨t, [], rfl, hh', hr'⟩

/-! ## Single moves -/

theorem keepsOver_of_quiet (h : m.Is (Action.Quiet i)) : m.KeepsOver j := by
  intro hd
  cases m with
  | act a w =>
    refine Action.slot_perform_of (P := fun s => s.isDone = true) hd ?_
    unfold Slot.isDone
    rw [h.status_onto]
    exact hd
  | report r w =>
    change ((w.tell r).2.slot j).isDone = true
    rw [FrontEnd.slot_tell]
    exact hd

theorem not_writes_of_quiet (h : m.Is (Action.Quiet i)) : ¬ m.WritesStatus j := by
  rintro ⟨s, w, rfl⟩
  exact h.2

theorem keepsOver_of_ne {a : Action} {w : FrontEnd} (h : a.Steers i) (hj : j ≠ i) :
    (Move.act a w).KeepsOver j := by
  intro hd
  refine Action.slot_perform_of (P := fun s => s.isDone = true) hd ?_
  rw [h.onto_ne hj]
  exact hd

theorem isDone_setStatus {w : FrontEnd} (s : Status) (hj : j < w.slots.size) :
    ((Move.act (.change j (.setStatus s)) w).after.slot j).isDone = s.isOver := by
  change (((Action.change j (.setStatus s)).perform w).2.slot j).isDone = _
  rw [Action.slot_perform, if_pos hj, Action.onto_change, if_pos rfl]
  rfl

/-! ## The engine -/

namespace Process

variable {α : Type}

/-- So far the run is orderly, and the engine holds the list `i`. -/
def Holds (i j : Nat) : Assertion :=
  fun t w => Orderly j t ∧ (i = j → Held j t ∧ j < w.slots.size)

theorem stable_holds : Stable Anybody (Holds i j) := by
  intro t w v ho hw
  refine ⟨hw.1, fun hi => ?_⟩
  rw [size_anybody ho]
  exact hw.2 hi

theorem stable_orderly : Stable Anybody fun t _ => Orderly j t :=
  fun _ _ _ _ h => h

theorem Holds.quiet (h : Holds i j t m.before) (hm : m.Is (Action.Quiet i)) :
    Holds i j (t ++ [m]) m.after := by
  refine ⟨h.1.keep (keepsOver_of_quiet hm), fun hi => ?_⟩
  rw [size_after]
  exact ⟨(h.2 hi).1.snoc (not_writes_of_quiet hm), (h.2 hi).2⟩

theorem Holds.revive {w : FrontEnd} (h : Holds i j t w) {s : Status} (hs : s.isOver = false) :
    Holds i j (t ++ [.act (.change i (.setStatus s)) w])
      ((Action.change i (.setStatus s)).perform w).2 := by
  refine ⟨?_, fun hi => ?_⟩
  · by_cases hi : i = j
    · rw [hi]
      exact h.1.revive (h.2 hi).1 ⟨s, w, hs, rfl⟩
    · exact h.1.keep (keepsOver_of_ne (.inr ⟨s, rfl⟩) fun he => hi he.symm)
  · rw [Action.size_perform]
    refine ⟨held_snoc t ?_, (h.2 hi).2⟩
    rw [hi, isDone_setStatus s (h.2 hi).2]
    exact hs

theorem keeps_quiet {p : Process α} (hp : Only (Action.Quiet i) p) :
    Keeps Anybody (Holds i j) p (Orderly j) fun _ => Holds i j :=
  keeps_moves stable_holds (fun _ _ h => h.1) (fun a _ w ha h => h.quiet (m := .act a w) ha)
    (fun r _ w h => h.quiet (m := .report r w) trivial) hp

theorem keepsOver_setDone (w : FrontEnd) :
    (Move.act (.change i (.setStatus .done)) w).KeepsOver j := by
  intro hd
  by_cases hi : i = j
  · refine Action.slot_perform_of (P := fun s => s.isDone = true) hd ?_
    rw [Action.onto_change, if_pos hi]
    rfl
  · exact keepsOver_of_ne (.inr ⟨_, rfl⟩) (fun he => hi he.symm) hd

theorem keeps_conclude :
    Keeps Anybody (Holds i j) (Engine.conclude i) (Orderly j) fun _ t _ => Orderly j t := by
  refine keeps_bind (keeps_quiet only_endList) fun _ => ?_
  refine keeps_perform stable_holds (fun _ _ h => h.1) fun t w hw => ?_
  have ho := hw.1.keep (keepsOver_setDone (i := i) w)
  refine Keeps.now (P := fun t _ => Orderly j t) ?_ ho
  refine keeps_perform stable_orderly (fun _ _ h => h) fun t w hw => ?_
  have hl := hw.keep (keepsOver_of_quiet (i := i) (m := .act (.look i) w) trivial)
  exact (keeps_stay stable_orderly (fun _ _ h => h) fun _ _ h => h).now hl

/-- **While the engine runs a list** it holds it. -/
theorem rides_holds :
    Rides Anybody i (Orderly j) (Holds i j) fun _ t _ => Orderly j t where
  stable := stable_holds
  trace _ _ h := h.1
  act a _ w ha h := by
    rcases ha with ha | ⟨s, hs, rfl⟩
    · exact h.quiet (m := .act a w) ha
    · exact h.revive hs
  report r _ w h := h.quiet (m := .report r w) trivial
  unended _ _ _ _ h := h.1
  conclude := keeps_conclude
  stable_over _ := stable_orderly
  trace_over _ _ _ h := h

theorem keeps_aside {a : Action} {f : a.Answer → Process α} {Q : α → Assertion}
    (ha : ∀ m s, a.onto j m s = s)
    (h : ∀ r, Keeps Anybody (fun t _ => Orderly j t) (f r) (Orderly j) Q) :
    Keeps Anybody (fun t _ => Orderly j t) (perform a >>= f) (Orderly j) Q := by
  refine keeps_perform stable_orderly (fun _ _ h => h) fun t w hw => ?_
  refine (h _).now (hw.keep fun hd => ?_)
  refine Action.slot_perform_of (P := fun s => s.isDone = true) hd ?_
  rw [ha]
  exact hd

/-- **The engine writes the status of a list only while it holds it**, or to mark it done. -/
theorem keeps_drain (watched : Bool) (j : Nat) :
    Keeps Anybody (fun t _ => Orderly j t) (Engine.drain watched) (Orderly j)
      fun _ t _ => Orderly j t := by
  have hend : ∀ x : List (Nat × Outcome) ⊕ Except Failure (List (Nat × Outcome)),
      Keeps Anybody (fun t _ => Orderly j t) (.done x) (Orderly j)
        (Sum.elim (fun _ t _ => Orderly j t) fun _ t _ => Orderly j t) := by
    intro x
    refine keeps_stay stable_orderly (fun _ _ h => h) fun _ _ h => ?_
    cases x with
    | inl outcomes => exact h
    | inr r => exact h
  refine keeps_iterate (I := fun _ t _ => Orderly j t) (fun _ _ h => h) (fun _ _ h => h)
    stable_orderly fun outcomes => ?_
  refine keeps_aside (fun _ _ => rfl) fun next => ?_
  cases next with
  | none => exact hend _
  | some i =>
    refine keeps_aside (fun _ _ => rfl) fun s => ?_
    split
    · exact hend _
    · refine keeps_perform stable_orderly (fun _ _ h => h) fun t w hw => ?_
      have hl : Orderly j (t ++ [.act (.look i) w]) :=
        hw.keep (keepsOver_of_quiet (i := i) (m := .act (.look i) w) trivial)
      split
      · exact (hend _).now hl
      next hd =>
        -- The engine has found the list not over, and holds it from here on.
        have hheld : Holds i j (t ++ [.act (.look i) w]) ((Action.look i).perform w).2 := by
          refine ⟨hl, fun hi => ?_⟩
          have hover : (w.slot j).isDone = false := by
            rw [← hi]
            exact Bool.eq_false_iff.2 hd
          exact ⟨held_snoc t hover, lt_size hover⟩
        refine Keeps.now ?_ hheld
        refine keeps_bind (rides_holds.execute watched) fun r => ?_
        cases r with
        | error e => exact keeps_aside (fun _ _ => rfl) fun _ => hend _
        | ok outcome =>
          refine keeps_aside (fun _ _ => rfl) fun s => ?_
          split
          · exact hend _
          · exact keeps_aside (fun _ _ => rfl) fun _ => hend _

/-- **When a cancelled list stays cancelled.** In a run of the engine beside anybody, no move of the
engine makes a list that is over anything else, exactly if no list that the engine had found not
over is over where it stands before one of its three writes: on entering the first round, at the
stall address, or after the wait there. -/
theorem keepsOver_iff {watched : Bool} {w u : FrontEnd} {t : List Move}
    {q : Process (Except Failure (List (Nat × Outcome)))}
    (h : Goes Anybody (Engine.drain watched) w t q u) (j : Nat) :
    (∀ m ∈ t, m.KeepsOver j) ↔ ¬ Engine.Cancelled watched j w t q u := by
  constructor
  · rintro hk ⟨p, hp, a, m, b, rfl, -, hon, ⟨a', m₀, b', rfl, hd₀, -⟩, hd⟩
    obtain ⟨e, k, he, hact⟩ := hp.revives.bind (resume (Engine.turn watched) .done)
    obtain ⟨s, hs, rfl⟩ := he.eq
    rw [hact] at hon
    have hm := hon.eq_act
    have hsize := (goes_size h).2
    -- The list is one of the slots, for it was not over before.
    have hj := lt_size hd₀
    rw [size_after, hsize m₀ (by simp), ← hsize m (by simp)] at hj
    have hover := hk m (by simp) hd
    rw [hm, isDone_setStatus s hj, hs] at hover
    cases hover
  · intro hc m hm
    have ho : Orderly j t := (keeps_drain watched j Orderly.nil h).1
    rcases ho.mem hm with hk | ⟨a, b, rfl, hheld, s, v, hs, rfl⟩
    · exact hk
    · obtain ⟨r, hto, hon, hact⟩ := goes_cut h
      obtain ⟨k, rfl⟩ := hact _ _ rfl
      obtain ⟨p, hp, he⟩ := revives_drain ⟨w, a, _, hto⟩ ⟨_, k, ⟨rfl, hs⟩, rfl⟩
      rw [he] at hto hon
      exact fun hd => absurd ⟨p, hp, a, _, b, rfl, hto, hon, hheld, hd⟩ hc

/-! ## A list that is moved back -/

/-- A list of one word is queued; the host cancels it while its cursor is looked for. -/
def cancelling : FrontEnd :=
  { Replay.frontEnd {} with
    slots := #[{ (Slot.new 0).init ⟨0x08800000, 0x08800004, 0, none⟩ with wake := ⟨true⟩ }]
    queue := [0]
    host := { onCursor := [[("set_status", .setStatus 0 .cancelled)]] } }

/-- The run of this list, which comes to an end. -/
theorem keepsOver_iff_cancelling : ∃ t a u,
    Goes Anybody (Engine.drain true) cancelling t (.done a) u ∧
      ((∀ m ∈ t, m.KeepsOver 0) ↔ ¬ Engine.Cancelled true 0 cancelling t (.done a) u) := by
  have hrun : ((Engine.drain true).run 60 cancelling).isSome = true := by decide +kernel
  obtain ⟨⟨a, u⟩, hu⟩ := Option.isSome_iff_exists.1 hrun
  obtain ⟨t, ht⟩ := goes_of_run hu
  exact ⟨t, a, u, ht, keepsOver_iff ht 0⟩

/-- **A cancelled list is moved back.** The list has run to its stall address when the engine next
writes its status, and the host's cancellation is lost. -/
theorem cancelled_moved_back :
    (((Engine.drain true).run 60 cancelling).map fun x => (x.2.slot 0).status) =
      some .stallReached ∧
    MayMake Anybody (Engine.drain true) cancelling fun m => ¬ m.KeepsOver 0 := by
  refine ⟨by decide +kernel, .loop ?_⟩
  -- The list is taken from the queue, found not over, and marked as drawing.
  iterate 6 refine .act ?_
  -- It is neither paused nor stalled, and a cursor has to be found for its first word.
  refine .loop ?_
  iterate 2 refine .act ?_
  refine .loop (.act (.report ?_))
  refine .other (.act (a := .change 0 (.setStatus .cancelled)) trivial _) ?_
  -- The word is fetched and does nothing; in the next round the list has stalled.
  refine .act (.loop ?_)
  iterate 2 refine .act ?_
  refine .here fun hk => ?_
  have hover := hk (by decide +kernel)
  revert hover
  decide +kernel

end Process

end DisplayList
