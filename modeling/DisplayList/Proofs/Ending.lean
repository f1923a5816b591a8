import DisplayList.Proofs.Amid
import DisplayList.Proofs.Rounds
import DisplayList.Replay

/-!
# What is reported at an END word

At an END word the engine looks whether the list has finished, marks it ended or not, gives back its
slot, and only then looks at the mark that it reports. Once the slot is given back it may be taken
for a new list, and a new list is not marked.

* `Move.Submits`, `Move.Finishes`, `Move.Resets`: what the mark depends on;
  **`History.finished_iff`**, `History.ended_iff`;
* `Concludes`: the moves of everybody from the first look to the report; `tells_conclude`;
* `Reported`, **`tells_drain`**: every end that a run reports comes from such moves;
* **`reported_iff`**: a list is reported as finished exactly if it was marked finished since it was
  submitted, and its slot was not taken for a new list between the mark and the report;
  **`overtaken_unfinished`**: it may be.
-/

namespace DisplayList

open Process

/-! ## The flags of a list -/

namespace Move

/-- A change of the list at position `i`, as `P` says. -/
def Makes (i : Nat) (P : Change → Prop) : Move → Prop
  | .act (.change j c) w => (j = i ∧ i < w.slots.size) ∧ P c
  | _ => False

/-- A list is submitted to the slot at position `i`. -/
def Submits (i : Nat) : Move → Prop :=
  Makes i fun c => ∃ sub, c = .init sub

/-- The list at position `i` is marked finished, as its FINISH word does. -/
def Finishes (i : Nat) : Move → Prop :=
  Makes i fun c => c = .setFinished

/-- The list at position `i` is reset. -/
def Resets (i : Nat) : Move → Prop :=
  Makes i fun c => c = .reset

/-- The list at position `i` is marked ended, or not ended. -/
def MarksEnded (i : Nat) : Move → Prop :=
  Makes i fun c => ∃ b, c = .setEnded b

variable {m : Move} {i : Nat}

theorem flags_cases (m : Move) (i : Nat) :
    (∃ c, (∀ P, m.Makes i P ↔ P c) ∧
      (m.after.slot i).flags = c.flags (m.before.slot i).flags) ∨
    ((∀ P, ¬ m.Makes i P) ∧ (m.after.slot i).flags = (m.before.slot i).flags) := by
  rw [flags_after]
  cases m with
  | report r w => exact .inr ⟨fun P h => h, rfl⟩
  | act a w =>
    cases a with
    | change j c =>
      by_cases hj : j = i ∧ i < w.slots.size
      · exact .inl ⟨c, fun P => and_iff_right hj, if_pos hj⟩
      · exact .inr ⟨fun P h => hj h.1, if_neg hj⟩
    | _ => exact .inr ⟨fun P h => h, rfl⟩

theorem finished_after (hr : ¬ m.Resets i) : (m.after.slot i).flags.finished = true ↔
    m.Finishes i ∨ ((m.before.slot i).flags.finished = true ∧ ¬ m.Submits i) := by
  unfold Resets at hr
  unfold Finishes Submits
  rcases m.flags_cases i with ⟨c, hc, hf⟩ | ⟨hno, hf⟩
  · rw [hf, hc, hc]
    rw [hc] at hr
    cases c with
    | reset => exact absurd rfl hr
    | _ => simp [Change.flags, Flags.fresh]
  · simp [hf, hno]

theorem ended_after (hr : ¬ m.Resets i) (hm : ¬ m.MarksEnded i) :
    (m.after.slot i).flags.ended = true ↔
      (m.before.slot i).flags.ended = true ∧ ¬ m.Submits i := by
  unfold Resets at hr
  unfold MarksEnded at hm
  unfold Submits
  rcases m.flags_cases i with ⟨c, hc, hf⟩ | ⟨hno, hf⟩
  · rw [hf, hc]
    rw [hc] at hr hm
    cases c with
    | reset => exact absurd rfl hr
    | setEnded b => exact absurd ⟨b, rfl⟩ hm
    | _ => simp [Change.flags, Flags.fresh]
  · simp [hf, hno]

theorem Submits.finished (h : m.Submits i) : (m.after.slot i).flags.finished = false := by
  rcases m.flags_cases i with ⟨c, hc, hf⟩ | ⟨hno, -⟩
  · obtain ⟨sub, rfl⟩ := (hc _).1 h
    rw [hf]
    rfl
  · exact absurd h (hno _)

end Move

namespace History

variable {w u : FrontEnd} {t a c : List Move} {s : Move} {i : Nat}

theorem size (h : History w t u) : u.slots.size = w.slots.size := by
  induction h with
  | nil => rfl
  | snoc _ ih => exact (size_after _).trans ih

/-- **Since it was submitted**, a list has finished exactly if it was marked so. -/
theorem finished_iff (h : History w (a ++ s :: c) u) (hs : s.Submits i)
    (hc : ∀ m ∈ c, ¬ m.Submits i ∧ ¬ m.Resets i) :
    (u.slot i).flags.finished = true ↔ ∃ m ∈ c, m.Finishes i := by
  induction c using List.reverseRecOn generalizing u with
  | nil =>
    obtain ⟨-, rfl⟩ := h.last
    simp [hs.finished]
  | append_singleton c m ih =>
    rw [← List.cons_append, ← List.append_assoc] at h
    obtain ⟨hbefore, rfl⟩ := h.last
    obtain ⟨hsubmits, hresets⟩ := hc m (by simp)
    rw [Move.finished_after hresets, ih hbefore fun x hx => hc x (by simp [hx])]
    simp [hsubmits, or_and_right, exists_or, or_comm]

/-- **Since it was marked ended**, a list stays so until its slot is taken for a new list. -/
theorem ended_iff (h : History w (a ++ s :: c) u)
    (hc : ∀ m ∈ c, ¬ m.Resets i ∧ ¬ m.MarksEnded i) : (u.slot i).flags.ended = true ↔
      (s.after.slot i).flags.ended = true ∧ ∀ m ∈ c, ¬ m.Submits i := by
  induction c using List.reverseRecOn generalizing u with
  | nil =>
    obtain ⟨-, rfl⟩ := h.last
    simp
  | append_singleton c m ih =>
    rw [← List.cons_append, ← List.append_assoc] at h
    obtain ⟨hbefore, rfl⟩ := h.last
    obtain ⟨hresets, hmarks⟩ := hc m (by simp)
    rw [Move.ended_after hresets hmarks, ih hbefore fun x hx => hc x (by simp [hx]), and_assoc]
    simp [or_imp, forall_and]

end History

/-! ## An END word -/

/-- An action that marks no list finished or ended, and resets none. -/
def Action.Abstains : Action → Prop
  | .change _ .setFinished | .change _ (.setEnded _) | .change _ .reset => False
  | _ => True

theorem Move.Is.abstains {m : Move} (h : m.Is Action.Abstains) (i : Nat) :
    ¬ m.Resets i ∧ ¬ m.MarksEnded i := by
  cases m with
  | report r w => exact ⟨fun h => h, fun h => h⟩
  | act a w =>
    cases a with
    | change j c =>
      constructor
      · rintro ⟨-, rfl⟩
        exact h
      · rintro ⟨-, b, rfl⟩
        exact h
    | _ => exact ⟨fun h => h, fun h => h⟩

/-- The moves of everybody while the engine concludes the list at position `i` and reports `b`: up
to the mark, and from the mark to the report. The others mark nothing. -/
inductive Concludes (i : Nat) : List Move → List Move → Bool → Prop
  | intro (w₁ w₂ w₃ w₄ : FrontEnd) {c d e : List Move} (hc : All (Move.Is Action.Abstains) c)
    (hd : All (Move.Is Action.Abstains) d) (he : All (Move.Is Action.Abstains) e) :
    Concludes i
      (.act (.look i) w₁ :: (c ++ [.act (.change i (.setEnded (w₁.slot i).flags.finished)) w₂]))
      (d ++ .act (.change i (.setStatus .done)) w₃ :: (e ++ [.act (.look i) w₄]))
      (w₄.slot i).flags.ended

/-- Some time in the course of the moves `t`, `b` is reported of the list at position `i`. -/
def Reported (i : Nat) (b : Bool) (t : List Move) : Prop :=
  ∃ a m d f, t = a ++ (m ++ (d ++ f)) ∧ Concludes i m d b

theorem Reported.append {i : Nat} {b : Bool} {t : List Move} (h : Reported i b t) (t' : List Move) :
    Reported i b (t ++ t') := by
  obtain ⟨a, m, d, f, rfl, hm⟩ := h
  exact ⟨a, m, d, f ++ t', by simp, hm⟩

theorem amid_conclude {i : Nat} {w u : FrontEnd} {t : List Move} {o : Outcome}
    (h : Amid Action.Abstains (Engine.conclude i) w t o u) :
    ∃ b, o = .ended b ∧ Reported i b t := by
  change Amid _ (.act (.look i) fun s => .act (.change i (.setEnded s.flags.finished)) fun _ =>
    .act (.change i (.setStatus .done)) fun _ => .act (.look i) fun s =>
      .done (.ended s.flags.ended)) w t o u at h
  obtain ⟨a, w₁, t, rfl, -, h⟩ := amid_act h
  obtain ⟨c, w₂, t, rfl, hc, h⟩ := amid_act h
  obtain ⟨d, w₃, t, rfl, hd, h⟩ := amid_act h
  obtain ⟨e, w₄, t, rfl, he, h⟩ := amid_act h
  obtain ⟨rfl, -⟩ := amid_done h
  refine ⟨_, rfl, a, _, _, t, ?_, .intro w₁ w₂ w₃ w₄ hc hd he⟩
  simp [Action.perform]

/-! ## The engine -/

namespace Process

variable {i : Nat}

/-- What the engine says of a list, if anything, was reported. -/
def Said (i : Nat) (r : Except Failure (Option Outcome)) (t : List Move) : Prop :=
  ∀ b, r = .ok (some (.ended b)) → Reported i b t

theorem tells_none {β : Type} {p : Process β} {g : β → Except Failure (Option Outcome)}
    (hg : ∀ y b, g y ≠ .ok (some (.ended b))) : Tells Action.Abstains (fun _ => True)
      (p >>= fun y => .done (g y)) (Said i) :=
  tells_skip fun y => tells_done fun _ _ _ b h => absurd h (hg y b)

theorem tells_transfer (t : Transfer) (target : UInt32) :
    Tells Action.Abstains (fun _ => True) (Engine.transfer i t target) (Said i) := by
  cases t with
  | jump mode => exact tells_none (by simp)
  | call mode =>
    refine tells_none fun r b => ?_
    cases r <;> simp [Except.map]
  | ret => exact tells_none (by simp)
  | pause => exact tells_none (by simp)

theorem tells_conclude : Tells Action.Abstains (fun _ => True)
    (Engine.conclude i >>= fun o => .done (.ok (some o))) (Said i) := by
  have hend : Tells Action.Abstains (fun _ => True) (Engine.conclude i)
      fun o t => ∀ b, o = .ended b → Reported i b t := by
    intro t₀ w t o u _ h b hb
    obtain ⟨b', rfl, a, m, d, f, rfl, hm⟩ := amid_conclude h
    cases hb
    exact ⟨t₀ ++ a, m, d, f, by simp, hm⟩
  refine tells_bind hend fun o => tells_done fun t t' ho b hb => ?_
  cases hb
  exact (ho b rfl).append t'

theorem tells_stop (arg : UInt32) :
    Tells Action.Abstains (fun _ => True) (Engine.stop i arg) (Said i) := by
  refine tells_skip fun r => ?_
  split
  · exact tells_conclude
  · exact tells_done fun _ _ _ b h => by cases h
  · split
    · split
      · exact tells_transfer ..
      · exact tells_conclude
    · exact tells_conclude

theorem tells_step (watched : Bool) (c : Command) :
    Tells Action.Abstains (fun _ => True) (Engine.step watched i c) (Said i) := by
  have hnone : Tells Action.Abstains (fun _ => True) (.done (.ok none)) (Said i) :=
    tells_done fun _ _ _ b h => by cases h
  have hjump : ∀ arg (visible : Bool), Tells Action.Abstains (fun _ => True)
      (if visible then .done (.ok none) else Operation.jump i .relativeOffset arg >>= fun _ =>
        .done (.ok none)) (Said i) := fun arg visible => by
    split
    · exact hnone
    · exact tells_none (by simp)
  cases c with
  | nop => exact hnone
  | jump arg => exact tells_none (by simp)
  | branchHidden arg =>
    dsimp only [Engine.step]
    split
    · exact tells_skip (hjump arg)
    · exact hjump arg true
  | call arg =>
    refine tells_none fun r b => ?_
    cases r <;> simp [Except.map]
  | ret => exact tells_none (by simp)
  | stop arg => exact tells_stop arg
  | signal behavior signal =>
    dsimp only [Engine.step]
    split
    · exact tells_skip fun _ => tells_none (by simp)
    · exact hnone
  | finish arg => exact tells_skip fun _ => tells_skip fun _ => tells_none (by simp)
  | base arg => exact tells_skip fun _ => tells_none (by simp)
  | offset arg => exact tells_skip fun _ => tells_none (by simp)
  | origin => exact tells_skip fun _ => tells_skip fun _ => tells_none (by simp)
  | draw word =>
    refine tells_skip fun _ => ?_
    split
    · exact tells_none (by simp)
    · exact hnone

/-- What a round says at the end of a run was reported. -/
def RunSaid (i : Nat) (r : Except Failure Outcome) (t : List Move) : Prop :=
  ∀ b, r = .ok (.ended b) → Reported i b t

/-- A round that is not the last one says nothing. -/
def RoundSaid (i : Nat) : Unit ⊕ Except Failure Outcome → List Move → Prop :=
  Sum.elim (fun _ _ => True) (RunSaid i)

theorem tells_round (watched : Bool) :
    Tells Action.Abstains (fun _ => True) (Engine.round watched i) (RoundSaid i) := by
  have hquiet : ∀ o : Outcome, o.isEnded = false →
      Tells Action.Abstains (fun _ => True) (.done (.inr (.ok o))) (RoundSaid i) := by
    intro o ho
    refine tells_done fun _ _ _ b h => ?_
    cases h
    cases ho
  have hnext : Tells Action.Abstains (fun _ => True) (.done (.inl ())) (RoundSaid i) :=
    tells_done fun _ _ _ => trivial
  refine tells_skip fun _ => ?_
  split
  · exact hquiet .paused rfl
  refine tells_skip fun _ => ?_
  split
  · refine tells_skip fun _ => tells_skip fun woken => ?_
    split
    · refine tells_skip fun _ => ?_
      split
      · exact hnext
      · exact tells_skip fun _ => hnext
    · exact hquiet .stalled rfl
  · refine tells_skip fun r => ?_
    cases r with
    | error e => exact tells_done fun _ _ _ b h => by cases h
    | ok word =>
      refine tells_bind (tells_step watched _) fun r => ?_
      split
      · exact tells_done fun _ _ _ b h => by cases h
      · exact tells_done fun _ _ _ => trivial
      next o =>
        refine tells_done fun t t' hr b hb => ?_
        cases hb
        exact (hr b rfl).append t'

theorem tells_execute (watched : Bool) : Tells Action.Abstains (fun _ => True)
    (Engine.execute watched i) (RunSaid i) := by
  have hrun : Tells Action.Abstains (fun _ => True)
      (change i (.setStatus .drawing) >>= fun _ => iterate () fun _ => Engine.round watched i)
      (RunSaid i) :=
    tells_skip fun _ => tells_iterate (fun _ _ _ => trivial) fun _ => tells_round watched
  refine tells_skip fun _ => ?_
  split
  · exact tells_done fun _ _ _ b h => by cases h
  refine tells_skip fun _ => ?_
  split
  · exact tells_skip fun _ => hrun
  · exact hrun

end Process

/-! ## Runs of the queue -/

/-- An outcome in the answer of a run, if it is the end of a list, was reported of a list with
this id. -/
def Accounted (t : List Move) (x : Nat × Outcome) : Prop :=
  ∀ b, x.2 = .ended b →
    ∃ i w, x.1 = (w.slot i).id ∧ Move.act (.look i) w ∈ t ∧ Reported i b t

theorem Accounted.append {t : List Move} {x : Nat × Outcome} (h : Accounted t x)
    (t' : List Move) : Accounted (t ++ t') x := by
  intro b hb
  obtain ⟨i, w, hid, hw, hr⟩ := h b hb
  exact ⟨i, w, hid, List.mem_append_left _ hw, hr.append t'⟩

/-- All outcomes so far are accounted for. -/
def AllAccounted (outcomes : List (Nat × Outcome)) (t : List Move) : Prop :=
  ∀ x ∈ outcomes, Accounted t x

theorem lasting_allAccounted (outcomes : List (Nat × Outcome)) :
    Lasting (AllAccounted outcomes) :=
  fun _ t' h x hx => (h x hx).append t'

/-- What a round of the queue comes to is accounted for. -/
def ServedAccounted : Engine.Served → List Move → Prop :=
  Sum.elim AllAccounted fun r t => ∀ outcomes, r = .ok outcomes → AllAccounted outcomes t

namespace Process

variable {outcomes : List (Nat × Outcome)}

theorem tells_dropped : Tells Action.Abstains (AllAccounted outcomes) (.done (.inl outcomes))
    ServedAccounted :=
  tells_done (lasting_allAccounted outcomes)

theorem tells_answered : Tells Action.Abstains (AllAccounted outcomes)
    (.done (.inr (.ok outcomes))) ServedAccounted := by
  refine tells_done fun t t' h os ho => ?_
  cases ho
  exact lasting_allAccounted outcomes t t' h

theorem tells_leave (i : Nat) (r : Except Failure Outcome) :
    Tells Action.Abstains (fun t => AllAccounted outcomes t ∧ RunSaid i r t)
      (Engine.leave i outcomes r) ServedAccounted := by
  cases r with
  | error e => exact tells_skip fun _ => tells_done fun _ _ _ os h => by cases h
  | ok o =>
    refine tells_perform fun t b v ht => ?_
    have hall : ∀ t', t' = t ++ (b ++ [.act (.look i) v]) →
        AllAccounted (outcomes ++ [((v.slot i).id, o)]) t' := by
      rintro _ rfl x hx
      rcases List.mem_append.1 hx with hx | hx
      · exact (ht.1 x hx).append _
      · cases List.mem_singleton.1 hx
        rintro b' rfl
        exact ⟨i, v, rfl, by simp, (ht.2 b' rfl).append _⟩
    refine Tells.pre ?_ hall
    split
    · exact tells_dropped
    · exact tells_past (lasting_allAccounted _) fun _ => tells_answered

theorem tells_turn (watched : Bool) : Tells Action.Abstains (AllAccounted outcomes)
    (Engine.turn watched outcomes) ServedAccounted := by
  refine tells_past (lasting_allAccounted outcomes) fun next => ?_
  cases next with
  | none => exact tells_answered
  | some i =>
    refine tells_past (lasting_allAccounted outcomes) fun _ => ?_
    split
    · exact tells_dropped
    refine tells_past (lasting_allAccounted outcomes) fun _ => ?_
    split
    · exact tells_dropped
    · have hrun := (tells_execute (i := i) watched).frame (lasting_allAccounted outcomes)
      exact tells_bind hrun (tells_leave i)

/-- **Every end that a run of the queue answers with** was reported, whatever the others did. -/
theorem tells_drain (watched : Bool) : Tells Action.Abstains (fun _ => True) (Engine.drain watched)
    fun r t => ∀ outcomes, r = .ok outcomes → AllAccounted outcomes t := by
  rw [Engine.drain_eq]
  refine tells_iterate (I := AllAccounted) (fun _ _ _ x hx => by cases hx) fun outcomes => ?_
  exact tells_turn watched

end Process

/-! ## What the report says -/

section Report

variable {w v u : FrontEnd} {t₀ t m d f a c : List Move} {s : Move} {i : Nat} {b : Bool}

theorem Move.Submits.lt_size (h : s.Submits i) : i < s.before.slots.size := by
  cases s with
  | report r w => exact h.elim
  | act a w =>
    cases a with
    | change j c => exact h.1.2
    | _ => exact h.elim

/-- **The report about a list** that was submitted by `s`. -/
theorem Concludes.iff (h : Concludes i m d b) (hw : History w (a ++ s :: c ++ (m ++ (d ++ f))) u)
    (hs : s.Submits i) (hc : ∀ x ∈ c, ¬ x.Submits i ∧ ¬ x.Resets i) :
    b = true ↔ (∃ x ∈ c, x.Finishes i) ∧ ∀ x ∈ d, ¬ x.Submits i := by
  cases h with
  | @intro w₁ w₂ w₃ w₄ c' d' e hc' hd he =>
    have hlook : History w (a ++ s :: c) w₁ := hw.before (m := .act (.look i) w₁) _ rfl
    have hmark : History w (a ++ s :: c ++ .act (.look i) w₁ :: c') w₂ :=
      hw.before (m := .act (.change i (.setEnded (w₁.slot i).flags.finished)) w₂)
        (d' ++ .act (.change i (.setStatus .done)) w₃ :: (e ++ .act (.look i) w₄ :: f)) (by simp)
    have hreport : History w (a ++ s :: c ++ .act (.look i) w₁ :: c' ++
        .act (.change i (.setEnded (w₁.slot i).flags.finished)) w₂ ::
          (d' ++ .act (.change i (.setStatus .done)) w₃ :: e)) w₄ :=
      hw.before (m := .act (.look i) w₄) f (by simp)
    have hsize : i < w₂.slots.size := by
      have hsub : History w a s.before := hlook.before _ rfl
      rw [hmark.size, ← hsub.size]
      exact hs.lt_size
    have habstain : All (Move.Is Action.Abstains)
        (d' ++ .act (.change i (.setStatus .done)) w₃ :: e) :=
      all_append.2 ⟨hd, all_cons.2 ⟨trivial, he⟩⟩
    -- The mark says what was seen before it, whatever has happened to the list meanwhile.
    have hset : ((Move.act (.change i (.setEnded (w₁.slot i).flags.finished)) w₂).after.slot
        i).flags.ended = (w₁.slot i).flags.finished := by
      rw [Move.flags_after]
      simp [Move.flags, hsize, Change.flags]
    rw [hreport.ended_iff fun x hx => (habstain x hx).abstains i, hset, hlook.finished_iff hs hc]
    simp [Move.Submits, Move.Makes, or_imp, forall_and]

/-- **Whose end is reported.** Whatever the others do while the queue is run, unless they mark or
reset a list: a list is reported as finished if and only if it was marked finished since it was
submitted, and nobody has submitted a new list to its slot after the engine has marked it ended. -/
theorem reported_iff {watched : Bool} {outcomes : List (Nat × Outcome)} {id : Nat}
    (hw : History w t₀ v)
    (h : Amid Action.Abstains (Request.run watched).serve v t (.outcomes outcomes) u)
    (hx : (id, .ended b) ∈ outcomes) :
    ∃ i, (∃ x : FrontEnd, id = (x.slot i).id) ∧
      ∃ a m d f, t = a ++ (m ++ (d ++ f)) ∧ Concludes i m d b ∧
        ∀ a' s c, t₀ ++ a = a' ++ s :: c → s.Submits i →
          (∀ x ∈ c, ¬ x.Submits i ∧ ¬ x.Resets i) →
          (b = true ↔ (∃ x ∈ c, x.Finishes i) ∧ ∀ x ∈ d, ¬ x.Submits i) := by
  obtain ⟨r, v', t₁, t₂, rfl, h₁, h₂⟩ := amid_bind h
  obtain ⟨hr, -⟩ := amid_done h₂
  cases r with
  | error e => cases hr
  | ok os =>
    cases hr
    have hall : AllAccounted outcomes t₁ := (tells_drain watched).ends h₁ outcomes rfl
    obtain ⟨i, x, hid, -, a, m, d, f, rfl, hm⟩ := hall _ hx b rfl
    refine ⟨i, ⟨x, hid⟩, a, m, d, f ++ t₂, by simp, hm, fun a' s c heq hs hc => ?_⟩
    have hwhole : History w (a' ++ s :: c ++ (m ++ (d ++ (f ++ t₂)))) u := by
      rw [← heq]
      simpa using hw.trans h.history
    exact hm.iff hwhole hs hc

end Report

/-! ## A report that is overtaken -/

instance (a : Action) : Decidable a.Abstains := by
  unfold Action.Abstains
  split <;> infer_instance

instance (m : Move) : Decidable (m.Is Action.Abstains) :=
  match m with
  | .act a _ => inferInstanceAs (Decidable a.Abstains)
  | .report .. => isTrue trivial

/-- Whether a run answers with these outcomes. -/
def Reply.lists (os : List (Nat × Outcome)) : Reply → Bool
  | .outcomes os' => os' == os
  | _ => false

theorem Reply.eq_of_lists {os : List (Nat × Outcome)} {r : Reply} (h : r.lists os = true) :
    r = .outcomes os := by
  cases r with
  | outcomes os' => exact congrArg Reply.outcomes (eq_of_beq h)
  | _ => cases h

/-- A list of a FINISH word and an END word, not stalled. -/
def shortList : Request :=
  .submit ⟨0x08800000, 0, 0, none⟩ .tail

/-- The list has been written and submitted. -/
def shortListWaits : FrontEnd :=
  ((Request.serveAll [("write", .write 0x08800000 [0x0F000000, 0x0C000000]),
    ("submit", shortList)]).steps 100 (Replay.frontEnd {})).2.2

/-- While the list is run it is submitted again, after so many moves of the engine: the moves of the
second submission, and what the run comes to. -/
def overtaken (n : Nat) : Option (List Move × Reply) :=
  let x := (Request.run true).serve.steps n shortListWaits
  (shortList.serve.trace 100 x.2.2).bind fun y =>
    (x.2.1.trace 100 y.2.2).map fun z => (y.1, z.2.1)

theorem amid_of_overtaken {n : Nat} {t : List Move} {r : Reply} (h : overtaken n = some (t, r))
    (ht : All (Move.Is Action.Abstains) t) :
    ∃ t u, Amid Action.Abstains (Request.run true).serve shortListWaits t r u := by
  obtain ⟨⟨t₂, reply, v₂⟩, h₂, h⟩ := Option.bind_eq_some_iff.1 h
  obtain ⟨⟨t₃, r₃, u⟩, h₃, h⟩ := Option.map_eq_some_iff.1 h
  cases h
  have hrest : Amid Action.Abstains _ v₂ t₃ r₃ u := .of_alone (alone_of_trace h₃)
  exact ⟨_, u, Amid.of_goes (goes_steps n _ _) (.wait (alone_of_trace h₂).history ht hrest)⟩

/-- **A list that has finished is reported as not finished**, if it is submitted again once its slot
has been given back and before the engine looks at the mark; left alone, the engine reports it as
finished. -/
theorem overtaken_unfinished :
    (∃ t u, Amid Action.Abstains (Request.run true).serve shortListWaits t
      (.outcomes [(0, .ended true)]) u) ∧
    ∃ t u, Amid Action.Abstains (Request.run true).serve shortListWaits t
      (.outcomes [(0, .ended false), (0, .ended true)]) u := by
  constructor
  · have hrun : ((Request.run true).serve.trace 100 shortListWaits).any fun x =>
        x.2.1.lists [(0, .ended true)] := by decide +kernel
    obtain ⟨⟨t, r, u⟩, ht, hr⟩ := (Option.any_eq_true _ _).1 hrun
    cases Reply.eq_of_lists hr
    exact ⟨t, u, .of_alone (alone_of_trace ht)⟩
  · have hrun : (overtaken 30).any fun x =>
        x.2.lists [(0, .ended false), (0, .ended true)] &&
          decide (∀ m ∈ x.1, m.Is Action.Abstains) := by decide +kernel
    obtain ⟨⟨t, r⟩, ht, hr⟩ := (Option.any_eq_true _ _).1 hrun
    obtain ⟨hlists, hmoves⟩ := Bool.and_eq_true_iff.1 hr
    have habstain : ∀ m ∈ t, m.Is Action.Abstains := of_decide_eq_true hmoves
    cases Reply.eq_of_lists hlists
    exact amid_of_overtaken ht habstain

end DisplayList
