import DisplayList.Proofs.Riding

/-!
# Where the engine writes a status

The engine writes that a list is drawing when it enters the first round of it, that it has reached
its stall address, and that it is drawing again when it is let on. In all three places it does not
ask whether the list is over.

* `Engine.Overwrites`: the three places;
* `Process.Revives`: a process that is about to write such a status; **`revives_round`**,
  **`revives_drain`**: the engine does so in these places only.
-/

namespace DisplayList

variable {i j : Nat}

/-- The action writes a status of the list at position `j` that is not over. -/
def Action.Revives (j : Nat) : Action → Prop
  | change k (.setStatus s) => k = j ∧ s.isOver = false
  | _ => False

theorem Action.Revives.eq {a : Action} (h : a.Revives j) :
    ∃ s : Status, s.isOver = false ∧ a = .change j (.setStatus s) := by
  unfold Action.Revives at h
  split at h
  next _ k s =>
    obtain ⟨rfl, hs⟩ := h
    exact ⟨s, hs, rfl⟩
  next => exact h.elim

theorem Action.CarriesOut.not_revives {a : Action} (h : a.CarriesOut i) : ¬ a.Revives j := by
  intro hr
  obtain ⟨s, hs, rfl⟩ := hr.eq
  rcases h with h | h
  · exact h.2
  · cases h
    cases hs

namespace Engine

open Process

/-- The places in which the engine is about to write a status over that of the list at position `j`,
whether the list is over or not. -/
inductive Overwrites (watched : Bool) (j : Nat) : Process Served → Prop
  /-- It has found the list neither reset nor done, and enters its first round. -/
  | entering (outcomes : List (Nat × Outcome)) : Overwrites watched j (enter watched j outcomes)
  /-- It has found the list at its stall address. -/
  | stalling (outcomes : List (Nat × Outcome)) :
    Overwrites watched j ((atStall j).bind (nextRound watched j outcomes))
  /-- The wait there is over, and the list may go on. -/
  | resuming (outcomes : List (Nat × Outcome)) :
    Overwrites watched j ((letOn j).bind (nextRound watched j outcomes))

end Engine

namespace Process

open Engine

variable {α β : Type} {watched : Bool} {outcomes : List (Nat × Outcome)} {p q : Process α}

/-- The process is about to write such a status. -/
def Revives (j : Nat) (p : Process α) : Prop :=
  ∃ (a : Action) (k : a.Answer → Process α), a.Revives j ∧ p = .act a k

theorem revives_bind {f : α → Process β} (h : Revives j (p.bind f)) :
    Revives j p ∨ ∃ a, p = .done a ∧ Revives j (f a) := by
  obtain ⟨e, k, he, hp⟩ := h
  cases p with
  | done b => exact .inr ⟨b, rfl, e, k, he, hp⟩
  | act a k' =>
    cases hp
    exact .inl ⟨_, k', he, rfl⟩
  | report r p => cases hp
  | loop round s k => cases hp

theorem not_revives_of_only (hp : Only (fun a => ¬ a.Revives j) p) (h : Left p q) :
    ¬ Revives j q := by
  rintro ⟨a, k, ha, rfl⟩
  obtain ⟨w, t, u, hg⟩ := h
  exact (goes_only hp hg).2.1 ha

theorem Revives.bind (h : Revives j p) (f : α → Process β) : Revives j (p.bind f) := by
  obtain ⟨a, k, ha, rfl⟩ := h
  exact ⟨a, _, ha, rfl⟩

theorem not_revives_done (a : α) : ¬ Revives j (.done a) := by
  rintro ⟨_, _, -, h⟩
  cases h

theorem not_revives_loop {γ σ : Type} {r : σ → Process (σ ⊕ γ)} {s : σ} {k : γ → Process α} :
    ¬ Revives j (.loop r s k) := by
  rintro ⟨_, _, -, h⟩
  cases h

theorem not_left_done {a : α} (hq : Revives j q) : ¬ Left (.done a) q := by
  intro h
  rw [left_done h] at hq
  exact not_revives_done a hq

theorem left_past {a : Action} {k : a.Answer → Process α} (ha : ¬ a.Revives j)
    (h : Left (perform a >>= k) q) (hq : Revives j q) : ∃ r, Left (k r) q := by
  rcases left_act h with rfl | h
  · obtain ⟨_, _, hr, he⟩ := hq
    cases he
    exact absurd hr ha
  · exact h

theorem left_write {s : Status} {k : Unit → Process α}
    (h : Left (change i (.setStatus s) >>= k) q) (hq : Revives j q) :
    i = j ∧ q = (change i (.setStatus s) >>= k) ∨ Left (k ()) q := by
  rcases left_act h with rfl | ⟨r, h⟩
  · obtain ⟨_, _, hr, he⟩ := hq
    cases he
    exact .inl ⟨hr.1, rfl⟩
  · exact .inr h

theorem only_leave (r : Except Failure Outcome) :
    Only (fun a => ¬ a.Revives j) (leave i outcomes r) := by
  cases r with
  | error e => exact only_bind (only_perform id) fun _ => only_pure _
  | ok outcome =>
    refine only_bind (only_perform id) fun s => ?_
    split
    · exact only_pure _
    · exact only_bind (only_perform id) fun _ => only_pure _

theorem revives_round {q : Process (Unit ⊕ Except Failure Outcome)}
    (h : Left (Engine.round watched i) q) (hq : Revives j q) :
    i = j ∧ (q = atStall i ∨ q = letOn i) := by
  rw [round_eq] at h
  obtain ⟨s, h⟩ := left_past id h hq
  split at h
  · exact absurd h (not_left_done hq)
  rw [unpaused_eq] at h
  obtain ⟨s, h⟩ := left_past id h hq
  split at h
  · rcases left_write h hq with ⟨rfl, rfl⟩ | h
    · exact ⟨rfl, .inl rfl⟩
    obtain ⟨woken, h⟩ := left_past id h hq
    cases woken with
    | false => exact absurd h (not_left_done hq)
    | true =>
      change Left (waited i true) q at h
      rw [waited_eq] at h
      obtain ⟨s, h⟩ := left_past id h hq
      split at h
      · exact absurd h (not_left_done hq)
      · rcases left_write h hq with ⟨rfl, rfl⟩ | h
        · exact ⟨rfl, .inr rfl⟩
        · exact absurd h (not_left_done hq)
  · have honly : Only (Action.CarriesOut i)
        ((Operation.access i .next).bind (dispatch watched i)) :=
      (only_access (by simp)).carriesOut.bind (only_dispatch_of (only_carriesOut watched))
    exact absurd hq (not_revives_of_only (honly.mono fun _ => Action.CarriesOut.not_revives) h)

theorem revives_serve {q : Process Served} (h : Left (serve watched i outcomes) q)
    (hq : Revives j q) : Overwrites watched j q := by
  have hleave : ∀ {r}, ¬ Left (leave i outcomes r) q := fun hr =>
    not_revives_of_only (only_leave _) hr hq
  have henter : Left (enter watched i outcomes) q → Overwrites watched j q := by
    intro h
    rcases left_write h hq with ⟨rfl, rfl⟩ | h
    · exact .entering outcomes
    rcases left_loop h with rfl | ⟨s, p, rfl, hp⟩ | ⟨r, h⟩
    · exact absurd hq not_revives_loop
    · rcases revives_bind hq with hq | ⟨x, rfl, hq⟩
      · obtain ⟨rfl, rfl | rfl⟩ := revives_round hp hq
        · exact .stalling outcomes
        · exact .resuming outcomes
      · cases x with
        | inl s => exact absurd hq not_revives_loop
        | inr r => exact absurd hq (not_revives_of_only (only_leave r) (left_refl _))
    · exact absurd h hleave
  obtain ⟨s, h⟩ := left_past id h hq
  split at h
  · exact absurd h (not_left_done hq)
  rw [runUnlessDone_eq] at h
  obtain ⟨s, h⟩ := left_past id h hq
  split at h
  · exact absurd h (not_left_done hq)
  obtain ⟨s, h⟩ := left_past id h hq
  unfold enterUnlessReset at h
  split at h
  · exact absurd h hleave
  obtain ⟨s, h⟩ := left_past id h hq
  split at h
  · obtain ⟨-, h⟩ := left_past id h hq
    exact henter h
  · exact henter h

/-- **The places in a run of the engine.** -/
theorem revives_drain {q : Process (Except Failure (List (Nat × Outcome)))}
    (h : Left (Engine.drain watched) q) (hq : Revives j q) :
    ∃ p, Overwrites watched j p ∧ q = p.bind (resume (turn watched) .done) := by
  rw [drain_eq] at h
  rcases left_loop h with rfl | ⟨outcomes, p, rfl, hp⟩ | ⟨r, h⟩
  · exact absurd hq not_revives_loop
  · refine ⟨p, ?_, rfl⟩
    rcases revives_bind hq with hq | ⟨x, rfl, hq⟩
    · obtain ⟨next, h⟩ := left_past id hp hq
      cases next with
      | none => exact absurd h (not_left_done hq)
      | some i => exact revives_serve h hq
    · cases x with
      | inl s => exact absurd hq not_revives_loop
      | inr r => exact absurd hq (not_revives_done _)
  · exact absurd h (not_left_done hq)

end Process

theorem Engine.Overwrites.revives {watched : Bool} {p : Process Engine.Served}
    (h : Engine.Overwrites watched j p) : Process.Revives j p := by
  cases h with
  | entering outcomes => exact ⟨.change j (.setStatus .drawing), _, ⟨rfl, rfl⟩, rfl⟩
  | stalling outcomes => exact ⟨.change j (.setStatus .stallReached), _, ⟨rfl, rfl⟩, rfl⟩
  | resuming outcomes => exact ⟨.change j (.setStatus .drawing), _, ⟨rfl, rfl⟩, rfl⟩

end DisplayList
