import DisplayList.Proofs.Residual

/-!
# Processes alone

A process that runs alone to its end does what its text says, step by step: nobody comes between.

* `Alone`: a run alone to the end, with its moves;
* `alone_act`, `alone_report`, `alone_loop`, **`alone_bind`**: runs alone taken apart;
* **`Keeps.alone`**, `alone_only`: what is kept beside others, and by every action, is kept alone;
* `Gives`: what a process comes to alone; **`Alone.unique`**: it comes to nothing else;
* `trace`: a run alone, carried out.
-/

namespace DisplayList.Process

variable {α β σ : Type} {w u v : FrontEnd} {t : List Move}

/-- Run alone from `w`, the process makes the moves `t` and ends with `r` in `u`. -/
def Alone (p : Process α) (w : FrontEnd) (t : List Move) (r : α) (u : FrontEnd) : Prop :=
  Goes Nobody p w t (.done r) u

variable {r : α}

theorem alone_done {a : α} : Alone (.done a) w t r u ↔ t = [] ∧ r = a ∧ u = w := by
  constructor
  · intro h
    obtain ⟨ht, hr, hu⟩ := goes_done h
    cases hr
    exact ⟨ht, rfl, eq_of_nobody hu⟩
  · rintro ⟨rfl, rfl, rfl⟩
    exact .stay ..

theorem alone_act {a : Action} {k : a.Answer → Process α} : Alone (.act a k) w t r u ↔
    ∃ t', t = .act a w :: t' ∧ Alone (k (a.perform w).1) (a.perform w).2 t' r u := by
  constructor
  · intro h
    cases h with
    | other ho _ => exact ho.elim
    | act h => exact ⟨_, rfl, h⟩
  · rintro ⟨t', rfl, h⟩
    exact .act h

theorem alone_report {m : Report} {k : Process α} : Alone (.report m k) w t r u ↔
    ∃ t', t = .report m w :: t' ∧ Alone k (w.tell m).2 t' r u := by
  constructor
  · intro h
    cases h with
    | other ho _ => exact ho.elim
    | report h => exact ⟨_, rfl, h⟩
  · rintro ⟨t', rfl, h⟩
    exact .report h

theorem alone_loop {round : σ → Process (σ ⊕ β)} {s : σ} {k : β → Process α} :
    Alone (.loop round s k) w t r u ↔ Alone ((round s).bind (resume round k)) w t r u := by
  constructor
  · intro h
    cases h with
    | other ho _ => exact ho.elim
    | loop h => exact h
  · intro h
    exact .loop h

/-- **A sequence run alone.** -/
theorem alone_bind {p : Process β} {f : β → Process α} : Alone (p.bind f) w t r u ↔
    ∃ b v t₁ t₂, t = t₁ ++ t₂ ∧ Alone p w t₁ b v ∧ Alone (f b) v t₂ r u := by
  constructor
  · intro h
    obtain ⟨p', hq, hp⟩ | ⟨b, v, t₁, t₂, ht, h₁, h₂⟩ := goes_bind h
    · cases p' with
      | done b =>
        have hb : Alone (f b) u [] r u := by
          unfold Alone
          rw [hq]
          exact .stay ..
        exact ⟨b, u, t, [], (List.append_nil t).symm, hp, hb⟩
      | act => cases hq
      | report => cases hq
      | loop => cases hq
    · exact ⟨b, v, t₁, t₂, ht, h₁, h₂⟩
  · rintro ⟨b, v, t₁, t₂, rfl, h₁, h₂⟩
    exact (Goes.bind f h₁).trans h₂

theorem Keeps.alone {others : FrontEnd → FrontEnd → Prop} {P : Assertion} {p : Process α}
    {T : List Move → Prop} {Q : α → Assertion} (hk : Keeps others P p T Q) (hw : P [] w)
    (h : Alone p w t r u) : T t ∧ Q r t u := by
  have hg : Goes others p w t (.done r) u := Goes.mono (fun _ _ ho => ho.elim) h
  exact hk.ends hw hg

/-- **What is kept by every action that a process consists of** is kept by a run alone. -/
theorem alone_only {P : FrontEnd → Prop} {allowed : Action → Prop} {p : Process α}
    (ha : ∀ a w, allowed a → P w → P (a.perform w).2) (hr : ∀ r w, P w → P (w.tell r).2)
    (hp : Only allowed p) (hw : P w) (h : Alone p w t r u) : P u := by
  have hstable : Stable Nobody fun _ => P := fun _ _ _ hn _ => hn.elim
  exact ((keeps_only hstable ha hr hp).alone hw h).2

/-! ## What a process comes to -/

/-- Run alone from `w`, the process ends with `r` in `u`. -/
def Gives (p : Process α) (w : FrontEnd) (r : α) (u : FrontEnd) : Prop :=
  ∃ t, Alone p w t r u

theorem gives_done (a : α) (w : FrontEnd) : Gives (.done a) w a w :=
  ⟨[], .stay ..⟩

theorem Gives.act {a : Action} {k : a.Answer → Process α}
    (h : Gives (k (a.perform w).1) (a.perform w).2 r u) : Gives (.act a k) w r u := by
  obtain ⟨t, h⟩ := h
  exact ⟨_, .act h⟩

theorem Gives.perform {a : Action} {f : a.Answer → Process α}
    (h : Gives (f (a.perform w).1) (a.perform w).2 r u) : Gives (perform a >>= f) w r u :=
  .act h

theorem Gives.bind {p : Process β} {f : β → Process α} {b : β} (h : Gives p w b v)
    (h' : Gives (f b) v r u) : Gives (p.bind f) w r u := by
  obtain ⟨t, h⟩ := h
  obtain ⟨t', h'⟩ := h'
  exact ⟨_, alone_bind.2 ⟨b, v, t, t', rfl, h, h'⟩⟩

/-- **Alone, a process comes to one result.** -/
theorem Alone.unique {p : Process α} {t' : List Move} {r' : α} {u' : FrontEnd}
    (h : Alone p w t r u) (h' : Alone p w t' r' u') : r = r' ∧ u = u' := by
  unfold Alone at h
  generalize hq : Process.done r = q at h
  induction h generalizing t' with
  | stay p w =>
    subst hq
    obtain ⟨-, hr, hu⟩ := alone_done.1 h'
    exact ⟨hr.symm, hu.symm⟩
  | other ho _ _ => exact ho.elim
  | act _ ih =>
    obtain ⟨t, -, h'⟩ := alone_act.1 h'
    exact ih h' hq
  | report _ ih =>
    obtain ⟨t, -, h'⟩ := alone_report.1 h'
    exact ih h' hq
  | loop _ ih => exact ih (alone_loop.1 h') hq

/-! ## Runs carried out -/

/-- A run alone of at most so many steps: its moves, and what it comes to. -/
def trace : Nat → Process α → FrontEnd → Option (List Move × α × FrontEnd)
  | 0, _, _ => none
  | _ + 1, .done a, w => some ([], a, w)
  | n + 1, .act a k, w =>
    (trace n (k (a.perform w).1) (a.perform w).2).map fun x => (.act a w :: x.1, x.2)
  | n + 1, .report m k, w => (trace n k (w.tell m).2).map fun x => (.report m w :: x.1, x.2)
  | n + 1, .loop round s k, w => trace n ((round s).bind (resume round k)) w

theorem alone_of_trace {n : Nat} {p : Process α} (h : p.trace n w = some (t, r, u)) :
    Alone p w t r u := by
  induction n generalizing p w t with
  | zero => cases h
  | succ n ih =>
    cases p with
    | done a =>
      cases h
      exact alone_done.2 ⟨rfl, rfl, rfl⟩
    | act a k =>
      obtain ⟨⟨t', r', u'⟩, hx, he⟩ := Option.map_eq_some_iff.1 h
      cases he
      exact alone_act.2 ⟨t', rfl, ih hx⟩
    | report m k =>
      obtain ⟨⟨t', r', u'⟩, hx, he⟩ := Option.map_eq_some_iff.1 h
      cases he
      exact alone_report.2 ⟨t', rfl, ih hx⟩
    | loop round s k => exact alone_loop.2 (ih h)

end DisplayList.Process
