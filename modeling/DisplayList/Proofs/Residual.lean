import DisplayList.Proofs.Rely

/-!
# What may be left of a process

A process under way is what is left of it. `Left p q` says that `q` may be left of `p`, whatever the
answers were; what is left of a sequence or of a loop is found from the parts.

* **`left_bind`**, **`left_loop`**: what may be left of a sequence and of a loop;
* `Leads`: a process without loops, all of whose results are of some kind; `Keeps.leads`,
  `Leads.left`, **`Leads.ends`**: this is known of it beside others, too, so is what is left of it,
  and left alone it comes to such a result.
-/

namespace DisplayList.Process

variable {α β σ : Type} {p q : Process α} {w u v : FrontEnd} {t : List Move}

/-- `q` may be left of `p`. -/
def Left (p q : Process α) : Prop :=
  ∃ w t u, Goes Anybody p w t q u

theorem left_refl (p : Process α) : Left p p :=
  ⟨{ slots := #[], poolSize := 0 }, [], _, .stay ..⟩

theorem left_done {a : α} (h : Left (.done a) q) : q = .done a := by
  obtain ⟨w, t, u, h⟩ := h
  exact (goes_done h).2.1

theorem left_act {a : Action} {k : a.Answer → Process α} (h : Left (.act a k) q) :
    q = .act a k ∨ ∃ r, Left (k r) q := by
  obtain ⟨w, t, u, h⟩ := h
  generalize hp : Process.act a k = p at h
  induction h with
  | stay => exact .inl rfl
  | other _ _ ih => exact ih hp
  | act h _ =>
    cases hp
    exact .inr ⟨_, _, _, _, h⟩
  | report => cases hp
  | loop => cases hp

theorem left_report {r : Report} {k : Process α} (h : Left (.report r k) q) :
    q = .report r k ∨ Left k q := by
  obtain ⟨w, t, u, h⟩ := h
  generalize hp : Process.report r k = p at h
  induction h with
  | stay => exact .inl rfl
  | other _ _ ih => exact ih hp
  | report h _ =>
    cases hp
    exact .inr ⟨_, _, _, h⟩
  | act => cases hp
  | loop => cases hp

/-- **What may be left of a sequence.** -/
theorem left_bind {f : α → Process β} {q : Process β} (h : Left (p.bind f) q) :
    (∃ p', q = p'.bind f ∧ Left p p') ∨ ∃ a, Left p (.done a) ∧ Left (f a) q := by
  obtain ⟨w, t, u, h⟩ := h
  obtain ⟨p', rfl, hp⟩ | ⟨a, v, t₁, t₂, -, h₁, h₂⟩ := goes_bind h
  · exact .inl ⟨p', rfl, w, t, u, hp⟩
  · exact .inr ⟨a, ⟨w, t₁, v, h₁⟩, v, t₂, u, h₂⟩

theorem left_inLoop {round : σ → Process (σ ⊕ β)} {k : β → Process α} {p : Process (σ ⊕ β)}
    (h : InLoop Anybody round k p w t q u) :
    (∃ p', q = p'.bind (resume round k) ∧ Left p p') ∨
      (∃ s p', q = p'.bind (resume round k) ∧ Left (round s) p') ∨ ∃ b, Left (k b) q := by
  induction h with
  | inside h => exact .inl ⟨_, rfl, _, _, _, h⟩
  | past _ h => exact .inr (.inr ⟨_, _, _, _, h⟩)
  | @next p s w v u t t' q _ _ ih =>
    rcases ih with ⟨p', hq, hp⟩ | h
    · exact .inr (.inl ⟨s, p', hq, hp⟩)
    · exact .inr h

/-- **What may be left of a loop**: all of it, part of a round and the loop after it, or part of
what comes after the loop. -/
theorem left_loop {round : σ → Process (σ ⊕ β)} {s : σ} {k : β → Process α}
    (h : Left (.loop round s k) q) :
    q = .loop round s k ∨ (∃ s p', q = p'.bind (resume round k) ∧ Left (round s) p') ∨
      ∃ b, Left (k b) q := by
  obtain ⟨w, t, u, h⟩ := h
  have hin : InLoop Anybody round k (.done (.inl s)) w t q u := goes_loop h
  rcases left_inLoop hin with ⟨p', hq, hp⟩ | h
  · rw [left_done hp] at hq
    exact .inl hq
  · exact .inr h

/-! ## Processes without loops -/

/-- The process has no loops, and all its results are as `S` says. -/
def Leads : {α : Type} → (S : α → Prop) → Process α → Prop
  | _, S, .done a => S a
  | _, S, .act _ k => ∀ r, Leads S (k r)
  | _, S, .report _ k => Leads S k
  | _, _, .loop .. => False

variable {S : α → Prop}

theorem Leads.goes {others : FrontEnd → FrontEnd → Prop} (h : Leads S p)
    (hg : Goes others p w t q u) : Leads S q := by
  induction hg with
  | stay => exact h
  | other _ _ ih => exact ih h
  | act _ ih => exact ih (h _)
  | report _ ih => exact ih h
  | loop => exact h.elim

theorem Leads.mono {S' : α → Prop} (h : Leads S p) (hle : ∀ a, S a → S' a) : Leads S' p := by
  induction p with
  | done a => exact hle a h
  | act a k ih => exact fun r => ih r (h r) hle
  | report r k ih => exact ih h hle
  | loop => exact h.elim

theorem Leads.keeps {others : FrontEnd → FrontEnd → Prop} {P : Assertion} (h : Leads S p) :
    Keeps others P p (fun _ => True) fun a _ _ => S a := by
  intro t₀ w t q u _ hg
  refine ⟨trivial, fun a ha => ?_⟩
  rw [ha] at hg
  exact h.goes hg

theorem Keeps.leads {others : FrontEnd → FrontEnd → Prop} {P : Assertion} {T : List Move → Prop}
    {Q : α → Assertion} (hk : Keeps others P p T Q) (h : Leads S p) :
    Keeps others P p T fun a t u => Q a t u ∧ S a :=
  (hk.and (h.keeps (P := P))).weaken (fun _ _ hw => ⟨hw, hw⟩) (fun _ ht => ht.1)
    fun _ _ _ hq => hq

theorem Leads.left (h : Leads S p) (hq : Left p q) : Leads S q := by
  obtain ⟨w, t, u, hg⟩ := hq
  exact h.goes hg

/-- **Left alone, it comes to a result.** -/
theorem Leads.ends (h : Leads S p) (w : FrontEnd) :
    ∃ t a u, Goes Nobody p w t (.done a) u ∧ S a := by
  induction p generalizing w with
  | done a => exact ⟨[], a, w, .stay .., h⟩
  | act a k ih =>
    obtain ⟨t, b, u, hg, hb⟩ := ih (a.perform w).1 (h _) (a.perform w).2
    exact ⟨_, b, u, .act hg, hb⟩
  | report r k ih =>
    obtain ⟨t, b, u, hg, hb⟩ := ih h (w.tell r).2
    exact ⟨_, b, u, .report hg, hb⟩
  | loop => exact h.elim

/-! ## Places and moves that may be come to -/

/-- The process may come to `q`. -/
def ComesTo (p : Process α) (w : FrontEnd) (q : Process α) : Prop :=
  ∃ t u, Goes Anybody p w t q u

theorem ComesTo.here (p : Process α) (w : FrontEnd) : ComesTo p w p :=
  ⟨[], w, .stay ..⟩

theorem ComesTo.act {a : Action} {k : a.Answer → Process α}
    (h : ComesTo (k (a.perform w).1) (a.perform w).2 q) : ComesTo (.act a k) w q := by
  obtain ⟨t, u, h⟩ := h
  exact ⟨_, u, .act h⟩

theorem ComesTo.loop {round : σ → Process (σ ⊕ β)} {s : σ} {k : β → Process α}
    (h : ComesTo ((round s).bind (resume round k)) w q) : ComesTo (.loop round s k) w q := by
  obtain ⟨t, u, h⟩ := h
  exact ⟨t, u, .loop h⟩

variable {others : FrontEnd → FrontEnd → Prop} {B : Move → Prop}

theorem MayMake.after (hp : Goes others p w t q v) (h : MayMake others q v B) :
    MayMake others p w B := by
  obtain ⟨t', r, u, h, m, hm, hB⟩ := h
  exact ⟨_, r, u, hp.trans h, m, List.mem_append_right _ hm, hB⟩

end DisplayList.Process
