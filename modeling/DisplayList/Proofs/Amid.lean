import DisplayList.Proofs.Histories
import DisplayList.Proofs.Sessions

/-!
# Processes amid others

A run to the end of a process among others, in which the moves of everybody are kept: what the
process comes to can then be said of all that was done, not only of its own part.

* `Amid`: such a run; `Amid.history`: its moves lead from one state to the next; `steps`: a part of
  a run, carried out;
* `amid_done`, `amid_act`, **`amid_bind`**: such runs taken apart;
* `Tells` and its rules: what the result says of the moves so far; **`tells_bind`**,
  **`tells_iterate`**.
-/

namespace DisplayList.Process

variable {α β σ : Type} {others : Action → Prop}

/-- `Amid others p w t r u`: the process `p` started in the state `w` ends with `r`, and the moves
made meanwhile, by the process and by the `others`, are `t` and lead to `u`. -/
inductive Amid (others : Action → Prop) {α : Type} :
    Process α → FrontEnd → List Move → α → FrontEnd → Prop
  | done (a : α) (w : FrontEnd) : Amid others (.done a) w [] a w
  | takes {p q : Process α} {w v u : FrontEnd} {t t' : List Move} {r : α} :
    p.Takes w t q v → Amid others q v t' r u → Amid others p w (t ++ t') r u
  | other {p : Process α} {m : Move} {t : List Move} {r : α} {u : FrontEnd} :
    m.Is others → Amid others p m.after t r u → Amid others p m.before (m :: t) r u

variable {p : Process α} {w v u : FrontEnd} {t t' : List Move} {r : α}

theorem Takes.history {q : Process α} (h : p.Takes w t q v) : History w t v := by
  rcases h.stepsBy with ⟨rfl, rfl⟩ | ⟨m, rfl, rfl, rfl⟩
  · exact .nil
  · exact History.cons .nil

theorem Amid.history (h : Amid others p w t r u) : History w t u := by
  induction h with
  | done => exact .nil
  | takes ht _ ih => exact ht.history.trans ih
  | other _ _ ih => exact ih.cons

theorem Amid.wait (hw : History w t v) (ht : All (Move.Is others) t)
    (h : Amid others p v t' r u) : Amid others p w (t ++ t') r u := by
  induction hw generalizing t' with
  | nil => exact h
  | @snoc t m _ ih =>
    obtain ⟨ht, hm⟩ := all_append.1 ht
    rw [List.append_assoc]
    exact ih ht (.other (all_cons.1 hm).1 h)

theorem Amid.of_goes {q : Process α} (h : Goes Nobody p w t q v) (hr : Amid others q v t' r u) :
    Amid others p w (t ++ t') r u := by
  induction h with
  | stay => exact hr
  | other ho => exact ho.elim
  | act _ ih => exact .takes (t := [_]) .act (ih hr)
  | report _ ih => exact .takes (t := [_]) .report (ih hr)
  | loop _ ih => exact .takes (t := []) .loop (ih hr)

theorem Amid.of_alone (h : Alone p w t r u) : Amid others p w t r u := by
  have hr : Amid others p w (t ++ []) r u := .of_goes h (.done r u)
  rwa [List.append_nil] at hr

theorem Goes.history {q : Process α} (h : Goes Nobody p w t q v) : History w t v := by
  induction h with
  | stay => exact .nil
  | other ho => exact ho.elim
  | act _ ih => exact History.cons (m := .act _ _) ih
  | report _ ih => exact History.cons (m := .report _ _) ih
  | loop _ ih => exact ih

/-- So many moves of a process that is left alone, and what is left of it. -/
def steps : Process α → Nat → FrontEnd → List Move × Process α × FrontEnd
  | p, 0, w => ([], p, w)
  | .done a, _ + 1, w => ([], .done a, w)
  | .act a k, n + 1, w =>
    let x := steps (k (a.perform w).1) n (a.perform w).2
    (.act a w :: x.1, x.2)
  | .report m k, n + 1, w =>
    let x := steps k n (w.tell m).2
    (.report m w :: x.1, x.2)
  | .loop round s k, n + 1, w => steps ((round s).bind (resume round k)) n w

theorem goes_steps (n : Nat) (p : Process α) (w : FrontEnd) :
    Goes Nobody p w (p.steps n w).1 (p.steps n w).2.1 (p.steps n w).2.2 := by
  induction n generalizing p w with
  | zero => exact .stay ..
  | succ n ih =>
    cases p with
    | done a => exact .stay ..
    | act a k => exact .act (ih ..)
    | report m k => exact .report (ih ..)
    | loop round s k => exact .loop (ih ..)

/-! ## Runs taken apart -/

theorem amid_done {a : α} (h : Amid others (.done a) w t r u) :
    r = a ∧ All (Move.Is others) t := by
  generalize hp : Process.done a = p at h
  induction h with
  | done =>
    cases hp
    exact ⟨rfl, all_nil⟩
  | takes ht =>
    cases hp
    cases ht
  | other hm _ ih => exact ⟨(ih hp).1, all_cons.2 ⟨hm, (ih hp).2⟩⟩

theorem amid_act {a : Action} {k : a.Answer → Process α} (h : Amid others (.act a k) w t r u) :
    ∃ b v c, t = b ++ .act a v :: c ∧ All (Move.Is others) b ∧
      Amid others (k (a.perform v).1) (a.perform v).2 c r u := by
  generalize hp : Process.act a k = p at h
  induction h with
  | done => cases hp
  | takes ht hr =>
    cases hp
    cases ht with
    | act => exact ⟨[], _, _, rfl, all_nil, hr⟩
  | @other _ m _ _ _ hm _ ih =>
    obtain ⟨b, v, c, rfl, hb, hr⟩ := ih hp
    exact ⟨m :: b, v, c, rfl, all_cons.2 ⟨hm, hb⟩, hr⟩

theorem takes_bind {f : α → Process β} {q : Process β} (h : (p.bind f).Takes w t q v) :
    (∃ a, p = .done a) ∨ ∃ p', p.Takes w t p' v ∧ q = p'.bind f := by
  cases p with
  | done a => exact .inl ⟨a, rfl⟩
  | act a k =>
    cases h with
    | act => exact .inr ⟨_, .act, rfl⟩
  | report m k =>
    cases h with
    | report => exact .inr ⟨_, .report, rfl⟩
  | loop round s k =>
    cases h with
    | loop => exact .inr ⟨_, .loop, (resume_bind ..).symm⟩

/-- **Runs of a sequence.** -/
theorem amid_bind {f : α → Process β} {b : β} (h : Amid others (p.bind f) w t b u) :
    ∃ a v t₁ t₂, t = t₁ ++ t₂ ∧ Amid others p w t₁ a v ∧ Amid others (f a) v t₂ b u := by
  generalize hP : p.bind f = P at h
  induction h generalizing p with
  | done b w =>
    cases p with
    | done a =>
      have hrest : Amid others (f a) w [] b w := by
        change Amid others ((Process.done a).bind f) w [] b w
        rw [hP]
        exact .done b w
      exact ⟨a, w, [], [], rfl, .done a w, hrest⟩
    | _ => cases hP
  | @takes P q w v u t t' r ht hr ih =>
    subst hP
    rcases takes_bind ht with ⟨a, rfl⟩ | ⟨p', hp', rfl⟩
    · exact ⟨a, w, [], _, rfl, .done a w, .takes ht hr⟩
    · obtain ⟨a, v', t₁, t₂, rfl, h₁, h₂⟩ := ih rfl
      exact ⟨a, v', t ++ t₁, t₂, (List.append_assoc ..).symm, .takes hp' h₁, h₂⟩
  | @other _ m _ _ _ hm _ ih =>
    obtain ⟨a, v, t₁, t₂, rfl, h₁, h₂⟩ := ih hP
    exact ⟨a, v, m :: t₁, t₂, rfl, .other hm h₁, h₂⟩

/-! ## What a result says of the moves -/

/-- Started after moves that are as `P` says, the process ends only with a result and moves, those
before it included, that are as `Q` says. -/
def Tells (others : Action → Prop) (P : List Move → Prop) (p : Process α)
    (Q : α → List Move → Prop) : Prop :=
  ∀ ⦃t₀ w t r u⦄, P t₀ → Amid others p w t r u → Q r (t₀ ++ t)

variable {P : List Move → Prop} {Q : α → List Move → Prop}

theorem Tells.ends (h : Tells others (fun _ => True) p Q) (hr : Amid others p w t r u) : Q r t := by
  have ht : Q r ([] ++ t) := h trivial hr
  rwa [List.nil_append] at ht

theorem Tells.pre {P' : List Move → Prop} (h : Tells others P p Q) (hP : ∀ t, P' t → P t) :
    Tells others P' p Q :=
  fun _ _ _ _ _ ht hr => h (hP _ ht) hr

theorem tells_of (h : ∀ r t t', P t → Q r (t ++ t')) : Tells others P p Q :=
  fun _ _ _ _ _ hP _ => h _ _ _ hP

theorem tells_done {a : α} (h : ∀ t t', P t → Q a (t ++ t')) : Tells others P (.done a) Q := by
  intro t₀ w t r u hP hr
  obtain ⟨rfl, -⟩ := amid_done hr
  exact h _ _ hP

/-- **Sequences.** -/
theorem tells_bind {p : Process β} {f : β → Process α} {R : β → List Move → Prop}
    (hp : Tells others P p R) (hf : ∀ b, Tells others (R b) (f b) Q) :
    Tells others P (p >>= f) Q := by
  intro t₀ w t r u hP hr
  obtain ⟨b, v, t₁, t₂, rfl, h₁, h₂⟩ := amid_bind hr
  rw [← List.append_assoc]
  exact hf b (hp hP h₁) h₂

theorem tells_skip {p : Process β} {f : β → Process α}
    (h : ∀ b, Tells others (fun _ => True) (f b) Q) : Tells others P (p >>= f) Q :=
  tells_bind (tells_of fun _ _ _ _ => trivial) h

/-- What does not depend on what is still to come. -/
def Lasting (P : List Move → Prop) : Prop :=
  ∀ t t', P t → P (t ++ t')

theorem tells_past {p : Process β} {f : β → Process α} (hP : Lasting P)
    (h : ∀ b, Tells others P (f b) Q) : Tells others P (p >>= f) Q :=
  tells_bind (tells_of fun _ => hP) h

theorem Tells.frame {R : List Move → Prop} (hR : Lasting R)
    (h : Tells others (fun _ => True) p Q) : Tells others R p fun r t => R t ∧ Q r t :=
  fun _ _ _ _ _ ht hr => ⟨hR _ _ ht, h trivial hr⟩

theorem tells_perform {a : Action} {f : a.Answer → Process α}
    (h : ∀ t b v, P t →
      Tells others (fun t' => t' = t ++ (b ++ [.act a v])) (f (a.perform v).1) Q) :
    Tells others P (perform a >>= f) Q := by
  intro t₀ w t r u hP hr
  obtain ⟨b, v, c, rfl, -, hc⟩ := amid_act hr
  rw [List.append_cons, ← List.append_assoc]
  exact h t₀ b v hP rfl hc

theorem tells_resume {round : σ → Process (σ ⊕ α)} {I : σ → List Move → Prop}
    {x : Process (σ ⊕ α)} {t₀ : List Move}
    (hround : ∀ s, Tells others (I s) (round s) (Sum.elim I Q))
    (hx : ∀ y t v, Amid others x w t y v → Sum.elim I Q y (t₀ ++ t))
    (h : Amid others (x.bind (resume round .done)) w t r u) : Q r (t₀ ++ t) := by
  generalize hP : x.bind (resume round .done) = p at h
  induction h generalizing x t₀ with
  | done b w =>
    cases x with
    | done y =>
      cases y with
      | inl s => cases hP
      | inr b =>
        cases hP
        exact hx _ _ _ (.done ..)
    | _ => cases hP
  | @takes p q w v u t t' r ht _ ih =>
    subst hP
    rcases takes_bind ht with ⟨y, rfl⟩ | ⟨x', hx', rfl⟩
    · cases y with
      | inl s =>
        cases ht with
        | loop =>
          refine ih (x := round s) (fun y t v hy => ?_) rfl
          have hs : I s t₀ := by simpa using hx _ _ _ (.done ..)
          exact hround s hs hy
      | inr b => cases ht
    · rw [← List.append_assoc]
      refine ih (fun y t₁ v hy => ?_) rfl
      rw [List.append_assoc]
      exact hx _ _ _ (.takes hx' hy)
  | @other _ m t _ _ hm _ ih =>
    rw [List.append_cons]
    refine ih (fun y t₁ v hy => ?_) hP
    rw [← List.append_cons]
    exact hx _ _ _ (.other hm hy)

/-- **Loops.** What `I` says of the moves so far holds before each round. -/
theorem tells_iterate {s : σ} {round : σ → Process (σ ⊕ α)} {I : σ → List Move → Prop}
    (h₀ : ∀ t t', P t → I s (t ++ t'))
    (hround : ∀ s, Tells others (I s) (round s) (Sum.elim I Q)) :
    Tells others P (iterate s round) Q := by
  intro t₀ w t r u hP hr
  refine tells_resume (x := .done (.inl s)) hround (fun y t v hy => ?_) hr
  obtain ⟨rfl, -⟩ := amid_done hy
  exact h₀ _ _ hP

end DisplayList.Process
