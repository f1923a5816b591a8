import DisplayList.Proofs.Together

/-!
# Processes and their host

A process that shares the front end with nobody but its host does what its text says, and whenever
it tells the host something the host may carry out requests of its own, before the process goes on.

* `Hosted`: a run to the end beside a host who does what it `may`;
* `Yields` and its rules: what such runs end with; **`yields_bind`**, **`yields_iterate`**,
  `yields_serveAll`;
* `Host.Abides`, **`hosted_of_run`**: a run in which the host does what is laid down is of this
  kind.
-/

namespace DisplayList

namespace Process

variable {α β σ : Type}

/-- `Hosted may p w r u`: the process `p` started in the state `w` ends with `r` in the state `u`,
and the host carries out only requests that it `may` carry out when told what it is told. -/
inductive Hosted (may : Report → Request → Prop) {α : Type} :
    Process α → FrontEnd → α → FrontEnd → Prop
  | done (a : α) (w : FrontEnd) : Hosted may (.done a) w a w
  | act {a : Action} {k : a.Answer → Process α} {w u : FrontEnd} {r : α} :
    Hosted may (k (a.perform w).1) (a.perform w).2 r u → Hosted may (.act a k) w r u
  | report {m : Report} {k : Process α} {w u : FrontEnd} {r : α} {reaction : Reaction}
    (hmay : ∀ x ∈ reaction, may m x.2) :
    Hosted may ((Request.serveAll reaction).bind fun _ => k) (w.tell m).2 r u →
    Hosted may (.report m k) w r u
  | loop {σ β : Type} {round : σ → Process (σ ⊕ β)} {s : σ} {k : β → Process α} {w u : FrontEnd}
    {r : α} :
    Hosted may ((round s).bind (resume round k)) w r u → Hosted may (.loop round s k) w r u

variable {may : Report → Request → Prop} {p : Process α} {w u : FrontEnd} {r : α}

/-- However the host acts, the process ends only as `Q` says of its result and the state. -/
def Yields (may : Report → Request → Prop) (p : Process α) (w : FrontEnd)
    (Q : α → FrontEnd → Prop) : Prop :=
  ∀ r u, Hosted may p w r u → Q r u

variable {Q Q' : α → FrontEnd → Prop}

theorem Yields.mono (h : Yields may p w Q) (hQ : ∀ a v, Q a v → Q' a v) : Yields may p w Q' :=
  fun r u hu => hQ r u (h r u hu)

theorem yields_done {a : α} (h : Q a w) : Yields may (.done a) w Q := by
  intro r u hu
  cases hu
  exact h

theorem yields_act {a : Action} {k : a.Answer → Process α}
    (h : Yields may (k (a.perform w).1) (a.perform w).2 Q) : Yields may (.act a k) w Q := by
  intro r u hu
  cases hu with
  | act hu => exact h r u hu

theorem yields_perform {a : Action} {f : a.Answer → Process α}
    (h : Yields may (f (a.perform w).1) (a.perform w).2 Q) : Yields may (perform a >>= f) w Q :=
  yields_act h

theorem yields_report {m : Report} {k : Process α}
    (h : ∀ reaction : Reaction, (∀ x ∈ reaction, may m x.2) →
      Yields may ((Request.serveAll reaction).bind fun _ => k) (w.tell m).2 Q) :
    Yields may (.report m k) w Q := by
  intro r u hu
  cases hu with
  | report hmay hu => exact h _ hmay r u hu

theorem yields_unheeded {m : Report} {k : Process α} (hm : ∀ x, ¬ may m x)
    (h : Yields may k (w.tell m).2 Q) : Yields may (.report m k) w Q := by
  refine yields_report fun reaction hmay => ?_
  have hnil : reaction = [] := List.eq_nil_iff_forall_not_mem.2 fun x hx => hm _ (hmay x hx)
  rw [hnil]
  exact h

/-! ## Sequences and loops -/

theorem hosted_bind {f : α → Process β} {b : β} (h : Hosted may (p.bind f) w b u) :
    ∃ a v, Hosted may p w a v ∧ Hosted may (f a) v b u := by
  generalize hP : p.bind f = P at h
  -- A first process that is done leaves the whole run to the rest.
  have hdone : ∀ {P : Process β} {a : α} {w u : FrontEnd} {b : β}, (Process.done a).bind f = P →
      Hosted may P w b u →
      ∃ a' v, Hosted may (.done a) w a' v ∧ Hosted may (f a') v b u := by
    rintro P a w u b rfl h
    exact ⟨a, w, .done a w, h⟩
  induction h generalizing p with
  | done b w =>
    cases p with
    | done a => exact hdone hP (.done b w)
    | _ => cases hP
  | act h ih =>
    cases p with
    | done a => exact hdone hP (.act h)
    | act a k =>
      cases hP
      obtain ⟨a, v, h₁, h₂⟩ := ih rfl
      exact ⟨a, v, .act h₁, h₂⟩
    | _ => cases hP
  | report hmay h ih =>
    cases p with
    | done a => exact hdone hP (.report hmay h)
    | report m k =>
      cases hP
      obtain ⟨a, v, h₁, h₂⟩ := ih (bind_assoc ..)
      exact ⟨a, v, .report hmay h₁, h₂⟩
    | _ => cases hP
  | loop h ih =>
    cases p with
    | done a => exact hdone hP (.loop h)
    | loop round s k =>
      cases hP
      obtain ⟨a, v, h₁, h₂⟩ := ih (resume_bind ..)
      exact ⟨a, v, .loop h₁, h₂⟩
    | _ => cases hP

/-- **Sequences.** -/
theorem yields_bind {f : α → Process β} {Q : β → FrontEnd → Prop}
    (h : Yields may p w fun a v => Yields may (f a) v Q) : Yields may (p.bind f) w Q := by
  intro r u hu
  obtain ⟨a, v, h₁, h₂⟩ := hosted_bind hu
  exact h a v h₁ r u h₂

theorem yields_resume {round : σ → Process (σ ⊕ α)} {I : σ → FrontEnd → Prop}
    {x : Process (σ ⊕ α)}
    (hround : ∀ s v, I s v → Yields may (round s) v (Sum.elim I Q))
    (hx : Yields may x w (Sum.elim I Q)) : Yields may (x.bind (resume round .done)) w Q := by
  intro r u hu
  generalize hP : x.bind (resume round .done) = P at hu
  induction hu generalizing x with
  | done a w =>
    cases x with
    | done y =>
      cases y with
      | inl s => cases hP
      | inr b =>
        cases hP
        exact hx _ _ (.done ..)
    | _ => cases hP
  | act hu ih =>
    cases x with
    | done y => cases y <;> cases hP
    | act a k =>
      cases hP
      exact ih (fun r u hu => hx r u (.act hu)) rfl
    | _ => cases hP
  | report hmay hu ih =>
    cases x with
    | done y => cases y <;> cases hP
    | report m k =>
      cases hP
      exact ih (fun r u hu => hx r u (.report hmay hu)) (bind_assoc ..)
    | _ => cases hP
  | loop hu ih =>
    cases x with
    | done y =>
      cases y with
      | inl s =>
        cases hP
        exact ih (hround s _ (hx _ _ (.done ..))) rfl
      | inr b => cases hP
    | loop round' s k =>
      cases hP
      exact ih (fun r u hu => hx r u (.loop hu)) (resume_bind ..)
    | _ => cases hP

/-- **Loops.** What `I` says of the state holds before each round. -/
theorem yields_iterate {s : σ} {round : σ → Process (σ ⊕ α)} (I : σ → FrontEnd → Prop)
    (hI : I s w) (hround : ∀ s v, I s v → Yields may (round s) v (Sum.elim I Q)) :
    Yields may (iterate s round) w Q := by
  have hs : Yields may (.done (.inl s) : Process (σ ⊕ α)) w (Sum.elim I Q) := yields_done hI
  exact yields_resume hround hs

/-! ## What the host does -/

theorem yields_serveAll {I : FrontEnd → Prop} {reaction : Reaction}
    (hserve : ∀ x ∈ reaction, ∀ v, I v → Yields may x.2.serve v fun _ => I)
    (hnote : ∀ v name reply, I v → I (v.note (.did name reply))) (hw : I w) :
    Yields may (Request.serveAll reaction) w fun _ => I := by
  induction reaction generalizing w with
  | nil => exact yields_done hw
  | cons x rest ih =>
    refine yields_bind ((hserve x List.mem_cons_self w hw).mono fun reply v hv => ?_)
    refine yields_perform ?_
    exact ih (fun y hy => hserve y (List.mem_cons_of_mem _ hy)) (hnote v x.1 reply hv)

end Process

/-! ## A host whose reactions are laid down -/

/-- All that is laid down for the host to do about a report, now or the next times. -/
def Host.laidDown (h : Host) : Report → List Reaction
  | .command _ _ word => (h.onCommand.lookup word).toList
  | .signalCallback .. | .finishCallback .. => h.onCallback
  | .cursor .. => h.onCursor

/-- All that is laid down for the host to do, it may do. -/
def Host.Abides (h : Host) (may : Report → Request → Prop) : Prop :=
  ∀ m, ∀ reaction ∈ h.laidDown m, ∀ x ∈ reaction, may m x.2

namespace Host

theorem mem_react {h : Host} {m : Report} {x : String × Request} (hx : x ∈ (h.react m).1) :
    ∃ reaction ∈ h.laidDown m, x ∈ reaction := by
  have hhead : ∀ l : List Reaction, x ∈ l.headD [] → ∃ reaction ∈ l, x ∈ reaction := by
    intro l hl
    cases l with
    | nil => cases hl
    | cons reaction l => exact ⟨reaction, List.mem_cons_self, hl⟩
  cases m with
  | command list pc word =>
    change x ∈ (h.onCommand.lookup word).getD [] at hx
    cases hl : h.onCommand.lookup word with
    | none => simp [hl] at hx
    | some reaction => exact ⟨reaction, by simp [laidDown, hl], by simpa [hl] using hx⟩
  | signalCallback => exact hhead _ hx
  | finishCallback => exact hhead _ hx
  | cursor => exact hhead _ hx

theorem laidDown_react (h : Host) (m m' : Report) : (h.react m).2.laidDown m' ⊆ h.laidDown m' := by
  intro reaction hr
  cases m with
  | command => exact hr
  | cursor =>
    cases m' with
    | cursor => exact List.mem_of_mem_tail hr
    | _ => exact hr
  | signalCallback | finishCallback =>
    cases m' with
    | signalCallback | finishCallback => exact List.mem_of_mem_tail hr
    | _ => exact hr

variable {h : Host} {may : Report → Request → Prop}

theorem Abides.of_subset {h' : Host} (ha : h.Abides may)
    (hs : ∀ m, h'.laidDown m ⊆ h.laidDown m) : h'.Abides may :=
  fun m reaction hr => ha m reaction (hs m hr)

end Host

theorem Action.LeavesHost.abides {a : Action} (ha : a.LeavesHost)
    {may : Report → Request → Prop} {w : FrontEnd} (h : w.host.Abides may) :
    (a.perform w).2.host.Abides may := by
  cases a with
  | setHost f => exact ha.elim
  | testVisible => exact h.of_subset fun m => by cases m <;> exact fun _ hr => hr
  | notify j n =>
    obtain ⟨queue, events, journal, hn⟩ := w.notify_frame j n
    change (w.notify j n).host.Abides may
    rw [hn]
    exact h
  | write a ws =>
    obtain ⟨memory, hm⟩ := Action.write_frame w a ws
    rw [hm]
    exact h
  | _ => exact h

namespace Process

variable {α : Type} {may : Report → Request → Prop} {p : Process α} {w u : FrontEnd} {r : α}

theorem only_serveAll {reaction : Reaction}
    (h : ∀ x ∈ reaction, Only Action.LeavesHost x.2.serve) :
    Only Action.LeavesHost (Request.serveAll reaction) := by
  induction reaction with
  | nil => trivial
  | cons x rest ih =>
    refine (h x List.mem_cons_self).bind fun reply => ⟨trivial, fun _ => ?_⟩
    exact ih fun y hy => h y (List.mem_cons_of_mem _ hy)

/-- **A run in which the host does what is laid down** is one in which it does what it may, as long
as nobody lays down anything else. -/
theorem hosted_of_run (hmay : ∀ m x, may m x → Only Action.LeavesHost x.serve)
    (hp : Only Action.LeavesHost p) (hw : w.host.Abides may) {n : Nat}
    (h : p.run n w = some (r, u)) : Hosted may p w r u ∧ u.host.Abides may := by
  induction n generalizing p w with
  | zero => cases h
  | succ n ih =>
    cases p with
    | done a =>
      cases h
      exact ⟨.done .., hw⟩
    | act a k =>
      obtain ⟨hrun, hu⟩ := ih (hp.2 _) (hp.1.abides hw) h
      exact ⟨.act hrun, hu⟩
    | report m k =>
      -- A host that does not hear of the report does nothing about it.
      have hreaction : (∀ x ∈ (w.tell m).1, may m x.2) ∧ (w.tell m).2.host.Abides may := by
        unfold FrontEnd.tell
        split
        · refine ⟨fun x hx => ?_, hw.of_subset (w.host.laidDown_react m)⟩
          obtain ⟨reaction, hr, hx⟩ := Host.mem_react hx
          exact hw m reaction hr x hx
        · exact ⟨by simp, hw⟩
      have honly : Only Action.LeavesHost ((Request.serveAll (w.tell m).1).bind fun _ => k) :=
        (only_serveAll fun x hx => hmay m x.2 (hreaction.1 x hx)).bind fun _ => hp
      obtain ⟨hrun, hu⟩ := ih honly hreaction.2 h
      exact ⟨.report hreaction.1 hrun, hu⟩
    | loop round s k =>
      have hround : Only Action.LeavesHost ((round s).bind (resume round k)) := by
        refine (hp.1 s).bind fun x => ?_
        cases x with
        | inl s => exact hp
        | inr b => exact hp.2 b
      rw [run_loop] at h
      obtain ⟨hrun, hu⟩ := ih hround hw h
      exact ⟨.loop hrun, hu⟩

end Process

/-- Carries out requests one after the other, each within a budget of steps. -/
def FrontEnd.play (budget : Nat) (requests : List Request) (w : FrontEnd) : Option FrontEnd :=
  requests.foldlM (fun w r => (r.serve.run budget w).map Prod.snd) w

end DisplayList
