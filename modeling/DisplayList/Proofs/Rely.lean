import DisplayList.Proofs.Beside

/-!
# Rely and guarantee

What a process does beside others is proved along its text. `Keeps others P p T Q` says: started
where `P` holds, the process never makes moves other than `T` says and, if it is done, leaves things
as `Q` says. Each rule asks that what is known between two moves be `Stable`: kept by whatever the
others do.

* `Assertion`: what is known of all moves so far and of the state;
* `Stable`, `Keeps` and one rule for each form of a process: `keeps_done`, `keeps_perform`,
  `keeps_tell`, **`keeps_bind`**, **`keeps_iterate`**;
* `All`: traces of moves of one kind;
* `Only`: which actions a process consists of at all, whatever the answers; **`goes_only`**,
  **`keeps_moves`**, `keeps_only`;
* `Attains`: a process that moreover ends if it is left alone.
-/

namespace DisplayList.Process

variable {α β σ : Type} {others : FrontEnd → FrontEnd → Prop}

/-- What is known of the moves so far and of the state. -/
abbrev Assertion := List Move → FrontEnd → Prop

/-- The moves so far are `t`, and the state is `w`. -/
def Now (t : List Move) (w : FrontEnd) : Assertion :=
  fun t' w' => t' = t ∧ w' = w

/-- The others keep `P`. -/
def Stable (others : FrontEnd → FrontEnd → Prop) (P : Assertion) : Prop :=
  ∀ t w v, others w v → P t w → P t v

variable {P P' : Assertion} {T T' : List Move → Prop}

theorem Stable.closure (h : Stable others P) {t : List Move} {w v : FrontEnd}
    (hwv : Relation.ReflTransGen others w v) (hw : P t w) : P t v := by
  induction hwv with
  | refl => exact hw
  | tail _ hl ih => exact h _ _ _ hl ih

theorem stable_since (w : FrontEnd) :
    Stable others fun _ v => Relation.ReflTransGen others w v :=
  fun _ _ _ h hw => hw.tail h

theorem Stable.and (h : Stable others P) (h' : Stable others P') :
    Stable others fun t w => P t w ∧ P' t w :=
  fun _ _ _ ho hw => ⟨h _ _ _ ho hw.1, h' _ _ _ ho hw.2⟩

/-- **Rely and guarantee.** Started where `P` holds, and beside `others`, the process `p` makes
moves as `T` says at any time, and is done only as `Q` says of its result, all moves and the
state. -/
def Keeps (others : FrontEnd → FrontEnd → Prop) (P : Assertion) (p : Process α)
    (T : List Move → Prop) (Q : α → Assertion) : Prop :=
  ∀ ⦃t₀ w t q u⦄, P t₀ w → Goes others p w t q u →
    T (t₀ ++ t) ∧ ∀ a, q = .done a → Q a (t₀ ++ t) u

variable {Q Q' : α → Assertion} {p : Process α}

theorem Keeps.ends {t : List Move} {r : α} {w u : FrontEnd} (h : Keeps others P p T Q)
    (hw : P [] w) (hg : Goes others p w t (.done r) u) : T t ∧ Q r t u := by
  obtain ⟨ht, hq⟩ := h hw hg
  exact ⟨ht, hq r rfl⟩

theorem Keeps.weaken (h : Keeps others P p T Q) (hP : ∀ t w, P' t w → P t w)
    (hT : ∀ t, T t → T' t) (hQ : ∀ a t u, Q a t u → Q' a t u) : Keeps others P' p T' Q' := by
  intro t₀ w t q u hw hg
  obtain ⟨ht, hq⟩ := h (hP t₀ w hw) hg
  exact ⟨hT _ ht, fun a ha => hQ a _ u (hq a ha)⟩

theorem Keeps.pre (h : Keeps others P p T Q) (hP : ∀ t w, P' t w → P t w) :
    Keeps others P' p T Q :=
  h.weaken hP (fun _ h => h) fun _ _ _ h => h

theorem Keeps.post (h : Keeps others P p T Q) (hQ : ∀ a t u, Q a t u → Q' a t u) :
    Keeps others P p T Q' :=
  h.weaken (fun _ _ h => h) (fun _ h => h) hQ

theorem Keeps.now (h : Keeps others P p T Q) {t : List Move} {w : FrontEnd} (hw : P t w) :
    Keeps others (Now t w) p T Q :=
  h.pre fun _ _ he => he.1 ▸ he.2 ▸ hw

theorem Keeps.and (h : Keeps others P p T Q) (h' : Keeps others P' p T' Q') :
    Keeps others (fun t w => P t w ∧ P' t w) p (fun t => T t ∧ T' t)
      fun a t u => Q a t u ∧ Q' a t u := by
  intro t₀ w t q u hw hg
  obtain ⟨ht, hq⟩ := h hw.1 hg
  obtain ⟨ht', hq'⟩ := h' hw.2 hg
  exact ⟨⟨ht, ht'⟩, fun a ha => ⟨hq a ha, hq' a ha⟩⟩

theorem Keeps.anew (h : Keeps others P p T Q) :
    Keeps others (fun _ w => P [] w) p (fun _ => True) fun a _ u => ∃ t, Q a t u := by
  intro t₀ w t q u hw hg
  obtain ⟨-, hq⟩ := h hw hg
  exact ⟨trivial, fun a ha => ⟨_, hq a ha⟩⟩

theorem keeps_iff : Keeps others P p T Q ↔ ∀ t w, P t w → Keeps others (Now t w) p T Q :=
  ⟨fun h _ _ hw => h.now hw, fun h t w _ _ _ hw hg => h t w hw ⟨rfl, rfl⟩ hg⟩

theorem keeps_done {a : α} (hT : ∀ t w, P t w → T t)
    (h : ∀ t w u, P t w → Relation.ReflTransGen others w u → Q a t u) :
    Keeps others P (.done a) T Q := by
  intro t₀ w t q u hw hg
  obtain ⟨rfl, rfl, hu⟩ := goes_done hg
  rw [List.append_nil]
  refine ⟨hT _ _ hw, fun b hb => ?_⟩
  cases hb
  exact h _ _ _ hw hu

theorem keeps_stay {a : α} (hP : Stable others P) (hT : ∀ t w, P t w → T t)
    (h : ∀ t w, P t w → Q a t w) : Keeps others P (.done a) T Q :=
  keeps_done hT fun t _ u hw hu => h t u (hP.closure hu hw)

theorem keeps_act {a : Action} {k : a.Answer → Process α} (hP : Stable others P)
    (hT : ∀ t w, P t w → T t)
    (h : ∀ t w, P t w →
      Keeps others (Now (t ++ [.act a w]) (a.perform w).2) (k (a.perform w).1) T Q) :
    Keeps others P (.act a k) T Q := by
  intro t₀ w t q u hw hg
  generalize hp : Process.act a k = p at hg
  induction hg with
  | stay =>
    rw [List.append_nil]
    refine ⟨hT _ _ hw, fun b hb => ?_⟩
    rw [← hp] at hb
    cases hb
  | other ho _ ih => exact ih (hP _ _ _ ho hw) hp
  | act hg _ =>
    cases hp
    rw [List.append_cons]
    exact h _ _ hw ⟨rfl, rfl⟩ hg
  | report => cases hp
  | loop => cases hp

theorem keeps_report {r : Report} {k : Process α} (hP : Stable others P)
    (hT : ∀ t w, P t w → T t)
    (h : ∀ t w, P t w → Keeps others (Now (t ++ [.report r w]) (w.tell r).2) k T Q) :
    Keeps others P (.report r k) T Q := by
  intro t₀ w t q u hw hg
  generalize hp : Process.report r k = p at hg
  induction hg with
  | stay =>
    rw [List.append_nil]
    refine ⟨hT _ _ hw, fun b hb => ?_⟩
    rw [← hp] at hb
    cases hb
  | other ho _ ih => exact ih (hP _ _ _ ho hw) hp
  | report hg _ =>
    cases hp
    rw [List.append_cons]
    exact h _ _ hw ⟨rfl, rfl⟩ hg
  | act => cases hp
  | loop => cases hp

theorem keeps_perform {a : Action} {f : a.Answer → Process α} (hP : Stable others P)
    (hT : ∀ t w, P t w → T t)
    (h : ∀ t w, P t w →
      Keeps others (Now (t ++ [.act a w]) (a.perform w).2) (f (a.perform w).1) T Q) :
    Keeps others P (perform a >>= f) T Q :=
  keeps_act hP hT h

theorem keeps_tell {r : Report} {f : Unit → Process α} (hP : Stable others P)
    (hT : ∀ t w, P t w → T t)
    (h : ∀ t w, P t w → Keeps others (Now (t ++ [.report r w]) (w.tell r).2) (f ()) T Q) :
    Keeps others P (tell r >>= f) T Q :=
  keeps_report hP hT h

/-- **Sequences.** -/
theorem keeps_bind {p : Process β} {f : β → Process α} {M : β → Assertion}
    (hp : Keeps others P p T M) (hf : ∀ b, Keeps others (M b) (f b) T Q) :
    Keeps others P (p >>= f) T Q := by
  intro t₀ w t q u hw hg
  obtain ⟨p', rfl, hg'⟩ | ⟨b, v, t₁, t₂, rfl, hg₁, hg₂⟩ := goes_bind hg
  · refine ⟨(hp hw hg').1, fun a ha => ?_⟩
    cases p' with
    | done b =>
      have hb : Goes others (f b) u [] (f b) u := .stay ..
      have hq : Q a (t₀ ++ t ++ []) u := (hf b ((hp hw hg').2 b rfl) hb).2 a ha
      rwa [List.append_nil] at hq
    | act => cases ha
    | report => cases ha
    | loop => cases ha
  · rw [← List.append_assoc]
    exact hf b ((hp hw hg₁).2 b rfl) hg₂

theorem keeps_inLoop {round : σ → Process (σ ⊕ α)} {I : σ → Assertion}
    (hround : ∀ s, Keeps others (I s) (round s) T (Sum.elim I Q))
    {x : Process (σ ⊕ α)} {w u : FrontEnd} {t₀ t : List Move} {q : Process α}
    (hx : Keeps others (Now t₀ w) x T (Sum.elim I Q)) (h : InLoop others round .done x w t q u) :
    T (t₀ ++ t) ∧ ∀ a, q = .done a → Q a (t₀ ++ t) u := by
  induction h generalizing t₀ with
  | @inside p p' w u t hg =>
    obtain ⟨ht, hq⟩ := hx ⟨rfl, rfl⟩ hg
    refine ⟨ht, fun a ha => ?_⟩
    cases p' with
    | done y =>
      cases y with
      | inl s => cases ha
      | inr b =>
        cases ha
        exact hq _ rfl
    | act => cases ha
    | report => cases ha
    | loop => cases ha
  | past hg hb =>
    obtain ⟨rfl, rfl, hu⟩ := goes_done hb
    have hg' := hg.trans (Goes.wait _ hu)
    obtain ⟨ht, hq⟩ := hx ⟨rfl, rfl⟩ hg'
    refine ⟨ht, fun a ha => ?_⟩
    cases ha
    exact hq _ rfl
  | @next p s w v u t t' q hg _ ih =>
    have hs : I s (t₀ ++ t) v := (hx ⟨rfl, rfl⟩ hg).2 _ rfl
    rw [← List.append_assoc]
    exact ih ((hround s).now hs)

theorem keeps_resume {round : σ → Process (σ ⊕ α)} {I : σ → Assertion} {x : Process (σ ⊕ α)}
    (hround : ∀ s, Keeps others (I s) (round s) T (Sum.elim I Q))
    (hx : Keeps others P x T (Sum.elim I Q)) :
    Keeps others P (x.bind (resume round .done)) T Q :=
  fun _ _ _ _ _ hw hg => keeps_inLoop hround (hx.now hw) (goes_loop hg)

/-- **Loops.** What `I` says of the state and of all moves so far holds before each round. -/
theorem keeps_iterate {s : σ} {round : σ → Process (σ ⊕ α)} {I : σ → Assertion}
    (h₀ : ∀ t w, P t w → I s t w) (hT : ∀ t w, I s t w → T t) (hI : Stable others (I s))
    (hround : ∀ s, Keeps others (I s) (round s) T (Sum.elim I Q)) :
    Keeps others P (iterate s round) T Q := by
  have hs : Keeps others (I s) (.done (.inl s) : Process (σ ⊕ α)) T (Sum.elim I Q) :=
    keeps_done hT fun _ _ _ hv hu => hI.closure hu hv
  exact keeps_resume hround (hs.pre h₀)

/-! ## Moves of one kind -/

/-- Every move of the trace is as `G` says. -/
def All (G : Move → Prop) (t : List Move) : Prop :=
  ∀ m ∈ t, G m

variable {G : Move → Prop}

theorem all_nil : All G [] := by
  intro m hm
  cases hm

theorem all_cons {m : Move} {t : List Move} : All G (m :: t) ↔ G m ∧ All G t :=
  List.forall_mem_cons

theorem all_append {t t' : List Move} : All G (t ++ t') ↔ All G t ∧ All G t' :=
  List.forall_mem_append

theorem all_snoc {t : List Move} {m : Move} (h : All G t) (hm : G m) : All G (t ++ [m]) :=
  all_append.2 ⟨h, all_cons.2 ⟨hm, all_nil⟩⟩

/-- **What every move and the others keep** is kept. -/
theorem goes_kept {I : FrontEnd → Prop} {q : Process α} {w u : FrontEnd} {t : List Move}
    (ho : ∀ v u, others v u → I v → I u) (h : Goes others p w t q u)
    (ht : All (fun m => I m.before → I m.after) t) (hw : I w) : I u := by
  induction h with
  | stay => exact hw
  | other hvu _ ih => exact ih ht (ho _ _ hvu hw)
  | act _ ih => exact ih (all_cons.1 ht).2 ((all_cons.1 ht).1 hw)
  | report _ ih => exact ih (all_cons.1 ht).2 ((all_cons.1 ht).1 hw)
  | loop _ ih => exact ih ht hw

/-! ## What a process consists of -/

/-- All actions of a process are `allowed`, whatever is answered to them. -/
def Only (allowed : Action → Prop) : {α : Type} → Process α → Prop
  | _, .done _ => True
  | _, .act a k => allowed a ∧ ∀ r, Only allowed (k r)
  | _, .report _ k => Only allowed k
  | _, .loop round _ k => (∀ s, Only allowed (round s)) ∧ ∀ b, Only allowed (k b)

variable {allowed : Action → Prop}

theorem Only.bind {p : Process β} {f : β → Process α} (hp : Only allowed p)
    (hf : ∀ b, Only allowed (f b)) : Only allowed (p.bind f) := by
  induction p with
  | done b => exact hf b
  | act a k ih => exact ⟨hp.1, fun r => ih r (hp.2 r) hf⟩
  | report r k ih => exact ih hp hf
  | loop round s k _ ih => exact ⟨hp.1, fun b => ih b (hp.2 b) hf⟩

/-- **A process only makes moves that it consists of.** -/
theorem goes_only {q : Process α} {w u : FrontEnd} {t : List Move} (hp : Only allowed p)
    (h : Goes others p w t q u) : All (Move.Is allowed) t ∧ Only allowed q := by
  induction h with
  | stay => exact ⟨all_nil, hp⟩
  | other _ _ ih => exact ih hp
  | act _ ih => exact ⟨all_cons.2 ⟨hp.1, (ih (hp.2 _)).1⟩, (ih (hp.2 _)).2⟩
  | report _ ih => exact ⟨all_cons.2 ⟨trivial, (ih hp).1⟩, (ih hp).2⟩
  | @loop σ β round s k _ _ _ _ _ ih =>
    refine ih ((hp.1 s).bind fun x => ?_)
    cases x with
    | inl s => exact hp
    | inr b => exact hp.2 b

/-- **What every move of a process keeps** is kept by the process. -/
theorem keeps_moves (hP : Stable others P) (hT : ∀ t w, P t w → T t)
    (ha : ∀ a t w, allowed a → P t w → P (t ++ [.act a w]) (a.perform w).2)
    (hr : ∀ r t w, P t w → P (t ++ [.report r w]) (w.tell r).2) (hp : Only allowed p) :
    Keeps others P p T fun _ => P := by
  intro t₀ w t q u hw hg
  suffices h : P (t₀ ++ t) u from ⟨hT _ _ h, fun _ _ => h⟩
  induction hg generalizing t₀ with
  | stay =>
    rw [List.append_nil]
    exact hw
  | other ho _ ih => exact ih hp (hP _ _ _ ho hw)
  | act _ ih =>
    rw [List.append_cons]
    exact ih (hp.2 _) (ha _ _ _ hp.1 hw)
  | report _ ih =>
    rw [List.append_cons]
    exact ih hp (hr _ _ _ hw)
  | @loop σ β round s k _ _ _ _ _ ih =>
    refine ih ((hp.1 s).bind fun x => ?_) hw
    cases x with
    | inl s => exact hp
    | inr b => exact hp.2 b

/-- **What is kept by every action that a process consists of** is kept by the process. -/
theorem keeps_only {P : FrontEnd → Prop} (hP : Stable others fun _ => P)
    (ha : ∀ a w, allowed a → P w → P (a.perform w).2) (hr : ∀ r w, P w → P (w.tell r).2)
    (hp : Only allowed p) : Keeps others (fun _ => P) p (fun _ => True) fun _ _ => P :=
  keeps_moves hP (fun _ _ _ => trivial) (fun a _ w => ha a w) (fun r _ w => hr r w) hp

/-! ## Processes that come to an end -/

/-- What `Keeps` says; and if the others leave it alone, the process comes to an end. -/
def Attains (others : FrontEnd → FrontEnd → Prop) (P : Assertion) (p : Process α)
    (T : List Move → Prop) (Q : α → Assertion) : Prop :=
  Keeps others P p T Q ∧ ∀ t w, P t w → Returns p w

theorem Attains.pre (h : Attains others P p T Q) (hP : ∀ t w, P' t w → P t w) :
    Attains others P' p T Q :=
  ⟨h.1.pre hP, fun t w hw => h.2 t w (hP t w hw)⟩

theorem Attains.now (h : Attains others P p T Q) {t : List Move} {w : FrontEnd} (hw : P t w) :
    Attains others (Now t w) p T Q :=
  h.pre fun _ _ he => he.1 ▸ he.2 ▸ hw

theorem attains_stay {a : α} (hP : Stable others P) (hT : ∀ t w, P t w → T t)
    (h : ∀ t w, P t w → Q a t w) : Attains others P (.done a) T Q :=
  ⟨keeps_stay hP hT h, fun _ w _ => ⟨[], a, w, .stay ..⟩⟩

theorem attains_perform {a : Action} {f : a.Answer → Process α} (hP : Stable others P)
    (hT : ∀ t w, P t w → T t)
    (h : ∀ t w, P t w →
      Attains others (Now (t ++ [.act a w]) (a.perform w).2) (f (a.perform w).1) T Q) :
    Attains others P (perform a >>= f) T Q := by
  refine ⟨keeps_perform hP hT fun t w hw => (h t w hw).1, fun t w hw => ?_⟩
  obtain ⟨t', b, u, hg⟩ := (h t w hw).2 _ _ ⟨rfl, rfl⟩
  exact ⟨_, b, u, .act hg⟩

theorem attains_tell {r : Report} {f : Unit → Process α} (hP : Stable others P)
    (hT : ∀ t w, P t w → T t)
    (h : ∀ t w, P t w → Attains others (Now (t ++ [.report r w]) (w.tell r).2) (f ()) T Q) :
    Attains others P (tell r >>= f) T Q := by
  refine ⟨keeps_tell hP hT fun t w hw => (h t w hw).1, fun t w hw => ?_⟩
  obtain ⟨t', b, u, hg⟩ := (h t w hw).2 _ _ ⟨rfl, rfl⟩
  exact ⟨_, b, u, .report hg⟩

theorem Keeps.returns (h : Keeps others P p T Q) {t t' : List Move} {w u : FrontEnd} {a : α}
    (hw : P t w) (hg : Goes Nobody p w t' (.done a) u) : Q a (t ++ t') u :=
  (h hw (hg.mono fun _ _ ho => ho.elim)).2 a rfl

theorem attains_bind {p : Process β} {f : β → Process α} {M : β → Assertion}
    (hp : Attains others P p T M) (hf : ∀ b, Attains others (M b) (f b) T Q) :
    Attains others P (p >>= f) T Q := by
  refine ⟨keeps_bind hp.1 fun b => (hf b).1, fun t w hw => ?_⟩
  obtain ⟨t₁, b, v, h₁⟩ := hp.2 t w hw
  obtain ⟨t₂, a, u, h₂⟩ := (hf b).2 _ v (hp.1.returns hw h₁)
  exact ⟨_, a, u, (Goes.bind f h₁).trans h₂⟩

theorem attains_once {s : σ} {round : σ → Process (σ ⊕ α)} (hP : Stable others P)
    (hT : ∀ t w, P t w → T t)
    (h : ∀ s, Attains others P (round s) T (Sum.elim (fun _ _ _ => False) Q)) :
    Attains others P (iterate s round) T Q := by
  refine ⟨keeps_iterate (I := fun _ => P) (fun _ _ hw => hw) hT hP fun s => ?_, fun t w hw => ?_⟩
  · refine (h s).1.post fun x t u hx => ?_
    cases x with
    | inl s => exact hx.elim
    | inr b => exact hx
  · obtain ⟨t', x, u, hg⟩ := (h s).2 t w hw
    have hx := (h s).1.returns hw hg
    cases x with
    | inl s => exact hx.elim
    | inr b =>
      have hrest : Goes Nobody ((Process.done (.inr b)).bind (resume round .done)) u []
          (.done b) u := .stay ..
      exact ⟨_, b, u, .loop ((Goes.bind _ hg).trans hrest)⟩

end DisplayList.Process
