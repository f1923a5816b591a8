import DisplayList.Run
import Mathlib.Logic.Relation

/-!
# Processes beside others

A process seldom has the front end to itself: between any two of its moves, producers, other
threads and the host's own callbacks may act. `Goes` is a run of a process beside others, who do
what a relation allows them; a report is heard by the host, and what the host does about it is left
to the others.

* `Move`, `Goes`: the moves that a process makes, each with the state in which it is made;
* `Goes.trans`, `Goes.bind`, **`goes_bind`**, **`goes_loop`**: runs of a process are put together
  from runs of its parts;
* `Somebody`: others whose actions are restricted;
* `Returns`, `MayMake`: a process that ends if left alone, and one that may come to some move;
* **`goes_of_run`**: a run in which the host reacts is a run beside others.
-/

namespace DisplayList

/-- What a process did itself, and the state in which it did it. -/
inductive Move where
  | act (a : Action) (w : FrontEnd)
  | report (r : Report) (w : FrontEnd)

/-- The state in which a move is made. -/
def Move.before : Move → FrontEnd
  | act _ w => w
  | report _ w => w

/-- The state after a move. -/
def Move.after : Move → FrontEnd
  | act a w => (a.perform w).2
  | report r w => (w.tell r).2

/-- A report, or an `allowed` action. -/
def Move.Is (allowed : Action → Prop) : Move → Prop
  | act a _ => allowed a
  | report .. => True

namespace Process

variable {α β σ : Type}

/-- How a loop goes on after a round. -/
def resume (round : σ → Process (σ ⊕ β)) (k : β → Process α) : σ ⊕ β → Process α
  | .inl s => .loop round s k
  | .inr b => k b

theorem next_loop (round : σ → Process (σ ⊕ β)) (s : σ) (k : β → Process α) (w : FrontEnd) :
    (Process.loop round s k).next w = ((round s).bind (resume round k), w) := by
  change ((round s).bind _, w) = _
  congr 2
  funext x
  cases x <;> rfl

theorem run_loop (round : σ → Process (σ ⊕ β)) (s : σ) (k : β → Process α) (n : Nat)
    (w : FrontEnd) :
    (Process.loop round s k).run (n + 1) w = ((round s).bind (resume round k)).run n w := by
  change ((Process.loop round s k).next w).1.run n ((Process.loop round s k).next w).2 = _
  rw [next_loop]

/-- `Goes others p w t q u`: beside `others`, the process `p` started in the state `w` comes to `q`
in the state `u` by the moves `t`. -/
inductive Goes (others : FrontEnd → FrontEnd → Prop) {α : Type} :
    Process α → FrontEnd → List Move → Process α → FrontEnd → Prop
  | stay (p : Process α) (w : FrontEnd) : Goes others p w [] p w
  | other {p q : Process α} {w v u : FrontEnd} {t : List Move} :
    others w v → Goes others p v t q u → Goes others p w t q u
  | act {a : Action} {k : a.Answer → Process α} {q : Process α} {w u : FrontEnd} {t : List Move} :
    Goes others (k (a.perform w).1) (a.perform w).2 t q u →
    Goes others (.act a k) w (.act a w :: t) q u
  | report {r : Report} {k q : Process α} {w u : FrontEnd} {t : List Move} :
    Goes others k (w.tell r).2 t q u → Goes others (.report r k) w (.report r w :: t) q u
  | loop {σ β : Type} {round : σ → Process (σ ⊕ β)} {s : σ} {k : β → Process α} {q : Process α}
    {w u : FrontEnd} {t : List Move} :
    Goes others ((round s).bind (resume round k)) w t q u → Goes others (.loop round s k) w t q u

variable {others : FrontEnd → FrontEnd → Prop} {p q : Process α} {w v u : FrontEnd}
  {t t' : List Move}

theorem Goes.trans {r : Process α} (h : Goes others p w t q v) (h' : Goes others q v t' r u) :
    Goes others p w (t ++ t') r u := by
  induction h with
  | stay => exact h'
  | other ho _ ih => exact .other ho (ih h')
  | act _ ih => exact .act (ih h')
  | report _ ih => exact .report (ih h')
  | loop _ ih => exact .loop (ih h')

theorem Goes.wait (p : Process α) (h : Relation.ReflTransGen others w u) :
    Goes others p w [] p u := by
  induction h using Relation.ReflTransGen.head_induction_on with
  | refl => exact .stay p u
  | head ho _ ih => exact .other ho ih

theorem Goes.mono {others' : FrontEnd → FrontEnd → Prop} (hle : ∀ w v, others w v → others' w v)
    (h : Goes others p w t q u) : Goes others' p w t q u := by
  induction h with
  | stay => exact .stay ..
  | other ho _ ih => exact .other (hle _ _ ho) ih
  | act _ ih => exact .act ih
  | report _ ih => exact .report ih
  | loop _ ih => exact .loop ih

/-! ## Sequences -/

theorem resume_bind {γ : Type} (round : σ → Process (σ ⊕ β)) (k : β → Process α)
    (f : α → Process γ) (p : Process (σ ⊕ β)) :
    (p.bind (resume round k)).bind f = p.bind (resume round fun b => (k b).bind f) := by
  rw [bind_assoc]
  congr 1
  funext x
  cases x <;> rfl

theorem Goes.bind (f : α → Process β) (h : Goes others p w t q u) :
    Goes others (p.bind f) w t (q.bind f) u := by
  induction h with
  | stay => exact .stay ..
  | other ho _ ih => exact .other ho ih
  | act _ ih => exact .act ih
  | report _ ih => exact .report ih
  | loop _ ih =>
    refine .loop ?_
    rw [← resume_bind]
    exact ih

theorem goes_done {a : α} (h : Goes others (.done a) w t q u) :
    t = [] ∧ q = .done a ∧ Relation.ReflTransGen others w u := by
  generalize hp : Process.done a = p at h
  induction h with
  | stay => exact ⟨rfl, rfl, .refl⟩
  | other ho _ ih =>
    obtain ⟨ht, hq, hu⟩ := ih hp
    exact ⟨ht, hq, .head ho hu⟩
  | act => cases hp
  | report => cases hp
  | loop => cases hp

/-- The first move of a process that is about to act. -/
theorem Goes.eq_act {a : Action} {k : a.Answer → Process α} {m : Move}
    (h : Goes others (.act a k) w (m :: t) q u) : m = .act a m.before := by
  generalize hp : Process.act a k = p at h
  generalize ht : m :: t = t' at h
  induction h with
  | stay => cases ht
  | other _ _ ih => exact ih hp ht
  | act =>
    cases hp
    cases ht
    rfl
  | report => cases hp
  | loop => cases hp

/-- **Runs of a sequence.** Either the first process is under way, or it is done and the rest is. -/
theorem goes_bind {f : α → Process β} {q : Process β} (h : Goes others (p.bind f) w t q u) :
    (∃ p', q = p'.bind f ∧ Goes others p w t p' u) ∨
      ∃ a v t₁ t₂, t = t₁ ++ t₂ ∧ Goes others p w t₁ (.done a) v ∧ Goes others (f a) v t₂ q u := by
  generalize hP : p.bind f = P at h
  induction h generalizing p with
  | stay _ w => exact .inl ⟨p, hP.symm, .stay ..⟩
  | other ho _ ih =>
    obtain ⟨p', hq, hp⟩ | ⟨a, v, t₁, t₂, ht, h₁, h₂⟩ := ih hP
    · exact .inl ⟨p', hq, .other ho hp⟩
    · exact .inr ⟨a, v, t₁, t₂, ht, .other ho h₁, h₂⟩
  | act h ih =>
    cases p with
    | done a =>
      refine .inr ⟨a, _, [], _, rfl, .stay .., ?_⟩
      change Goes others ((Process.done a).bind f) _ _ _ _
      rw [hP]
      exact .act h
    | act a k =>
      cases hP
      obtain ⟨p', hq, hp⟩ | ⟨b, v, t₁, t₂, ht, h₁, h₂⟩ := ih rfl
      · exact .inl ⟨p', hq, .act hp⟩
      · exact .inr ⟨b, v, _ :: t₁, t₂, by rw [ht, List.cons_append], .act h₁, h₂⟩
    | report => cases hP
    | loop => cases hP
  | report h ih =>
    cases p with
    | done a =>
      refine .inr ⟨a, _, [], _, rfl, .stay .., ?_⟩
      change Goes others ((Process.done a).bind f) _ _ _ _
      rw [hP]
      exact .report h
    | report r k =>
      cases hP
      obtain ⟨p', hq, hp⟩ | ⟨b, v, t₁, t₂, ht, h₁, h₂⟩ := ih rfl
      · exact .inl ⟨p', hq, .report hp⟩
      · exact .inr ⟨b, v, _ :: t₁, t₂, by rw [ht, List.cons_append], .report h₁, h₂⟩
    | act => cases hP
    | loop => cases hP
  | loop h ih =>
    cases p with
    | done a =>
      refine .inr ⟨a, _, [], _, rfl, .stay .., ?_⟩
      change Goes others ((Process.done a).bind f) _ _ _ _
      rw [hP]
      exact .loop h
    | loop round s k =>
      cases hP
      obtain ⟨p', hq, hp⟩ | ⟨b, v, t₁, t₂, ht, h₁, h₂⟩ := ih (resume_bind ..)
      · exact .inl ⟨p', hq, .loop hp⟩
      · exact .inr ⟨b, v, t₁, t₂, ht, .loop h₁, h₂⟩
    | act => cases hP
    | report => cases hP

/-! ## Loops -/

/-- Where a loop may be that is at `p` in some round: in that round still, past the loop, or in a
round after it. A loop before its next round is a round that is done. -/
inductive InLoop (others : FrontEnd → FrontEnd → Prop) (round : σ → Process (σ ⊕ β))
    (k : β → Process α) :
    Process (σ ⊕ β) → FrontEnd → List Move → Process α → FrontEnd → Prop
  | inside {p p' : Process (σ ⊕ β)} {w u : FrontEnd} {t : List Move} :
    Goes others p w t p' u → InLoop others round k p w t (p'.bind (resume round k)) u
  | past {p : Process (σ ⊕ β)} {b : β} {w v u : FrontEnd} {t t' : List Move} {q : Process α} :
    Goes others p w t (.done (.inr b)) v → Goes others (k b) v t' q u →
    InLoop others round k p w (t ++ t') q u
  | next {p : Process (σ ⊕ β)} {s : σ} {w v u : FrontEnd} {t t' : List Move} {q : Process α} :
    Goes others p w t (.done (.inl s)) v → InLoop others round k (round s) v t' q u →
    InLoop others round k p w (t ++ t') q u

theorem InLoop.prepend {round : σ → Process (σ ⊕ β)} {k : β → Process α}
    {p p' : Process (σ ⊕ β)}
    (hp : ∀ {t' q u}, Goes others p' v t' q u → Goes others p w (t ++ t') q u)
    (h : InLoop others round k p' v t' q u) : InLoop others round k p w (t ++ t') q u := by
  cases h with
  | inside h => exact .inside (hp h)
  | past h h' =>
    rw [← List.append_assoc]
    exact .past (hp h) h'
  | next h h' =>
    rw [← List.append_assoc]
    exact .next (hp h) h'

/-- **Runs of a loop**, from the middle of a round on. -/
theorem goes_loop {round : σ → Process (σ ⊕ β)} {k : β → Process α} {p : Process (σ ⊕ β)}
    (h : Goes others (p.bind (resume round k)) w t q u) : InLoop others round k p w t q u := by
  -- A round that does nothing leaves no move behind: the induction is on the run, not on `t`.
  generalize hP : p.bind (resume round k) = P at h
  induction h generalizing p with
  | stay _ w =>
    rw [← hP]
    exact .inside (.stay ..)
  | other ho _ ih => exact (ih hP).prepend (t := []) (.other ho)
  | act h ih =>
    cases p with
    | done x =>
      cases x with
      | inl s => cases hP
      | inr b =>
        refine .past (t := []) (.stay ..) ?_
        change Goes others ((Process.done (.inr b)).bind (resume round k)) _ _ _ _
        rw [hP]
        exact .act h
    | act a k' =>
      cases hP
      exact (ih rfl).prepend (t := [_]) .act
    | report => cases hP
    | loop => cases hP
  | report h ih =>
    cases p with
    | done x =>
      cases x with
      | inl s => cases hP
      | inr b =>
        refine .past (t := []) (.stay ..) ?_
        change Goes others ((Process.done (.inr b)).bind (resume round k)) _ _ _ _
        rw [hP]
        exact .report h
    | report r k' =>
      cases hP
      exact (ih rfl).prepend (t := [_]) .report
    | act => cases hP
    | loop => cases hP
  | loop h ih =>
    cases p with
    | done x =>
      cases x with
      | inl s =>
        cases hP
        exact .next (t := []) (.stay ..) (ih rfl)
      | inr b =>
        refine .past (t := []) (.stay ..) ?_
        change Goes others ((Process.done (.inr b)).bind (resume round k)) _ _ _ _
        rw [hP]
        exact .loop h
    | loop round' s k' =>
      cases hP
      exact (ih (resume_bind ..)).prepend (t := []) .loop
    | act => cases hP
    | report => cases hP

/-! ## Others of some kind -/

/-- Somebody all of whose actions are `allowed`. -/
inductive Somebody (allowed : Action → Prop) : FrontEnd → FrontEnd → Prop
  | act {a : Action} (ha : allowed a) (w : FrontEnd) : Somebody allowed w (a.perform w).2
  | tell (r : Report) (w : FrontEnd) : Somebody allowed w (w.tell r).2

/-- Others who may do everything. -/
abbrev Anybody : FrontEnd → FrontEnd → Prop := Somebody fun _ => True

theorem somebody_move {allowed : Action → Prop} {m : Move} (h : m.Is allowed) :
    Somebody allowed m.before m.after := by
  cases m with
  | act a w => exact .act h w
  | report r w => exact .tell r w

/-- No others. -/
def Nobody : FrontEnd → FrontEnd → Prop := fun _ _ => False

theorem eq_of_nobody (h : Relation.ReflTransGen Nobody w u) : u = w := by
  induction h with
  | refl => rfl
  | tail _ h => exact h.elim

/-- The process comes to an end if it is left alone. -/
def Returns (p : Process α) (w : FrontEnd) : Prop :=
  ∃ t a u, Goes Nobody p w t (.done a) u

/-! ## Moves that may be made -/

/-- The process may come to make a move that is as `B` says. -/
def MayMake (others : FrontEnd → FrontEnd → Prop) (p : Process α) (w : FrontEnd)
    (B : Move → Prop) : Prop :=
  ∃ t q u, Goes others p w t q u ∧ ∃ m ∈ t, B m

variable {B : Move → Prop}

theorem MayMake.here {a : Action} {k : a.Answer → Process α} (h : B (.act a w)) :
    MayMake others (.act a k) w B :=
  ⟨_, _, _, .act (.stay ..), _, List.mem_singleton_self _, h⟩

theorem MayMake.other (ho : others w v) (h : MayMake others p v B) : MayMake others p w B := by
  obtain ⟨t, q, u, h, m, hm, hB⟩ := h
  exact ⟨t, q, u, .other ho h, m, hm, hB⟩

theorem MayMake.act {a : Action} {k : a.Answer → Process α}
    (h : MayMake others (k (a.perform w).1) (a.perform w).2 B) :
    MayMake others (.act a k) w B := by
  obtain ⟨t, q, u, h, m, hm, hB⟩ := h
  exact ⟨_, q, u, .act h, m, List.mem_cons_of_mem _ hm, hB⟩

theorem MayMake.report {r : Report} {k : Process α} (h : MayMake others k (w.tell r).2 B) :
    MayMake others (.report r k) w B := by
  obtain ⟨t, q, u, h, m, hm, hB⟩ := h
  exact ⟨_, q, u, .report h, m, List.mem_cons_of_mem _ hm, hB⟩

theorem MayMake.loop {round : σ → Process (σ ⊕ β)} {s : σ} {k : β → Process α}
    (h : MayMake others ((round s).bind (resume round k)) w B) :
    MayMake others (.loop round s k) w B := by
  obtain ⟨t, q, u, h, hB⟩ := h
  exact ⟨t, q, u, .loop h, hB⟩

/-! ## The middle of a run -/

/-- **A run cut at one of its moves.** What is left there is about to make this move. -/
theorem goes_cut {a b : List Move} {m : Move} (h : Goes others p w (a ++ m :: b) q u) :
    ∃ r, Goes others p w a r m.before ∧ Goes others r m.before (m :: b) q u ∧
      ∀ e v, m = .act e v → ∃ k, r = .act e k := by
  generalize ht : a ++ m :: b = t at h
  induction h generalizing a with
  | stay => simp at ht
  | other ho _ ih =>
    obtain ⟨r, hr, hrest⟩ := ih ht
    exact ⟨r, .other ho hr, hrest⟩
  | @act e k q w u t h ih =>
    cases a with
    | nil =>
      cases ht
      refine ⟨.act e k, .stay .., .act h, fun e' v hm => ?_⟩
      cases hm
      exact ⟨k, rfl⟩
    | cons m' a =>
      cases ht
      obtain ⟨r, hr, hrest⟩ := ih rfl
      exact ⟨r, .act hr, hrest⟩
  | @report e k q w u t h ih =>
    cases a with
    | nil =>
      cases ht
      refine ⟨.report e k, .stay .., .report h, fun e' v hm => ?_⟩
      cases hm
    | cons m' a =>
      cases ht
      obtain ⟨r, hr, hrest⟩ := ih rfl
      exact ⟨r, .report hr, hrest⟩
  | loop _ ih =>
    obtain ⟨r, hr, hrest⟩ := ih ht
    exact ⟨r, .loop hr, hrest⟩

theorem goes_split {a b : List Move} {m : Move} (h : Goes others p w (a ++ m :: b) q u) :
    ∃ r, Goes others p w a r m.before := by
  obtain ⟨r, hr, -⟩ := goes_cut h
  exact ⟨r, hr⟩

/-! ## Anybody -/

theorem Goes.anybody (h : Goes Anybody p w t q u) : Relation.ReflTransGen Anybody w u := by
  induction h with
  | stay => exact .refl
  | other ho _ ih => exact .head ho ih
  | act _ ih => exact .head (.act trivial _) ih
  | report _ ih => exact .head (.tell ..) ih
  | loop _ ih => exact ih

/-- **A run in which the host reacts is a run beside others**, who do what the host does. -/
theorem goes_of_run {a : α} {n : Nat} (h : p.run n w = some (a, u)) :
    ∃ t, Goes Anybody p w t (.done a) u := by
  induction n generalizing p w with
  | zero => cases h
  | succ n ih =>
    cases p with
    | done b =>
      cases h
      exact ⟨[], .stay ..⟩
    | act b k =>
      obtain ⟨t, ht⟩ := ih h
      exact ⟨_, .act ht⟩
    | report r k =>
      obtain ⟨t, ht⟩ := ih h
      obtain ⟨p', hq, hp⟩ | ⟨b, v, t₁, t₂, -, h₁, h₂⟩ := goes_bind ht
      · cases p' with
        | done b =>
          obtain rfl : k = .done a := hq.symm
          exact ⟨[.report r w], .report (Goes.wait _ hp.anybody)⟩
        | act => cases hq
        | report => cases hq
        | loop => cases hq
      · exact ⟨_, .report ((Goes.wait _ h₁.anybody).trans h₂)⟩
    | loop round s k =>
      rw [run_loop] at h
      obtain ⟨t, ht⟩ := ih h
      exact ⟨t, .loop ht⟩

end Process

end DisplayList
