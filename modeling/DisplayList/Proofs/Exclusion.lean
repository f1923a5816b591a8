import DisplayList.Proofs.Cancellation
import DisplayList.Proofs.Queueing
import DisplayList.Proofs.Submitting

/-!
# Lists that exclude each other

The pool looks at the lists still running only when it admits one. As long as nobody but the pool
and the engine touches the lists, none comes to life again after that, so that no two lists still
running were submitted at one address or share a stack.

* `FrontEnd.Exclusive`, `Move.Calm`: no two lists in each other's way, and the moves after which
  there are none if there were none before;
* **`goes_held`**, **`goes_calm`**: the engine brings no list back to life, as long as others leave
  the lists alone;
* `keeps_isBusy`, **`keeps_submit`**: a submission;
* `Request.OnPool`, **`exclusive_reachable`**: the pool at any moment of any call.
-/

namespace DisplayList

namespace FrontEnd

/-- No two lists still running were submitted at one address, or share a stack. -/
def Exclusive (w : FrontEnd) : Prop :=
  ∀ i < w.poolSize, ∀ j < w.poolSize, i ≠ j → (w.slot i).isDone = false →
    (w.slot j).isDone = false → (w.slot i).list ≠ (w.slot j).list ∧
      ((w.slot i).stack ≠ 0 → (w.slot i).stack ≠ (w.slot j).stack)

end FrontEnd

/-- The list has not come to life, and is submitted where it was. -/
structure Slot.Calm (s s' : Slot) : Prop where
  isDone : s.isDone = true → s'.isDone = true
  list : s'.list = s.list
  params : s'.params = s.params

theorem Slot.Calm.refl (s : Slot) : s.Calm s :=
  ⟨fun h => h, rfl, rfl⟩

/-- The move keeps the pool exclusive. -/
def Move.Excludes (m : Move) : Prop :=
  m.before.Exclusive → m.after.Exclusive

/-- Every list stays calm. -/
def Move.Calm (m : Move) : Prop :=
  ∀ j, (m.before.slot j).Calm (m.after.slot j)

/-- The action touches no list. -/
def Action.Aside (a : Action) : Prop :=
  ∀ i m s, a.onto i m s = s

namespace FrontEnd

variable {w v : FrontEnd}

theorem Exclusive.of_fresh (h : w.Fresh) : w.Exclusive := by
  intro i _ j _ _ hi
  obtain ⟨id, hs⟩ := h i
  rw [hs] at hi
  cases hi

theorem Exclusive.calm (h : w.Exclusive) (hsize : v.poolSize = w.poolSize)
    (hslot : ∀ j, (w.slot j).Calm (v.slot j)) : v.Exclusive := by
  have hdone : ∀ j, (v.slot j).isDone = false → (w.slot j).isDone = false := by
    intro j hj
    by_contra hd
    rw [(hslot j).isDone (by simpa using hd)] at hj
    cases hj
  have hstack : ∀ j, (v.slot j).stack = (w.slot j).stack := by
    intro j
    simp only [Slot.stack, (hslot j).params]
  intro i hi j hj hne hdi hdj
  rw [hsize] at hi hj
  rw [(hslot i).list, (hslot j).list, hstack i, hstack j]
  exact h i hi j hj hne (hdone i hdi) (hdone j hdj)

theorem Exclusive.init (h : w.Exclusive) {i : Nat} {sub : Submission}
    (hfree : w.isBusy (Address.aligned sub.list) sub.stack (List.range w.poolSize) = false) :
    ((Action.change i (.init sub)).perform w).2.Exclusive := by
  generalize hv : ((Action.change i (.init sub)).perform w).2 = v
  have hsize : v.poolSize = w.poolSize := hv ▸ (Action.perform_settled _ w).2
  have hold : ∀ j, j ≠ i → v.slot j = w.slot j := by
    intro j hj
    have hij : ¬ i = j := fun he => hj he.symm
    rw [← hv, Action.slot_perform, Action.onto_change, if_neg hij, ite_self]
  have hnew : (v.slot i).isDone = false →
      (v.slot i).list = Address.aligned sub.list ∧ (v.slot i).stack = sub.stack := by
    intro hd
    have hi := lt_size hd
    rw [← hv, Action.size_perform] at hi
    rw [← hv, Action.slot_perform, if_pos hi, Action.onto_change, if_pos rfl]
    obtain ⟨f, hf⟩ := (w.slot i).init_frame sub
    change ((w.slot i).init sub).list = _ ∧ ((w.slot i).init sub).stack = _
    rw [hf]
    exact ⟨rfl, rfl⟩
  -- No list still running is in the way of the new one.
  have hother : ∀ j < w.poolSize, (w.slot j).isDone = false →
      (w.slot j).list ≠ Address.aligned sub.list ∧
        (sub.stack ≠ 0 → (w.slot j).stack ≠ sub.stack) := by
    intro j hj hd
    have hbusy := List.any_eq_false.1 hfree j (List.mem_range.2 hj)
    simpa [hd, Slot.isInUse] using hbusy
  intro j hj k hk hne hdj hdk
  rw [hsize] at hj hk
  by_cases hji : j = i
  · subst hji
    obtain ⟨hlist, hstack⟩ := hnew hdj
    rw [hold k (Ne.symm hne)] at hdk ⊢
    obtain ⟨hlist', hstack'⟩ := hother k hk hdk
    rw [hlist, hstack]
    exact ⟨hlist'.symm, fun h0 => (hstack' h0).symm⟩
  · rw [hold j hji] at hdj ⊢
    by_cases hki : k = i
    · subst hki
      obtain ⟨hlist, hstack⟩ := hnew hdk
      obtain ⟨hlist', hstack'⟩ := hother j hj hdj
      rw [hlist, hstack]
      refine ⟨hlist', fun h0 he => hstack' ?_ he⟩
      rw [← he]
      exact h0
    · rw [hold k hki] at hdk ⊢
      exact h j hj k hk hne hdj hdk

end FrontEnd

/-- A call on a pool of the builtin engine. -/
inductive Request.OnPool : Request → Prop
  | call {r : Request} : r.Calls → OnPool r
  | setStallWith (i : Nat) (a : Address) (plan : CursorPlan) (start stop : Address) :
    OnPool (.setStallWith i a plan start stop)
  | run (watched : Bool) : OnPool (.run watched)

/-! ## Moves that keep the pool exclusive -/

theorem FrontEnd.poolSize_tell (w : FrontEnd) (r : Report) :
    (w.tell r).2.poolSize = w.poolSize := by
  obtain ⟨host, journal, h⟩ := w.tell_frame r
  rw [h]

theorem Move.Calm.excludes {m : Move} (h : m.Calm) : m.Excludes := by
  refine fun hm => hm.calm ?_ h
  cases m with
  | act a w => exact (Action.perform_settled a w).2
  | report r w => exact w.poolSize_tell r

theorem Held.of_snoc {j : Nat} {t : List Move} {m : Move} (h : Held j (t ++ [m])) :
    (m.after.slot j).isDone = false ∨ Held j t ∧ ¬ m.WritesStatus j :=
  since_concat.1 h

namespace Process

variable {w v u : FrontEnd}

theorem slot_of_aside (h : Somebody Action.Aside w v) (i : Nat) : v.slot i = w.slot i := by
  cases h with
  | act ha => exact Action.slot_perform_of (P := fun s => s = w.slot i) rfl (ha i _ _)
  | tell r => exact FrontEnd.slot_tell w i r

theorem exclusive_of_aside (h : Somebody Action.Aside w v) (hw : w.Exclusive) : v.Exclusive := by
  refine hw.calm ?_ fun j => slot_of_aside h j ▸ .refl _
  cases h with
  | act ha => exact (Action.perform_settled _ w).2
  | tell r => exact w.poolSize_tell r

theorem calm_of_manages {m : Move} (h : m.Is Action.Manages) : m.Calm := by
  intro j
  cases m with
  | report r w =>
    change (w.slot j).Calm ((w.tell r).2.slot j)
    rw [FrontEnd.slot_tell]
    exact .refl _
  | act a w =>
    refine Action.slot_perform_of (P := (w.slot j).Calm) (.refl _) ?_
    cases a with
    | change i c =>
      rw [Action.onto_change]
      split
      · cases c with
        | reset => exact ⟨fun _ => rfl, rfl, rfl⟩
        | moveStall a =>
          simp only [Change.perform, Slot.moveStall]
          split
          · exact .refl _
          · exact ⟨fun hd => hd, rfl, rfl⟩
        | moveStallWith a window =>
          simp only [Change.perform, Slot.moveStallWith, Slot.moveStall]
          split <;> exact ⟨fun hd => hd, rfl, rfl⟩
        | setPaused | setRestarted | postWake => exact ⟨fun hd => hd, rfl, rfl⟩
        | _ => exact h.elim
      · exact .refl _
    | look | poolSize | write | setRegisters | notify => exact .refl _
    | _ => exact h.elim

/-! ## The engine -/

/-- What the engine does with its queue and its lists. -/
def Serves (a : Action) : Prop :=
  (∃ i, a.Steers i) ∨ a.Aside

theorem only_serves (watched : Bool) : Only Serves (Engine.drain watched) :=
  only_drain watched (fun i _ ha => .inl ⟨i, ha⟩) (.inr fun _ _ _ => rfl)
    fun _ => .inr fun _ _ _ => rfl

theorem onto_serves {a : Action} (h : Serves a) (j : Nat) (m : Memory) (s : Slot) :
    (a.onto j m s).list = s.list ∧ (a.onto j m s).params = s.params ∧
      ((∀ status, a ≠ .change j (.setStatus status)) → (a.onto j m s).status = s.status) := by
  rcases h with ⟨i, h | ⟨status, rfl⟩⟩ | h
  · obtain ⟨pc, calls, fetcher, flags, wake, hs⟩ := h.onto_frame j m s
    rw [hs]
    exact ⟨rfl, rfl, fun _ => rfl⟩
  · rw [Action.onto_change]
    split
    next he =>
      subst he
      exact ⟨rfl, rfl, fun hne => absurd rfl (hne status)⟩
    next => exact ⟨rfl, rfl, fun _ => rfl⟩
  · rw [h]
    exact ⟨rfl, rfl, fun _ => rfl⟩

/-- Every list held after the moves `t₀` and some of `t` is not over at the next of them. -/
def HeldRuns (j : Nat) (t₀ t : List Move) : Prop :=
  ∀ a m b, t = a ++ m :: b → Held j (t₀ ++ a) → (m.before.slot j).isDone = false

theorem heldRuns_cons {j : Nat} {t₀ t : List Move} {m : Move}
    (h : Held j t₀ → (m.before.slot j).isDone = false) (ht : HeldRuns j (t₀ ++ [m]) t) :
    HeldRuns j t₀ (m :: t) := by
  intro a m' b he hheld
  cases a with
  | nil =>
    cases he
    rw [List.append_nil] at hheld
    exact h hheld
  | cons x a =>
    cases he
    exact ht a m' b rfl (by simpa using hheld)

theorem isDone_of_held {j : Nat} {t : List Move} {m : Move} (hm : m.Is Serves)
    (h : Held j t → (m.before.slot j).isDone = false) (hheld : Held j (t ++ [m])) :
    (m.after.slot j).isDone = false := by
  rcases hheld.of_snoc with hd | ⟨hheld, hnot⟩
  · exact hd
  have hd := h hheld
  cases m with
  | act a v =>
    refine Action.slot_perform_of (P := fun s => s.isDone = false) hd ?_
    unfold Slot.isDone
    rw [(onto_serves hm j v.memory _).2.2 fun status he => hnot ⟨status, v, by rw [he]⟩]
    exact hd
  | report r v =>
    change ((v.tell r).2.slot j).isDone = false
    rw [FrontEnd.slot_tell]
    exact hd

/-- **A list that the engine holds is not over**, if others leave the lists alone. -/
theorem goes_held {α : Type} {p q : Process α} {t₀ t : List Move} {j : Nat} (hp : Only Serves p)
    (h : Goes (Somebody Action.Aside) p w t q u)
    (hw : Held j t₀ → (w.slot j).isDone = false) : HeldRuns j t₀ t := by
  induction h generalizing t₀ with
  | stay => exact fun a m b he => by simp at he
  | other ho _ ih =>
    refine ih hp fun hheld => ?_
    rw [slot_of_aside ho]
    exact hw hheld
  | @act a _ _ w _ _ _ ih =>
    exact heldRuns_cons hw (ih (hp.2 _) (isDone_of_held (m := .act a w) hp.1 hw))
  | @report r _ _ w _ _ _ ih =>
    exact heldRuns_cons hw (ih hp (isDone_of_held (m := .report r w) trivial hw))
  | @loop σ β round s k _ _ _ _ _ ih =>
    refine ih ((hp.1 s).bind fun x => ?_) hw
    cases x with
    | inl s => exact hp
    | inr b => exact hp.2 b

/-- **The engine brings no list back to life**, if others leave the lists alone. -/
theorem goes_calm {watched : Bool} {t : List Move}
    {q : Process (Except Failure (List (Nat × Outcome)))}
    (h : Goes (Somebody Action.Aside) (Engine.drain watched) w t q u) : All Move.Calm t := by
  intro m hm j
  have honly := only_serves watched
  have hserves := (goes_only honly h).1 m hm
  have hnone : ¬ Held j [] := by
    rintro ⟨a, m, b, he, -⟩
    simp at he
  have hkeeps : m.KeepsOver j := by
    have hany : Goes Anybody (Engine.drain watched) w t q u := by
      refine h.mono fun v u hvu => ?_
      cases hvu with
      | act ha => exact .act trivial v
      | tell r => exact .tell r v
    rcases (keeps_drain watched j Orderly.nil hany).1.mem hm with hk | ⟨a, b, rfl, hheld, -⟩
    · exact hk
    · intro hd
      rw [goes_held honly h (fun hs => absurd hs hnone) a m b rfl hheld] at hd
      cases hd
  refine ⟨hkeeps, ?_, ?_⟩
  · cases m with
    | act a v =>
      exact Action.slot_perform_of (P := fun s => s.list = (v.slot j).list) rfl
        (onto_serves hserves j v.memory _).1
    | report r v => exact congrArg Slot.list (FrontEnd.slot_tell v j r)
  · cases m with
    | act a v =>
      exact Action.slot_perform_of (P := fun s => s.params = (v.slot j).params) rfl
        (onto_serves hserves j v.memory _).2.1
    | report r v => exact congrArg Slot.params (FrontEnd.slot_tell v j r)

/-! ## A submission -/

/-- So far every move has kept the pool exclusive, and the lists are as in `w`. -/
def Searching (w : FrontEnd) : Assertion :=
  fun t v => All Move.Excludes t ∧ v.poolSize = w.poolSize ∧ ∀ j, v.slot j = w.slot j

theorem stable_searching : Stable (Somebody Action.Aside) (Searching w) := by
  rintro t v u hvu ⟨ht, hsize, hslot⟩
  refine ⟨ht, ?_, fun j => (slot_of_aside hvu j).trans (hslot j)⟩
  cases hvu with
  | act ha => exact (Action.perform_settled _ v).2.trans hsize
  | tell r => exact (v.poolSize_tell r).trans hsize

theorem Searching.isBusy {t : List Move} (h : Searching w t v) (list stack : Address) :
    v.isBusy list stack (List.range v.poolSize) = w.isBusy list stack (List.range w.poolSize) := by
  simp only [FrontEnd.isBusy, h.2.1, h.2.2]

theorem excludes_of_manages {m : Move} (h : m.Is Action.Manages) : m.Excludes :=
  (calm_of_manages h).excludes

variable {α : Type} {Q : α → Assertion}

theorem keeps_searched {j : Nat} {f : Slot → Process α}
    (h : Keeps (Somebody Action.Aside) (Searching w) (f (w.slot j)) (All Move.Excludes) Q) :
    Keeps (Somebody Action.Aside) (Searching w) (look j >>= f) (All Move.Excludes) Q := by
  refine keeps_perform stable_searching (fun _ _ hv => hv.1) fun t v hv => ?_
  change Keeps _ (Now _ v) (f (v.slot j)) _ _
  rw [hv.2.2 j]
  exact h.now ⟨all_snoc hv.1 fun hw => hw, hv.2⟩

theorem keeps_searching {a : α} (h : ∀ t v, Searching w t v → Q a t v) :
    Keeps (Somebody Action.Aside) (Searching w) (.done a) (All Move.Excludes) Q :=
  keeps_stay stable_searching (fun _ _ hv => hv.1) h

theorem keeps_isBusy (list stack : Address) (slots : List Nat) :
    Keeps (Somebody Action.Aside) (Searching w) (Pool.isBusy list stack slots) (All Move.Excludes)
      fun busy t v => Searching w t v ∧ busy = w.isBusy list stack slots := by
  induction slots with
  | nil => exact keeps_searching fun t v hv => ⟨hv, rfl⟩
  | cons i slots ih =>
    have hcons : w.isBusy list stack (i :: slots) =
        ((!(w.slot i).isDone && (w.slot i).isInUse list stack) || w.isBusy list stack slots) := rfl
    rw [hcons]
    refine keeps_searched ?_
    cases (w.slot i).isDone with
    | true => exact ih
    | false =>
      refine keeps_searched ?_
      cases (w.slot i).isInUse list stack with
      | true => exact keeps_searching fun t v hv => ⟨hv, rfl⟩
      | false => exact ih

theorem keeps_firstFree (slots : List Nat) :
    Keeps (Somebody Action.Aside) (Searching w) (Pool.firstFree slots) (All Move.Excludes)
      fun _ => Searching w := by
  induction slots with
  | nil => exact keeps_searching fun t v hv => hv
  | cons i slots ih =>
    refine keeps_searched ?_
    split
    · exact keeps_searching fun t v hv => hv
    · exact ih

theorem keeps_manages {p : Process α} (hp : Only Action.Manages p) :
    Keeps (Somebody Action.Aside) (fun t _ => All Move.Excludes t) p (All Move.Excludes)
      fun _ t _ => All Move.Excludes t := by
  intro t₀ v t q u hv hg
  have ht : All Move.Excludes (t₀ ++ t) := all_append.2 ⟨hv, fun m hm =>
    excludes_of_manages ((goes_only hp hg).1 m hm)⟩
  exact ⟨ht, fun _ _ => ht⟩

/-- **A submission keeps the pool exclusive.** -/
theorem keeps_submit (sub : Submission) (p : Placement) :
    Keeps (Somebody Action.Aside) (Searching w) (Request.submit sub p).serve (All Move.Excludes)
      fun _ _ _ => True := by
  have hend : ∀ r : Except Failure Nat, Keeps (Somebody Action.Aside) (Searching w) (.done r)
      (All Move.Excludes) fun _ t _ => All Move.Excludes t :=
    fun r => keeps_searching fun _ _ hv => hv.1
  refine keeps_bind (M := fun _ t _ => All Move.Excludes t) ?_ fun r => ?_
  · rw [submit_eq]
    refine keeps_perform stable_searching (fun _ _ hv => hv.1) fun t v hv => ?_
    change Keeps _ (Now _ v) (Pool.isBusy _ _ (List.range v.poolSize) >>= _) _ _
    rw [hv.2.1]
    refine Keeps.now (P := Searching w) ?_ ⟨all_snoc hv.1 fun hw => hw, hv.2⟩
    refine keeps_bind (keeps_isBusy _ _ _) fun busy => ?_
    split
    · exact (hend _).pre fun _ _ h => h.1
    next hbusy =>
      refine keeps_iff.2 fun t v hv => ?_
      have hfree : w.isBusy (Address.aligned sub.list) sub.stack (List.range w.poolSize) = false :=
        hv.2.symm.trans (Bool.eq_false_iff.2 hbusy)
      refine Keeps.now ?_ hv.1
      refine keeps_bind (keeps_firstFree _) fun free => ?_
      cases free with
      | none => exact hend _
      | some i =>
        refine keeps_perform stable_searching (fun _ _ hv => hv.1) fun t v hv => ?_
        have hnow : All Move.Excludes (t ++ [.act (.change i (.init sub)) v]) := by
          exact all_snoc hv.1 fun hv' => hv'.init ((hv.isBusy _ _).trans hfree)
        refine (keeps_manages ?_).now hnow
        exact only_bind (only_start (fun _ ha => ha) i p) fun _ => only_pure _
  · refine (keeps_manages ?_).post fun _ _ _ _ => trivial
    cases r with
    | ok i => exact only_bind (only_perform trivial) fun _ => only_pure _
    | error e => exact only_pure _

/-! ## The pool at any moment -/

/-- **Every call keeps the pool exclusive** at any moment. -/
theorem excludes_of_goes {r : Request} (hr : r.OnPool) {t : List Move} {q : Process Reply}
    (h : Goes (Somebody Action.Aside) r.serve w t q u) : All Move.Excludes t := by
  have hcalls : ∀ p : Process Reply, Only Action.Manages p →
      Goes (Somebody Action.Aside) p w t q u → All Move.Excludes t := fun p hp hg m hm =>
    excludes_of_manages ((goes_only hp hg).1 m hm)
  cases hr with
  | call hr =>
    by_cases hs : ∃ sub p, r = .submit sub p
    · obtain ⟨sub, p, rfl⟩ := hs
      have hnow : Searching w [] w := ⟨all_nil, rfl, fun _ => rfl⟩
      exact (keeps_submit sub p hnow h).1
    · exact hcalls _ (only_call_manages hr fun sub p he => hs ⟨sub, p, he⟩) h
  | setStallWith i a plan start stop =>
    dsimp only [Request.serve, Request.withCursor] at h
    cases hc : plan.make with
    | error fault =>
      rw [hc] at h
      exact hcalls _ (only_pure _) h
    | ok c =>
      rw [hc] at h
      have hmoved : Only Action.Manages (Operation.setStallWith i a ⟨c, start, stop⟩) := by
        refine only_bind (only_perform trivial) fun moved => ?_
        split
        · exact only_bind (only_perform trivial) fun _ => only_perform trivial
        · exact only_pure _
      exact hcalls _ (only_bind hmoved fun _ => only_pure _) h
  | run watched =>
    change Goes _ ((Engine.drain watched).bind _) _ _ _ _ at h
    obtain ⟨p, -, hp⟩ | ⟨a, v, t₁, t₂, rfl, h₁, h₂⟩ := goes_bind h
    · exact fun m hm => (goes_calm hp m hm).excludes
    · obtain ⟨rfl, -, -⟩ := goes_done h₂
      rw [List.append_nil]
      exact fun m hm => (goes_calm h₁ m hm).excludes

theorem exclusive_of_goes {r : Request} (hr : r.OnPool) {t : List Move} {q : Process Reply}
    (h : Goes (Somebody Action.Aside) r.serve w t q u) (hw : w.Exclusive) : u.Exclusive :=
  goes_kept (fun _ _ => exclusive_of_aside) h (excludes_of_goes hr h) hw

/-- A call is made from beginning to end, while others leave the lists alone. -/
def CalledAside (w v : FrontEnd) : Prop :=
  ∃ (r : Request) (t : List Move) (reply : Reply),
    r.OnPool ∧ Goes (Somebody Action.Aside) r.serve w t (.done reply) v

theorem exclusive_of_calls (hfresh : w.Fresh) (h : Relation.ReflTransGen CalledAside w v) :
    v.Exclusive := by
  induction h with
  | refl => exact .of_fresh hfresh
  | tail _ hc ih =>
    obtain ⟨r, t, reply, hr, hg⟩ := hc
    exact exclusive_of_goes hr hg ih

/-- **The pool is exclusive.** At any moment of any call on a pool, made after any other calls, no
two lists still running were submitted at one address, or share a stack: as long as nobody else
touches the lists. -/
theorem exclusive_reachable {r : Request} {t : List Move} {q : Process Reply} (hfresh : w.Fresh)
    (hcalls : Relation.ReflTransGen CalledAside w v) (hr : r.OnPool)
    (h : Goes (Somebody Action.Aside) r.serve v t q u) : u.Exclusive :=
  exclusive_of_goes hr h (exclusive_of_calls hfresh hcalls)

/-! ## Two lists of one word -/

theorem calledAside_of_accepts {sub : Submission} {i : Nat} (hw : w.selected? = none)
    (hi : i < w.slots.size) (h : w.accepts sub = .ok i) : CalledAside w (w.accept i sub) := by
  obtain ⟨t, ht⟩ := gives_submit hw hi h
  have hlook : Goes (Somebody Action.Aside) (Request.submit sub .tail).serve w
      (t ++ [.act (.look i) (w.accept i sub)]) _ (w.accept i sub) :=
    (Goes.bind _ (ht.mono fun _ _ ho => ho.elim)).trans (.act (.stay ..))
  exact ⟨.submit sub .tail, _, _, .call trivial, hlook⟩

/-- A pool with nothing in it. -/
def idlePool : FrontEnd :=
  { Replay.frontEnd {} with backend := .engine }

/-- The pool is exclusive when the first of two lists has stalled and the second still waits. -/
theorem exclusive_reachable_waiting : ∃ v t reply u,
    Relation.ReflTransGen CalledAside idlePool v ∧
      Goes (Somebody Action.Aside) (Request.run true).serve v t (.done reply) u ∧
      (u.slot 0).status = .stallReached ∧ (u.slot 1).status = .queued ∧ u.Exclusive := by
  let first : Submission := ⟨0x08800000, 0x08800004, 0, some ⟨0, 0, 0x09000000⟩⟩
  let second : Submission := ⟨0x08900000, 0x08900004, 0, some ⟨0, 0, 0x09100000⟩⟩
  let v := (idlePool.accept 0 first).accept 1 second
  have hfirst : CalledAside idlePool (idlePool.accept 0 first) :=
    calledAside_of_accepts rfl (by decide +kernel) (by decide +kernel)
  have hsecond : CalledAside (idlePool.accept 0 first) v :=
    calledAside_of_accepts rfl (by decide +kernel) (by decide +kernel)
  have hrun : (((Request.run true).serve.trace 100 v).map fun x =>
      ((x.2.2.slot 0).status, (x.2.2.slot 1).status)) = some (.stallReached, .queued) := by
    decide +kernel
  obtain ⟨⟨t, reply, u⟩, hu, hstatus⟩ := Option.map_eq_some_iff.1 hrun
  obtain ⟨h₀, h₁⟩ := Prod.mk.inj hstatus
  have hgoes : Goes (Somebody Action.Aside) (Request.run true).serve v t (.done reply) u :=
    (alone_of_trace hu).mono fun _ _ ho => ho.elim
  have hcalls := (Relation.ReflTransGen.single hfirst).tail hsecond
  exact ⟨v, t, reply, u, hcalls, hgoes, h₀, h₁,
    exclusive_reachable (FrontEnd.fresh_of_slots rfl) hcalls (.run true) hgoes⟩

end Process

end DisplayList
