import DisplayList.Proofs.Alone
import DisplayList.Proofs.Slots

/-!
# Two processes by turns

Two processes that share a front end take steps in any order. If the host does nothing of its own
accord, then each of them runs beside the other: what the one guarantees of its moves is what the
other relies on.

* `Together`: two processes by turns, step by step; `TogetherBy`: with the moves of one of them;
* `Host.Quiet`: a host that only listens; **`goes_move`**: with such a host a step is one move or
  none;
* **`TogetherBy.beside`**: each of two processes runs beside the other;
* **`run_unique`**, `run_of_alone`: what a run gives does not depend on its budget, and a process that
  comes to its end alone is run to it;
* `takeTurns`: turns carried out in a given order.
-/

namespace DisplayList

/-- The host only listens. -/
structure Host.Quiet (h : Host) : Prop where
  onCommand : h.onCommand = []
  onCallback : h.onCallback = []
  onCursor : h.onCursor = []

theorem Host.Quiet.react {h : Host} (hh : h.Quiet) (r : Report) : h.react r = ([], h) := by
  obtain ⟨takesCallbacks, onCommand, onCallback, onCursor, visible⟩ := h
  obtain ⟨rfl, rfl, rfl⟩ := hh
  cases r <;> rfl

theorem FrontEnd.tell_quiet {w : FrontEnd} (h : w.host.Quiet) (r : Report) :
    w.tell r = ([], if w.host.hears r then w.note (.told r) else w) := by
  unfold FrontEnd.tell
  rw [h.react]
  split <;> rfl

/-- Nobody gives the host anything to do. -/
def Action.LeavesHost : Action → Prop
  | .setHost _ => False
  | _ => True

theorem Action.LeavesHost.quiet {a : Action} (ha : a.LeavesHost) {w : FrontEnd}
    (h : w.host.Quiet) : (a.perform w).2.host.Quiet := by
  cases a with
  | setHost f => exact ha.elim
  | testVisible => exact ⟨h.onCommand, h.onCallback, h.onCursor⟩
  | notify j n =>
    obtain ⟨queue, events, journal, hn⟩ := w.notify_frame j n
    change (w.notify j n).host.Quiet
    rw [hn]
    exact h
  | write a ws =>
    obtain ⟨memory, hm⟩ := Action.write_frame w a ws
    rw [hm]
    exact h
  | _ => exact h

namespace Process

variable {α β : Type} {others : FrontEnd → FrontEnd → Prop}

/-- A process runs, and other processes beside it: the two take steps in any order. -/
inductive Together {α β : Type} :
    Process α → Process β → FrontEnd → Process α → Process β → FrontEnd → Prop
  | stay (p : Process α) (q : Process β) (w : FrontEnd) : Together p q w p q w
  | first {p p' : Process α} {q q' : Process β} {w u : FrontEnd} :
    Together (p.next w).1 q (p.next w).2 p' q' u → Together p q w p' q' u
  | second {p p' : Process α} {q q' : Process β} {w u : FrontEnd} :
    Together p (q.next w).1 (q.next w).2 p' q' u → Together p q w p' q' u

/-- What a step of a process does to the front end. -/
def move? {α : Type} (w : FrontEnd) : Process α → Option Move
  | .act a _ => some (.act a w)
  | .report r _ => some (.report r w)
  | .done _ | .loop .. => none

/-- Two processes by turns, and the moves that the second of them makes. -/
inductive TogetherBy {α β : Type} :
    Process α → Process β → FrontEnd → List Move → Process α → Process β → FrontEnd → Prop
  | stay (p : Process α) (q : Process β) (w : FrontEnd) : TogetherBy p q w [] p q w
  | first {p p' : Process α} {q q' : Process β} {w u : FrontEnd} {t : List Move} :
    TogetherBy (p.next w).1 q (p.next w).2 t p' q' u → TogetherBy p q w t p' q' u
  | second {p p' : Process α} {q q' : Process β} {w u : FrontEnd} {t : List Move} :
    TogetherBy p (q.next w).1 (q.next w).2 t p' q' u →
    TogetherBy p q w ((q.move? w).toList ++ t) p' q' u

variable {p p' : Process α} {q q' : Process β} {w u : FrontEnd}

theorem Together.moves (h : Together p q w p' q' u) : ∃ t, TogetherBy p q w t p' q' u := by
  induction h with
  | stay p q w => exact ⟨[], .stay p q w⟩
  | first _ ih =>
    obtain ⟨t, ht⟩ := ih
    exact ⟨t, .first ht⟩
  | second _ ih =>
    obtain ⟨t, ht⟩ := ih
    exact ⟨_, .second ht⟩

/-- The step of a process is nothing, or the move `m`. -/
def StepsBy (w v : FrontEnd) (t : List Move) : Prop :=
  (t = [] ∧ v = w) ∨ ∃ m : Move, t = [m] ∧ m.before = w ∧ m.after = v

theorem next_report {r : Report} {k : Process α} (h : w.host.Quiet) :
    (Process.report r k).next w = (k, (w.tell r).2) := by
  have hr : (w.tell r).1 = [] := by rw [FrontEnd.tell_quiet h]
  change ((Request.serveAll (w.tell r).1).bind fun _ => k, (w.tell r).2) = _
  rw [hr]
  rfl

/-- **A step of a process**, with a host that only listens. -/
theorem goes_move (others : FrontEnd → FrontEnd → Prop) (p : Process α) (h : w.host.Quiet) :
    Goes others p w (p.move? w).toList (p.next w).1 (p.next w).2 ∧
      StepsBy w (p.next w).2 (p.move? w).toList := by
  cases p with
  | done a => exact ⟨.stay .., .inl ⟨rfl, rfl⟩⟩
  | act a k => exact ⟨.act (.stay ..), .inr ⟨_, rfl, rfl, rfl⟩⟩
  | report r k =>
    rw [next_report h]
    exact ⟨.report (.stay ..), .inr ⟨_, rfl, rfl, rfl⟩⟩
  | loop round s k =>
    rw [next_loop]
    exact ⟨.loop (.stay ..), .inl ⟨rfl, rfl⟩⟩

theorem goes_next (others : FrontEnd → FrontEnd → Prop) (p : Process α) (h : w.host.Quiet) :
    ∃ t, Goes others p w t (p.next w).1 (p.next w).2 ∧ StepsBy w (p.next w).2 t :=
  ⟨_, goes_move others p h⟩

theorem only_next {p : Process α} (hp : Only Action.LeavesHost p) (h : w.host.Quiet) :
    Only Action.LeavesHost (p.next w).1 ∧ (p.next w).2.host.Quiet := by
  obtain ⟨t, hg, hs⟩ := goes_next Nobody p h
  obtain ⟨ht, hq⟩ := goes_only hp hg
  refine ⟨hq, ?_⟩
  rcases hs with ⟨-, hv⟩ | ⟨m, rfl, rfl, hv⟩
  · rw [hv]
    exact h
  · rw [← hv]
    cases m with
    | act a v => exact Action.LeavesHost.quiet (ht _ (List.mem_singleton_self _)) h
    | report r v =>
      change v.host.Quiet at h
      change (v.tell r).2.host.Quiet
      rw [FrontEnd.tell_quiet h]
      split
      · exact h
      · exact h

variable {F G : FrontEnd → FrontEnd → Prop}

/-- The moves of `p` from `w` on, beside `others`, are all as `G` says. -/
def Guarantees (others G : FrontEnd → FrontEnd → Prop) (p : Process α) (w : FrontEnd) : Prop :=
  ∀ t q u, Goes others p w t q u → ∀ m ∈ t, G m.before m.after

theorem guarantees_of_only {allowed : Action → Prop} (hp : Only allowed p)
    (ha : ∀ (a : Action) w, allowed a → G w (a.perform w).2)
    (hr : ∀ (r : Report) (w : FrontEnd), G w (w.tell r).2) :
    Guarantees others G p w := by
  intro t q u hg m hm
  have hallowed := (goes_only hp hg).1 m hm
  cases m with
  | act a v => exact ha a v hallowed
  | report r v => exact hr r v

theorem Guarantees.next (h : Guarantees others G p w) (hw : w.host.Quiet) :
    Guarantees others G (p.next w).1 (p.next w).2 := by
  obtain ⟨t, hg, -⟩ := goes_next others p hw
  intro t' q u hg' m hm
  exact h _ q u (hg.trans hg') m (List.mem_append_right _ hm)

theorem Guarantees.other {v : FrontEnd} (h : Guarantees others G p w) (ho : others w v) :
    Guarantees others G p v :=
  fun t q u hg => h t q u (.other ho hg)

theorem Guarantees.seen (h : Guarantees others G p w) (hw : w.host.Quiet) :
    (p.next w).2 = w ∨ G w (p.next w).2 := by
  obtain ⟨t, hg, hs⟩ := goes_next others p hw
  rcases hs with ⟨-, hv⟩ | ⟨m, rfl, hm, hv⟩
  · exact .inl hv
  · have hG := h _ _ _ hg m (List.mem_singleton_self m)
    rw [hm, hv] at hG
    exact .inr hG

/-- **Each of two processes runs beside the other**: if the moves of the first are as `F` says
whenever those of the second are as `G` says, and the other way round, then both are. -/
theorem TogetherBy.beside {t : List Move} (h : TogetherBy p q w t p' q' u) (hw : w.host.Quiet)
    (hp : Only Action.LeavesHost p) (hq : Only Action.LeavesHost q)
    (hF : Guarantees G F p w) (hG : Guarantees F G q w) :
    (∃ t', Goes G p w t' p' u) ∧ Goes F q w t q' u := by
  induction h with
  | stay p q w => exact ⟨⟨[], .stay ..⟩, .stay ..⟩
  | @first p p' q q' w u t _ ih =>
    obtain ⟨hp', hw'⟩ := only_next hp hw
    obtain ⟨hg, -⟩ := goes_move G p hw
    have hseen := hF.seen hw
    have hq' : Guarantees F G q (p.next w).2 := by
      rcases hseen with he | hm
      · rw [he]
        exact hG
      · exact hG.other hm
    obtain ⟨⟨t₁, h₁⟩, h₂⟩ := ih hw' hp' hq (hF.next hw) hq'
    refine ⟨⟨_, hg.trans h₁⟩, ?_⟩
    rcases hseen with he | hm
    · rw [he] at h₂
      exact h₂
    · exact .other hm h₂
  | @second p p' q q' w u t _ ih =>
    obtain ⟨hq', hw'⟩ := only_next hq hw
    obtain ⟨hg, -⟩ := goes_move F q hw
    have hseen := hG.seen hw
    have hp' : Guarantees G F p (q.next w).2 := by
      rcases hseen with he | hm
      · rw [he]
        exact hF
      · exact hF.other hm
    obtain ⟨⟨t₁, h₁⟩, h₂⟩ := ih hw' hp hq' hp' (hG.next hw)
    refine ⟨⟨t₁, ?_⟩, hg.trans h₂⟩
    rcases hseen with he | hm
    · rw [he] at h₁
      exact h₁
    · exact .other hm h₁

theorem Together.beside (h : Together p q w p' q' u) (hw : w.host.Quiet)
    (hp : Only Action.LeavesHost p) (hq : Only Action.LeavesHost q)
    (hF : Guarantees G F p w) (hG : Guarantees F G q w) :
    (∃ t, Goes G p w t p' u) ∧ ∃ t, Goes F q w t q' u := by
  obtain ⟨t, ht⟩ := h.moves
  obtain ⟨h₁, h₂⟩ := ht.beside hw hp hq hF hG
  exact ⟨h₁, t, h₂⟩

/-! ## Budgets -/

theorem run_mono {n m : Nat} {x : α × FrontEnd} (hle : n ≤ m) (h : p.run n w = some x) :
    p.run m w = some x := by
  induction n generalizing p w m with
  | zero => cases h
  | succ n ih =>
    cases m with
    | zero => cases hle
    | succ m =>
      have hnext : ∀ {q : Process α} {v : FrontEnd}, q.run n v = some x → q.run m v = some x :=
        fun hq => ih (Nat.le_of_succ_le_succ hle) hq
      cases p with
      | done a => exact h
      | act a k => exact hnext h
      | report r k => exact hnext h
      | loop round s k => exact hnext h

/-- **Whatever the budget is, a run gives one result** if it gives any. -/
theorem run_unique {n m : Nat} {x y : α × FrontEnd} (h : p.run n w = some x)
    (h' : p.run m w = some y) : x = y := by
  have hx := run_mono (Nat.le_max_left n m) h
  have hy := run_mono (Nat.le_max_right n m) h'
  exact Option.some.inj (hx.symm.trans hy)

/-- **A process that comes to its end alone** does so within some budget, with a host that only
listens. -/
theorem run_of_alone {t : List Move} {r : α} (hw : w.host.Quiet) (hp : Only Action.LeavesHost p)
    (h : Alone p w t r u) : ∃ n, p.run n w = some (r, u) := by
  unfold Alone at h
  generalize hq : Process.done r = q at h
  induction h with
  | stay p w =>
    subst hq
    exact ⟨1, rfl⟩
  | other ho _ _ => exact ho.elim
  | act _ ih =>
    obtain ⟨hp', hw'⟩ := only_next hp hw
    obtain ⟨n, hn⟩ := ih hw' hp' hq
    exact ⟨n + 1, hn⟩
  | @report m k _ w _ _ _ ih =>
    obtain ⟨hp', hw'⟩ := only_next hp hw
    rw [next_report hw] at hp' hw'
    obtain ⟨n, hn⟩ := ih hw' hp' hq
    refine ⟨n + 1, ?_⟩
    change ((Process.report m k).next w).1.run n ((Process.report m k).next w).2 = _
    rw [next_report hw]
    exact hn
  | @loop _ _ round s k _ w _ _ _ ih =>
    obtain ⟨hp', -⟩ := only_next hp hw
    rw [next_loop] at hp'
    obtain ⟨n, hn⟩ := ih hw hp' hq
    refine ⟨n + 1, ?_⟩
    rw [run_loop]
    exact hn

/-! ## Turns in a given order -/

/-- The two processes after these turns, `true` for one of the first, with the moves of the second
one. -/
def takeTurns : List Bool → Process α → Process β → FrontEnd →
    List Move × Process α × Process β × FrontEnd
  | [], p, q, w => ([], p, q, w)
  | true :: turns, p, q, w => takeTurns turns (p.next w).1 q (p.next w).2
  | false :: turns, p, q, w =>
    let x := takeTurns turns p (q.next w).1 (q.next w).2
    ((q.move? w).toList ++ x.1, x.2)

theorem togetherBy_takeTurns (turns : List Bool) (p : Process α) (q : Process β) (w : FrontEnd) :
    TogetherBy p q w (takeTurns turns p q w).1 (takeTurns turns p q w).2.1
      (takeTurns turns p q w).2.2.1 (takeTurns turns p q w).2.2.2 := by
  induction turns generalizing p q w with
  | nil => exact .stay p q w
  | cons turn turns ih =>
    cases turn with
    | true => exact .first (ih ..)
    | false => exact .second (ih ..)

/-- The result of a process that is done. -/
def result? : Process α → Option α
  | .done a => some a
  | _ => none

theorem eq_done_of_result? {a : α} (h : p.result? = some a) : p = .done a := by
  cases p with
  | done b =>
    cases h
    rfl
  | act => cases h
  | report => cases h
  | loop => cases h

end Process

end DisplayList
