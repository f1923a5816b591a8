import DisplayList.Gate
import DisplayList.Proofs.Histories
import DisplayList.Proofs.Slots

/-!
# The law of wake-ups

Threads post a wake-up, drop it and wait for it, in any order, as often as they like, with sleeps
that end in time, late or for no reason. What they do while they have the lock is a list of deeds.

* `Due`: a wake-up has been posted, and nothing since has used it up or dropped it;
* `Guarded`, **`Guarded.step`**: who has the lock, and what was done last, tell each other;
* `Fits`, **`Guarded.fits`**: what the next deed may be;
* **`permit_law`**: who returns with a wake-up has used up one that was due, no wake-up is used up
  twice, any number of them is one, and nobody gives up while one is due;
* **`Runs.await_eq`**: a wait is `Action.await` at its last look.
-/

namespace DisplayList

namespace Gate

variable {θ : Type} {t a b c : List (Deed θ)} {e : Deed θ} {x y : θ}

/-! ## A wake-up that is due -/

/-- It posts a wake-up. -/
@[simp] def Deed.Posts : Deed θ → Prop
  | .posted _ => True
  | _ => False

/-- It uses a wake-up up or drops it. -/
@[simp] def Deed.Spends : Deed θ → Prop
  | .cleared _ | .looked _ true => True
  | _ => False

/-- What a look has found. -/
def Deed.found? : Deed θ → Option Bool
  | .looked _ found => some found
  | _ => none

/-- A wake-up was posted that nothing since has used up or dropped. -/
def Due (t : List (Deed θ)) : Prop :=
  Since Deed.Posts Deed.Spends t

theorem due_concat : Due (t ++ [e]) ↔ e.Posts ∨ (Due t ∧ ¬ e.Spends) :=
  since_concat

theorem not_due_looked {r : Bool} (h : r = true ↔ Due t) : ¬ Due (t ++ [.looked x r]) := by
  rw [due_concat, ← h]
  cases r <;> simp

/-! ## What may come next -/

/-- The deed `e` may come after `t`. -/
structure Fits (t : List (Deed θ)) (e : Deed θ) : Prop where
  /-- A look finds a wake-up if one is due. -/
  found : ∀ x r, e = .looked x r → (r = true ↔ Due t)
  /-- A wait answers what its last look has found, before anybody else does something. -/
  left : ∀ x r, e = .left x r → t.getLast? = some (.looked x r)
  /-- A wait that starts looks before anybody else does something. -/
  entered : ∀ x, t.getLast? = some (.entered x) → ∃ r, e = .looked x r
  /-- A wait that has found a wake-up returns before anybody else does something. -/
  took : ∀ x, t.getLast? = some (.looked x true) → e = .left x true

/-- Nobody is in the middle of something that nothing may come between. -/
def Calm (last : Option (Deed θ)) : Prop :=
  ∀ x, last ≠ some (.entered x) ∧ last ≠ some (.looked x true)

/-- What was done last, if the thread `x` has the lock and goes on with the task. -/
def Task.Follows (x : θ) (last : Option (Deed θ)) : Task → Prop
  | .enter _ => last = some (.entered x)
  | .clock _ | .sleep _ => last = some (.looked x false)
  | .leave r => last = some (.looked x r)
  | .post | .rouse | .clear | .look _ => Calm last

/-- What a thread may wait for the lock with. -/
def Task.Queues : Task → Prop
  | .post | .clear | .enter _ | .look _ => True
  | _ => False

/-- Who has the lock, whether a wake-up is pending, and what was done so far. -/
structure Guarded (t : List (Deed θ)) (g : Gate θ) : Prop where
  holding : ∀ x task, g.stage x = .holding task → g.owner = some x ∧ task.Follows x t.getLast?
  free : g.owner = none → Calm t.getLast?
  queued : ∀ x task, g.stage x = .queued task → task.Queues
  pending : g.wake.pending = true ↔ Due t

theorem calm_of_deed (h₁ : ∀ x, e ≠ .entered x) (h₂ : ∀ x, e ≠ .looked x true) :
    Calm (t ++ [e]).getLast? := by
  rw [List.getLast?_concat]
  exact fun x => ⟨fun h => h₁ x (Option.some.inj h), fun h => h₂ x (Option.some.inj h)⟩

theorem calm_of_refused (h : t.getLast? = some (.looked x false)) : Calm t.getLast? := by
  rw [h]
  exact fun y => ⟨by simp, by simp⟩

theorem fits_of_calm (h : Calm t.getLast?) (h₁ : ∀ x r, e ≠ .looked x r)
    (h₂ : ∀ x r, e ≠ .left x r) : Fits t e where
  found x r he := absurd he (h₁ x r)
  left x r he := absurd he (h₂ x r)
  entered x hx := absurd hx (h x).1
  took x hx := absurd hx (h x).2

section Steps

variable {g g' : Gate θ} {s : Stage} {task task' : Task} {w : Wake}

theorem Guarded.eq_of_holding (h : Guarded t g) (hx : g.stage x = .holding task)
    (hy : g.stage y = .holding task') : y = x := by
  have hown := (h.holding x task hx).1
  rw [(h.holding y task' hy).1] at hown
  exact Option.some.inj hown

variable [DecidableEq θ]

theorem Guarded.put (h : Guarded t g) (hx : ∀ task, g.stage x ≠ .holding task)
    (hs : ∀ task, s ≠ .holding task) (hq : ∀ task, s = .queued task → task.Queues) :
    Guarded t (g.put x s) where
  holding y u hy := by
    by_cases hyx : y = x
    · subst hyx
      rw [stage_put] at hy
      exact absurd hy (hs u)
    · rw [stage_put_of_ne hyx] at hy
      exact h.holding y u hy
  free := h.free
  queued y u hy := by
    by_cases hyx : y = x
    · subst hyx
      rw [stage_put] at hy
      exact hq u hy
    · rw [stage_put_of_ne hyx] at hy
      exact h.queued y u hy
  pending := h.pending

theorem Guarded.hold (h : Guarded t g) (hx : g.stage x = .holding task)
    (hf : task'.Follows x a.getLast?) (hw : w.pending = true ↔ Due a) :
    Guarded a { g.put x (.holding task') with wake := w } where
  holding y u hy := by
    change (g.put x _).stage y = _ at hy
    by_cases hyx : y = x
    · subst hyx
      rw [stage_put] at hy
      cases hy
      exact ⟨(h.holding y task hx).1, hf⟩
    · rw [stage_put_of_ne hyx] at hy
      exact absurd (h.eq_of_holding hx hy) hyx
  free hnone := by
    change g.owner = none at hnone
    rw [(h.holding x task hx).1] at hnone
    cases hnone
  queued y u hy := by
    change (g.put x _).stage y = _ at hy
    by_cases hyx : y = x
    · subst hyx
      rw [stage_put] at hy
      cases hy
    · rw [stage_put_of_ne hyx] at hy
      exact h.queued y u hy
  pending := hw

theorem Guarded.release (h : Guarded t g) (hx : g.stage x = .holding task)
    (hs : ∀ task, s ≠ .holding task ∧ s ≠ .queued task) (hc : Calm a.getLast?)
    (hw : w.pending = true ↔ Due a) : Guarded a { g.release x s with wake := w } where
  holding y u hy := by
    change (g.put x s).stage y = _ at hy
    by_cases hyx : y = x
    · subst hyx
      rw [stage_put] at hy
      exact absurd hy (hs u).1
    · rw [stage_put_of_ne hyx] at hy
      exact absurd (h.eq_of_holding hx hy) hyx
  free _ := hc
  queued y u hy := by
    change (g.put x s).stage y = _ at hy
    by_cases hyx : y = x
    · subst hyx
      rw [stage_put] at hy
      exact absurd hy (hs u).2
    · rw [stage_put_of_ne hyx] at hy
      exact h.queued y u hy
  pending := hw

theorem Guarded.lock (h : Guarded t g) (hx : g.stage x = .queued task) (hfree : g.owner = none) :
    Guarded (t ++ (onLock x task).toList) { g.put x (.holding task) with owner := some x } where
  holding y u hy := by
    change (g.put x _).stage y = _ at hy
    by_cases hyx : y = x
    · subst hyx
      rw [stage_put] at hy
      cases hy
      refine ⟨rfl, ?_⟩
      have hqueues := h.queued y task hx
      cases task with
      | enter n => exact List.getLast?_concat
      | post | clear | look =>
        simp only [onLock, Option.toList_none, List.append_nil]
        exact h.free hfree
      | rouse | clock | sleep | leave => exact hqueues.elim
    · rw [stage_put_of_ne hyx] at hy
      have hown := (h.holding y u hy).1
      rw [hfree] at hown
      cases hown
  free hnone := by cases hnone
  queued y u hy := by
    change (g.put x _).stage y = _ at hy
    by_cases hyx : y = x
    · subst hyx
      rw [stage_put] at hy
      cases hy
    · rw [stage_put_of_ne hyx] at hy
      exact h.queued y u hy
  pending := by
    cases task with
    | enter n => exact h.pending.trans (by simp [onLock, due_concat])
    | _ => simpa [onLock] using h.pending

theorem Guarded.looked (h : Guarded t g) (hx : g.stage x = .holding task)
    (hf : task'.Follows x (some (.looked x g.wake.pending))) :
    Guarded (t ++ [.looked x g.wake.take.1])
      { g.put x (.holding task') with wake := g.wake.take.2 } :=
  h.hold hx (by rw [List.getLast?_concat]; exact hf)
    (iff_of_false Bool.false_ne_true (not_due_looked h.pending))

/-- **Every step keeps the lock's story.** -/
theorem Guarded.step {e : Option (Deed θ)} (h : Guarded t g) (hs : Step g e g') :
    Guarded (t ++ e.toList) g' := by
  cases hs with
  | @call x task hx ht =>
    rw [Option.toList_none, List.append_nil]
    refine h.put (by simp [hx]) (by simp) fun u hu => ?_
    cases hu
    cases task <;> trivial
  | lock hx hfree => exact h.lock hx hfree
  | @post x hx =>
    exact h.hold hx (calm_of_deed (by simp) (by simp)) (iff_of_true rfl (by simp [due_concat]))
  | @rouse x y deadline hx hy =>
    rw [Option.toList_none, List.append_nil]
    have hne : x ≠ y := by
      rintro rfl
      rw [hx] at hy
      cases hy
    have hput : Guarded t (g.put y (.queued (.look deadline))) :=
      h.put (by simp [hy]) (by simp) (by rintro u ⟨⟩; trivial)
    have hx' : (g.put y (.queued (.look deadline))).stage x = .holding .rouse := by
      rw [stage_put_of_ne hne, hx]
    exact hput.release hx' (by simp) (hput.holding x _ hx').2 hput.pending
  | @rouseNobody x hx hy =>
    rw [Option.toList_none, List.append_nil]
    exact h.release hx (by simp) (h.holding x _ hx).2 h.pending
  | @clear x hx =>
    exact h.release hx (by simp) (calm_of_deed (by simp) (by simp))
      (iff_of_false Bool.false_ne_true (by simp [due_concat]))
  | @enter x timeout hx =>
    refine h.looked hx ?_
    unfold afterEntry
    cases hp : g.wake.pending with
    | true => rfl
    | false => cases g.deadline? timeout <;> simp [Task.Follows, Calm]
  | @look x deadline hx =>
    refine h.looked hx ?_
    cases hp : g.wake.pending with
    | true => cases deadline <;> simp [afterLook, hp, Task.Follows]
    | false => cases deadline <;> simp [afterLook, hp, Task.Follows]
  | early hx ht =>
    rw [Option.toList_none, List.append_nil]
    exact h.hold hx (h.holding _ _ hx).2 h.pending
  | late hx ht =>
    rw [Option.toList_none, List.append_nil]
    exact h.hold hx (h.holding _ _ hx).2 h.pending
  | @sleep x deadline hx =>
    refine h.release hx (by simp) (calm_of_deed (by simp) (by simp)) ?_
    exact h.pending.trans (by simp [due_concat])
  | @stir x deadline hx =>
    rw [Option.toList_none, List.append_nil]
    exact h.put (by simp [hx]) (by simp) (by rintro u ⟨⟩; trivial)
  | @leave x woken hx =>
    refine h.release hx (by simp) (calm_of_deed (by simp) (by simp)) ?_
    exact h.pending.trans (by simp [due_concat])
  | tick n =>
    rw [Option.toList_none, List.append_nil]
    exact ⟨h.holding, h.free, h.queued, h.pending⟩

/-- **What a step does fits what was done before.** -/
theorem Guarded.fits {e : Deed θ} (h : Guarded t g) (hs : Step g (some e) g') : Fits t e := by
  generalize he : some e = o at hs
  cases hs with
  | @lock x task hx hfree =>
    cases task with
    | enter n =>
      cases he
      exact fits_of_calm (h.free hfree) (by simp) (by simp)
    | _ => cases he
  | @post x hx =>
    cases he
    exact fits_of_calm (h.holding x _ hx).2 (by simp) (by simp)
  | @clear x hx =>
    cases he
    exact fits_of_calm (h.holding x _ hx).2 (by simp) (by simp)
  | @enter x timeout hx =>
    cases he
    have hlast : t.getLast? = some (.entered x) := (h.holding x _ hx).2
    exact ⟨by rintro _ _ ⟨⟩; exact h.pending, by simp, by rw [hlast]; rintro y ⟨⟩; exact ⟨_, rfl⟩,
      by simp [hlast]⟩
  | @look x deadline hx =>
    cases he
    have hcalm : Calm t.getLast? := (h.holding x _ hx).2
    exact ⟨by rintro _ _ ⟨⟩; exact h.pending, by simp, fun y hy => absurd hy (hcalm y).1,
      fun y hy => absurd hy (hcalm y).2⟩
  | @sleep x deadline hx =>
    cases he
    exact fits_of_calm (calm_of_refused (h.holding x _ hx).2) (by simp) (by simp)
  | @leave x woken hx =>
    cases he
    have hlast : t.getLast? = some (.looked x woken) := (h.holding x _ hx).2
    refine ⟨by simp, by rintro y r ⟨⟩; exact hlast, by simp [hlast], fun y hy => ?_⟩
    rw [hlast] at hy
    cases hy
    rfl
  | call | rouse | rouseNobody | early | late | stir | tick => cases he

theorem Runs.guarded (h : Runs t g) : Guarded t g := by
  induction h with
  | start horizon =>
    exact ⟨by simp, fun _ x => ⟨by simp, by simp⟩, by simp,
      iff_of_false Bool.false_ne_true not_since_nil⟩
  | snoc _ hs ih => exact ih.step hs

/-- **Each deed fits what was done before it.** -/
theorem Runs.fits (h : Runs t g) : ∀ a e b, t = a ++ e :: b → Fits a e := by
  induction h with
  | start horizon => simp
  | @snoc t g g' e hrun hs ih =>
    cases e with
    | none => simpa using ih
    | some e =>
      intro a e' b heq
      rcases concat_eq_append_cons.1 heq with ⟨rfl, rfl, rfl⟩ | ⟨c, rfl, ht⟩
      · exact hrun.guarded.fits hs
      · exact ih a e' c ht

end Steps

/-! ## The law -/

/-- What looks find after `a`, while nothing is posted or dropped: one finds the wake-up that was
due, and then nobody finds one. -/
theorem found_of_fits (hfits : ∀ b₁ e b₂, b = b₁ ++ e :: b₂ → Fits (a ++ b₁) e)
    (hquiet : ∀ e ∈ b, ¬ e.Posts ∧ ∀ x, e ≠ .cleared x) : ∃ n,
      (¬ Due a ∧ b.filterMap Deed.found? = List.replicate n false) ∨
      (Due a ∧ (b.filterMap Deed.found? = [] ∨
        b.filterMap Deed.found? = true :: List.replicate n false)) := by
  induction b generalizing a with
  | nil => exact ⟨0, by by_cases h : Due a <;> simp [h]⟩
  | cons e b ih =>
    have hrest := ih (a := a ++ [e])
      (fun b₁ e' b₂ hb => by simpa using hfits (e :: b₁) e' b₂ (by rw [hb]; rfl))
      (fun e' he' => hquiet e' (List.mem_cons_of_mem _ he'))
    have hfit : Fits a e := by simpa using hfits [] e b rfl
    obtain ⟨hposts, hclear⟩ := hquiet e List.mem_cons_self
    cases e with
    | posted x => exact absurd trivial hposts
    | cleared x => exact absurd rfl (hclear x)
    | looked x r =>
      have hr : r = true ↔ Due a := hfit.found x r rfl
      obtain ⟨n, ⟨-, hn⟩ | ⟨hdue, -⟩⟩ := hrest
      · cases r with
        | true =>
          refine ⟨n, .inr ⟨hr.1 rfl, .inr ?_⟩⟩
          rw [List.filterMap_cons_some (f := Deed.found?) rfl, hn]
        | false =>
          refine ⟨n + 1, .inl ⟨fun hd => Bool.false_ne_true (hr.2 hd), ?_⟩⟩
          rw [List.filterMap_cons_some (f := Deed.found?) rfl, hn]
          rfl
      · exact absurd hdue (not_due_looked hr)
    | entered x | slept x | left x r =>
      rw [List.filterMap_cons_none rfl]
      simpa [due_concat] using hrest

/-- **The law of wake-ups**, as it shows in what was done. -/
structure PermitLaw (t : List (Deed θ)) : Prop where
  /-- A wait that returns true has just used up a wake-up that was due. -/
  taken : ∀ a x b, t = a ++ .left x true :: b → ∃ a', a = a' ++ [.looked x true] ∧ Due a'
  /-- A wait that uses up a wake-up returns true. -/
  returned : ∀ a x b, t = a ++ .looked x true :: b → b = [] ∨ ∃ b', b = .left x true :: b'
  /-- No wake-up is used up twice: another one has been posted in between. -/
  once : ∀ a x b y c, t = a ++ .looked x true :: (b ++ .looked y true :: c) → ∃ e ∈ b, e.Posts
  /-- However many are posted, they are one wake-up: the first look finds it, the others do not. -/
  single : ∀ a b c, t = a ++ (b ++ c) → (∃ e ∈ b, e.Posts) → (∀ e ∈ b, ¬ e.Spends) →
    (∀ e ∈ c, ¬ e.Posts ∧ ∀ x, e ≠ .cleared x) → c.filterMap Deed.found? = [] ∨
      ∃ n, c.filterMap Deed.found? = true :: List.replicate n false
  /-- A wait that starts while a wake-up is due returns true, and nothing comes between. -/
  prompt : ∀ a x b, t = a ++ .entered x :: b → Due a →
    b <+: [.looked x true, .left x true] ∨ [.looked x true, .left x true] <+: b
  /-- A wait that returns false has just seen that no wake-up is due, and none is. -/
  refused : ∀ a x b, t = a ++ .left x false :: b → ¬ Due a

theorem permitLaw_of_fits (h : ∀ a e b, t = a ++ e :: b → Fits a e) : PermitLaw t where
  taken a x b ht := by
    obtain ⟨a', rfl⟩ := List.getLast?_eq_some_iff.1 ((h a _ b ht).left x true rfl)
    exact ⟨a', rfl, ((h a' _ _ (by simpa using ht)).found x true rfl).1 rfl⟩
  returned a x b ht := by
    cases b with
    | nil => exact .inl rfl
    | cons e b =>
      have he := (h (a ++ [.looked x true]) e b (by simpa using ht)).took x List.getLast?_concat
      rw [he]
      exact .inr ⟨b, rfl⟩
  once a x b y c ht := by
    have hdue : Due (a ++ .looked x true :: b) :=
      ((h (a ++ .looked x true :: b) (.looked y true) c (by simpa using ht)).found y true rfl).1 rfl
    exact exists_of_since (x := .looked x true) not_false trivial hdue
  single a b c ht hx hb hc := by
    obtain ⟨x, hx, hpost⟩ := hx
    have hfits : ∀ c₁ e c₂, c = c₁ ++ e :: c₂ → Fits (a ++ b ++ c₁) e :=
      fun c₁ e c₂ he => h _ e c₂ (by rw [ht, he]; simp)
    obtain ⟨n, ⟨hnot, -⟩ | ⟨-, hfound⟩⟩ := found_of_fits hfits hc
    · exact absurd (since_append hx hpost hb) hnot
    · exact hfound.imp_right fun hn => ⟨n, hn⟩
  prompt a x b ht hdue := by
    cases b with
    | nil => exact .inl (List.nil_prefix ..)
    | cons e b =>
      have hfit := h (a ++ [.entered x]) e b (by simpa using ht)
      obtain ⟨r, rfl⟩ := hfit.entered x List.getLast?_concat
      have hr : r = true := (hfit.found x r rfl).2
        (by simpa [due_concat] using hdue)
      subst hr
      cases b with
      | nil => exact .inl ⟨[.left x true], rfl⟩
      | cons e b =>
        have he := (h (a ++ [.entered x, .looked x true]) e b (by simpa using ht)).took x
          (by simp)
        rw [he]
        exact .inr ⟨b, rfl⟩
  refused a x b ht := by
    obtain ⟨a', rfl⟩ := List.getLast?_eq_some_iff.1 ((h a _ b ht).left x false rfl)
    exact not_due_looked ((h a' _ _ (by simpa using ht)).found x false rfl)

section Law

variable [DecidableEq θ] {g : Gate θ}

/-- **The law of wake-ups holds of every run**, whatever threads there are and whatever they do. The
pending wake-up is the one that is due, and a thread that has come to wait while it is due can go on
to the end of its wait by itself. -/
theorem permit_law (h : Runs t g) : PermitLaw t ∧ (g.wake.pending = true ↔ Due t) ∧
    ∀ x timeout, g.stage x = .holding (.enter timeout) → g.wake.pending = true →
      ∃ g₁ g₂, Step g (some (.looked x true)) g₁ ∧ Step g₁ (some (.left x true)) g₂ := by
  refine ⟨permitLaw_of_fits h.fits, h.guarded.pending, fun x timeout hx hp => ?_⟩
  have hlook := Step.enter hx
  rw [show g.wake.take.1 = true from hp, afterEntry, if_pos hp] at hlook
  exact ⟨_, _, hlook, .leave (stage_put g x _)⟩

/-- Two threads wait and fall asleep, one of them twice, the other one for as long as it takes. Two
wake-ups are posted, which are one. Who comes first gets it, and the other one gives up when its
time is over. -/
theorem permit_law_twoWaiting : ∃ g : Gate (Fin 3), Runs
    [.entered 0, .looked 0 false, .slept 0, .looked 0 false, .slept 0,
      .entered 1, .looked 1 false, .looked 1 false, .slept 1, .posted 2, .posted 2,
      .looked 1 true, .left 1 true, .looked 0 false, .left 0 false] g ∧
    PermitLaw ([.entered 0, .looked 0 false, .slept 0, .looked 0 false, .slept 0,
      .entered 1, .looked 1 false, .looked 1 false, .slept 1, .posted 2, .posted 2,
      .looked 1 true, .left 1 true, .looked 0 false, .left 0 false] : List (Deed (Fin 3))) := by
  have h : Runs [] ({ horizon := 100 } : Gate (Fin 3)) := .start 100
  have h := h.snoc (@Step.call _ _ _ 0 (.enter 5) rfl trivial)
  have h := h.snoc (.lock (x := 0) rfl rfl)
  have h := h.snoc (.enter (x := 0) rfl)
  have h := h.snoc (.early (x := 0) rfl (by decide))
  have h := h.snoc (.sleep (x := 0) rfl)
  have h := h.snoc (.stir (x := 0) rfl)
  have h := h.snoc (.lock (x := 0) rfl rfl)
  have h := h.snoc (.look (x := 0) rfl)
  have h := h.snoc (.early (x := 0) rfl (by decide))
  have h := h.snoc (.sleep (x := 0) rfl)
  -- This wait is too long for its end to be told.
  have h := h.snoc (@Step.call _ _ _ 1 (.enter 1000) rfl trivial)
  have h := h.snoc (.lock (x := 1) rfl rfl)
  have h := h.snoc (.enter (x := 1) rfl)
  have h := h.snoc (.look (x := 1) rfl)
  have h := h.snoc (.sleep (x := 1) rfl)
  have h := h.snoc (@Step.call _ _ _ 2 .post rfl trivial)
  have h := h.snoc (.lock (x := 2) rfl rfl)
  have h := h.snoc (.post (x := 2) rfl)
  have h := h.snoc (.rouse (x := 2) (y := 0) rfl rfl)
  have h := h.snoc (@Step.call _ _ _ 2 .post rfl trivial)
  have h := h.snoc (.lock (x := 2) rfl rfl)
  have h := h.snoc (.post (x := 2) rfl)
  have h := h.snoc (.rouse (x := 2) (y := 1) rfl rfl)
  have h := h.snoc (.lock (x := 1) rfl rfl)
  have h := h.snoc (.look (x := 1) rfl)
  have h := h.snoc (.leave (x := 1) rfl)
  have h := h.snoc (.lock (x := 0) rfl rfl)
  have h := h.snoc (.look (x := 0) rfl)
  have h := h.snoc (.tick 5)
  have h := h.snoc (.late (x := 0) rfl (by decide))
  have h := h.snoc (.leave (x := 0) rfl)
  exact ⟨_, h, (permit_law h).1⟩

/-! ## A wait as one action -/

/-- What a deed makes of the wake-up. -/
def Deed.act (w : Wake) : Deed θ → Wake
  | .posted _ => w.post
  | .cleared _ => w.clear
  | .looked _ _ => w.take.2
  | .entered _ | .slept _ | .left _ _ => w

theorem Step.wake_eq {g' : Gate θ} {e : Option (Deed θ)} (h : Step g e g') :
    g'.wake = e.toList.foldl Deed.act g.wake := by
  cases h with
  | @lock x task => cases task <;> rfl
  | _ => rfl

theorem Runs.wake_eq (h : Runs t g) : g.wake = t.foldl Deed.act {} := by
  induction h with
  | start horizon => rfl
  | snoc _ hs ih => rw [hs.wake_eq, ih, List.foldl_append]

theorem Runs.of_append (h : Runs t g) : ∀ b, t = a ++ b → ∃ g, Runs a g := by
  induction h with
  | start horizon =>
    intro b ht
    rw [(List.append_eq_nil_iff.1 ht.symm).1]
    exact ⟨_, .start horizon⟩
  | @snoc t g g' e hrun hs ih =>
    intro b ht
    cases e with
    | none => exact ih b (by simpa using ht)
    | some e =>
      rcases List.eq_nil_or_concat b with rfl | ⟨b, e', rfl⟩
      · rw [List.append_nil] at ht
        rw [← ht]
        exact ⟨_, hrun.snoc hs⟩
      · have ht : t ++ [e] = (a ++ b) ++ [e'] := by simpa using ht
        exact ih b (List.append_inj' ht rfl).1

/-- **A wait is one action.** The front end's `Action.await` answers what a wait returns, and leaves
the wake-up as the wait leaves it, if it is carried out where the wait looks for the last time. -/
theorem Runs.await_eq {r : Bool} {i : Nat} {w : FrontEnd}
    (h : Runs (t ++ .left x r :: b) g) (hi : i < w.slots.size)
    (hw : (w.slot i).wake = (t.dropLast).foldl Deed.act {}) :
    ((Action.await i).perform w).1 = r ∧
      (((Action.await i).perform w).2.slot i).wake = t.foldl Deed.act {} := by
  have hleft := (h.fits t _ b rfl).left x r rfl
  obtain ⟨t', rfl⟩ := List.getLast?_eq_some_iff.1 hleft
  rw [List.dropLast_concat] at hw
  obtain ⟨g', hrun⟩ := h.of_append (a := t') (.looked x r :: .left x r :: b) (by simp)
  have hr := (h.fits t' (.looked x r) (.left x r :: b) (by simp)).found x r rfl
  constructor
  · change (w.slot i).wake.pending = r
    rw [hw, ← hrun.wake_eq]
    exact Bool.eq_iff_iff.2 (hrun.guarded.pending.trans hr.symm)
  · rw [Action.slot_perform, if_pos hi, List.foldl_append, ← hw]
    change (if i = i then { w.slot i with wake := (w.slot i).wake.take.2 } else w.slot i).wake = _
    rw [if_pos rfl]
    rfl

end Law

end Gate

end DisplayList
