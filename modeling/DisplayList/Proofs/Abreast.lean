import DisplayList.Run
import Mathlib.Data.List.Forall2
import Mathlib.Data.Option.Basic

/-!
# Processes abreast

The same requests are served on two front ends that are not quite the same. As long as every answer
is the same, or is not but the difference makes none to what is done next, the two go on step by
step, one abreast of the other.

* `Likeness`: in what the lists, the registers and the actions on the two sides may differ;
  `Likeness.Agree`: how their answers may;
* `Abreast`, **`abreast_bind`**, `abreast_iterate`: processes that go on in the same way;
* `Likeness.Sound`: nothing of a list shows, and no branch leads elsewhere;
  **`Likeness.Sound.serve`**: then every request is carried out abreast;
* `Likeness.Kept`: front ends that are left as they should be by every action and every report;
  **`Likeness.Kept.next`**, `Likeness.Kept.run`: then they are by every run.
-/

namespace DisplayList

open Process

/-! ## Answers -/

/-- In what two front ends may differ on which the same is done. -/
structure Likeness where
  slots : Slot → Slot → Prop
  /-- The words in the registers, and those that calls save. -/
  words : UInt32 → UInt32 → Prop
  acts : Action → Action → Prop

/-- Two changes answer the same, but for an offset that is restored. -/
def Change.Agree (words : UInt32 → UInt32 → Prop) :
    (c c' : Change) → c.Answer → c'.Answer → Prop
  | .ret, .ret, o, o' => Option.Rel words o o'
  | _, _, r, r' => HEq r r'

namespace Likeness

variable (R : Likeness)

/-- The registers may differ in their words. -/
def Registers (r r' : Registers) : Prop :=
  R.words r.base r'.base ∧ R.words r.offset r'.offset

/-- Two actions answer the same, but for what may differ. -/
def Agree : (a a' : Action) → a.Answer → a'.Answer → Prop
  | .look _, .look _, s, s' => R.slots s s'
  | .registers, .registers, r, r' => R.Registers r r'
  | .change _ c, .change _ c', r, r' => c.Agree R.words c' r r'
  | _, _, r, r' => HEq r r'

end Likeness

/-- An action that is the same on both sides and has one answer. -/
def Action.Settled : Action → Prop
  | .look _ | .registers | .change _ .ret | .setHost _ => False
  | _ => True

theorem Likeness.Agree.eq {R : Likeness} {a : Action} {r r' : a.Answer} (h : R.Agree a a r r')
    (ha : a.Settled) : r = r' := by
  cases a with
  | look i => exact ha.elim
  | registers => exact ha.elim
  | setHost f => exact ha.elim
  | change i c =>
    cases c with
    | ret => exact ha.elim
    | _ => exact eq_of_heq h
  | _ => exact eq_of_heq h

/-- All that can be asked of a list is answered the same. -/
structure Slot.SeenAs (s s' : Slot) : Prop where
  id : s.id = s'.id
  callbackId : s.callbackId = s'.callbackId
  pc : s.pc = s'.pc
  status : s.status = s'.status
  flags : s.flags = s'.flags
  isStalled : s.isStalled = s'.isStalled
  reported : s.reported = s'.reported
  isDone : s.isDone = s'.isDone
  isInUse : ∀ list stack, s.isInUse list stack = s'.isInUse list stack
  text : s.text = s'.text
  diagnostic : s.diagnostic = s'.diagnostic

/-! ## Processes -/

namespace Process

variable {α β σ : Type} {R : Likeness}

/-- The processes go on in the same way after answers that may differ. -/
inductive Abreast (R : Likeness) : {α : Type} → Process α → Process α → Prop
  | done {α : Type} (a : α) : Abreast R (.done a) (.done a)
  | act {α : Type} {a a' : Action} {k : a.Answer → Process α} {k' : a'.Answer → Process α} :
    R.acts a a' → (∀ r r', R.Agree a a' r r' → Abreast R (k r) (k' r')) →
    Abreast R (.act a k) (.act a' k')
  | report {α : Type} (r : Report) {p p' : Process α} :
    Abreast R p p' → Abreast R (.report r p) (.report r p')
  | loop {α σ β : Type} {round round' : σ → Process (σ ⊕ β)} (s : σ) {k k' : β → Process α} :
    (∀ s, Abreast R (round s) (round' s)) → (∀ b, Abreast R (k b) (k' b)) →
    Abreast R (.loop round s k) (.loop round' s k')

/-- The process goes on in the same way on both sides. -/
abbrev Steady (R : Likeness) (p : Process α) : Prop :=
  Abreast R p p

theorem Abreast.bind {p p' : Process β} {f f' : β → Process α} (hp : Abreast R p p')
    (hf : ∀ b, Abreast R (f b) (f' b)) : Abreast R (p.bind f) (p'.bind f') := by
  induction hp with
  | done b => exact hf b
  | act ha _ ih => exact .act ha fun r r' hr => ih r r' hr hf
  | report r _ ih => exact .report r (ih hf)
  | loop s hround _ _ ih => exact .loop s hround fun b => ih b hf

theorem abreast_bind {p p' : Process β} {f f' : β → Process α} (hp : Abreast R p p')
    (hf : ∀ b, Abreast R (f b) (f' b)) : Abreast R (p >>= f) (p' >>= f') :=
  hp.bind hf

theorem abreast_pure (a : α) : Steady R (pure a) := Abreast.done a

theorem abreast_tell (r : Report) : Steady R (tell r) := Abreast.report r (.done ())

theorem abreast_iterate {s : σ} {round round' : σ → Process (σ ⊕ α)}
    (h : ∀ s, Abreast R (round s) (round' s)) : Abreast R (iterate s round) (iterate s round') :=
  .loop s h .done

theorem abreast_ite {c : Prop} [Decidable c] {p q p' q' : Process α} (hp : Abreast R p p')
    (hq : Abreast R q q') : Abreast R (if c then p else q) (if c then p' else q') := by
  split
  · exact hp
  · exact hq

theorem abreast_act {a a' : Action} {f : a.Answer → Process α} {f' : a'.Answer → Process α}
    (ha : R.acts a a') (hf : ∀ r r', R.Agree a a' r r' → Abreast R (f r) (f' r')) :
    Abreast R (perform a >>= f) (perform a' >>= f') :=
  .act ha hf

end Process

/-! ## Requests -/

/-- Nothing of what differs is made anything of: nothing of a list shows, no branch leads
elsewhere, and what is done the same may be done on both sides. -/
structure Likeness.Sound (R : Likeness) : Prop where
  seen : ∀ {s s' : Slot}, R.slots s s' → s.SeenAs s'
  word : ∀ x, R.words x x
  target : ∀ {r r' : DisplayList.Registers}, R.Registers r r' →
    ∀ (mode : Mode) arg, mode.target r arg = mode.target r' arg
  same : ∀ a : Action, (∀ f, a ≠ .setHost f) → R.acts a a
  sameRegisters : ∀ {r r' : DisplayList.Registers}, R.Registers r r' →
    R.acts (.setRegisters r) (.setRegisters r')
  sameCall : ∀ (i : Nat) (target : Address) {o o' : UInt32}, R.words o o' →
    R.acts (.change i (.call target o)) (.change i (.call target o'))

/-- The host is told what to do when it is called. -/
def Request.Prepares : Request → Prop
  | .expect _ | .onCommand .. | .onCallback _ | .onCursor _ => True
  | _ => False

namespace Likeness.Sound

variable {α : Type} {R : Likeness} {i : Nat}

section Requests

variable (h : R.Sound)
include h

theorem perform {a : Action} (ha : a.Settled) : Steady R (perform a) := by
  have hhost : ∀ f, a ≠ .setHost f := by
    rintro f rfl
    exact ha
  refine .act (h.same a hhost) fun r r' hr => ?_
  rw [hr.eq ha]
  exact .done r'

theorem change {c : Change} (hc : c ≠ .ret) : Steady R (change i c) := by
  cases c with
  | ret => exact absurd rfl hc
  | _ => exact h.perform trivial

theorem look {f : Slot → Process α} (hf : ∀ s s', s.SeenAs s' → f s = f s')
    (hs : ∀ s, Steady R (f s)) : Steady R (look i >>= f) := by
  refine abreast_act (h.same _ (by simp)) fun s s' hr => ?_
  rw [hf s s' (h.seen hr)]
  exact hs s'

theorem registers {f f' : DisplayList.Registers → Process α}
    (hf : ∀ r r', R.Registers r r' → Abreast R (f r) (f' r')) :
    Abreast R (Process.perform .registers >>= f) (Process.perform .registers >>= f') :=
  abreast_act (h.same _ (by simp)) hf

theorem setRegisters {r r' : DisplayList.Registers} (hr : R.Registers r r') :
    Abreast R (Process.perform (.setRegisters r)) (Process.perform (.setRegisters r')) :=
  .act (h.sameRegisters hr) fun _ _ _ => .done ()

/-! ### Operations -/

theorem reset : Steady R (Operation.reset i) :=
  abreast_bind (h.change (by simp)) fun _ => h.perform trivial

theorem start (p : Placement) : Steady R (Operation.start i p) := by
  refine abreast_bind (h.change (by simp)) fun _ => abreast_bind (h.perform trivial) fun _ =>
    abreast_bind (h.perform trivial) fun _ => ?_
  cases p with
  | tail => exact h.change (by simp)
  | head => exact abreast_pure _

theorem restart : Steady R (Operation.restart i) :=
  abreast_bind (h.change (by simp)) fun _ => abreast_bind (h.change (by simp)) fun _ =>
    abreast_bind (h.change (by simp)) fun _ => h.perform trivial

theorem finish : Steady R (Operation.finish i) :=
  abreast_bind (h.change (by simp)) fun _ => h.perform trivial

theorem endList : Steady R (Operation.endList i) :=
  h.look (fun s s' hs => by rw [hs.flags]) fun _ => h.change (by simp)

theorem stallMoved : Steady R (Operation.stallMoved i) :=
  abreast_bind (h.perform trivial) fun _ => h.change (by simp)

theorem setStall {a a' : Address}
    (ha : R.acts (.change i (.moveStall a)) (.change i (.moveStall a'))) :
    Abreast R (Operation.setStall i a) (Operation.setStall i a') := by
  refine abreast_act ha fun r r' hr => ?_
  obtain rfl : r = r' := eq_of_heq hr
  exact abreast_ite h.stallMoved (abreast_pure _)

theorem setStallWith {a a' : Address} {w : Window}
    (ha : R.acts (.change i (.moveStallWith a w)) (.change i (.moveStallWith a' w))) :
    Abreast R (Operation.setStallWith i a w) (Operation.setStallWith i a' w) := by
  refine abreast_act ha fun r r' hr => ?_
  obtain rfl : r = r' := eq_of_heq hr
  exact abreast_ite h.stallMoved (abreast_pure _)

theorem jump (mode : Mode) (arg : UInt32) :
    Steady R (Operation.jump i mode arg) := by
  refine h.registers fun r r' hr => ?_
  rw [h.target hr]
  exact h.change (by simp)

theorem call (mode : Mode) (arg : UInt32) :
    Steady R (Operation.call i mode arg) := by
  refine h.registers fun r r' hr => ?_
  rw [h.target hr]
  refine .act (h.sameCall i _ hr.2) fun x x' hx => ?_
  obtain rfl : x = x' := eq_of_heq hx
  exact .done x

theorem ret : Steady R (Operation.ret i) := by
  refine abreast_act (a := .change i .ret) (h.same _ (by simp)) fun o o' ho => ?_
  have ho : Option.Rel R.words o o' := ho
  cases ho with
  | none => exact abreast_pure _
  | some hword => exact h.registers fun r r' hr => h.setRegisters ⟨hr.1, hword⟩

theorem signalCallback (list : Nat) (behavior signal : UInt32) :
    Steady R (Operation.signalCallback i list behavior signal) :=
  h.look (fun s s' hs => by rw [hs.callbackId, hs.pc]) fun _ =>
    abreast_bind (h.perform trivial) fun _ => abreast_tell _

theorem finishCallback (list : Nat) (arg : UInt32) :
    Steady R (Operation.finishCallback i list arg) :=
  h.look (fun s s' hs => by rw [hs.callbackId, hs.pc]) fun _ =>
    abreast_bind (h.perform trivial) fun _ => abreast_tell _

theorem access (a : Slot.Access) :
    Steady R (Operation.access i a) := by
  refine abreast_iterate fun _ => abreast_bind (h.perform trivial) fun r => ?_
  cases r with
  | inr r => exact abreast_pure _
  | inl address =>
    refine abreast_bind (abreast_tell _) fun _ => ?_
    split
    · exact abreast_pure _
    · refine abreast_bind (h.perform trivial) fun r => ?_
      split <;> exact abreast_pure _

/-! ### The pool -/

theorem isBusy (list stack : Address) (slots : List Nat) :
    Steady R (Pool.isBusy list stack slots) := by
  induction slots with
  | nil => exact abreast_pure _
  | cons i slots ih =>
    refine h.look (fun s s' hs => by rw [hs.isDone]) fun _ => abreast_ite ih ?_
    exact h.look (fun s s' hs => by rw [hs.isInUse]) fun _ => abreast_ite (abreast_pure _) ih

theorem firstFree (slots : List Nat) :
    Steady R (Pool.firstFree slots) := by
  induction slots with
  | nil => exact abreast_pure _
  | cons i slots ih =>
    exact h.look (fun s s' hs => by rw [hs.isDone]) fun _ => abreast_ite (abreast_pure _) ih

theorem submit {sub sub' : Submission} (hlist : Address.aligned sub.list = Address.aligned sub'.list)
    (hstack : sub.stack = sub'.stack)
    (hinit : ∀ i, R.acts (.change i (.init sub)) (.change i (.init sub'))) (p : Placement) :
    Abreast R (Pool.submit sub p) (Pool.submit sub' p) := by
  unfold Pool.submit
  rw [hlist, hstack]
  refine abreast_bind (h.perform trivial) fun size => ?_
  refine abreast_bind (h.isBusy ..) fun busy => abreast_ite (abreast_pure _) ?_
  refine abreast_bind (h.firstFree _) fun free => ?_
  cases free with
  | none => exact abreast_pure _
  | some i =>
    exact abreast_act (hinit i) fun _ _ _ => abreast_bind (h.start p) fun _ => abreast_pure _

theorem countActive (slots : List Nat) :
    Steady R (Pool.countActive slots) := by
  induction slots with
  | nil => exact abreast_pure _
  | cons i slots ih =>
    exact h.look (fun s s' hs => by rw [hs.isDone]) fun _ => abreast_bind ih fun _ =>
      abreast_pure _

theorem resetEach (slots : List Nat) :
    Steady R (Pool.resetEach slots) := by
  induction slots with
  | nil => exact abreast_pure _
  | cons i slots ih => exact abreast_bind h.reset fun _ => ih

/-! ### The engine -/

theorem transfer (t : Transfer) (target : UInt32) :
    Steady R (Engine.transfer i t target) := by
  cases t with
  | jump mode => exact abreast_bind (h.jump ..) fun _ => abreast_pure _
  | call mode => exact abreast_bind (h.call ..) fun _ => abreast_pure _
  | ret => exact abreast_bind h.ret fun _ => abreast_pure _
  | pause => exact abreast_bind (h.change (by simp)) fun _ => abreast_pure _

theorem conclude : Steady R (Engine.conclude i) :=
  abreast_bind h.endList fun _ => abreast_bind (h.change (by simp)) fun _ =>
    h.look (fun s s' hs => by rw [hs.flags]) fun _ => abreast_pure _

theorem stop (arg : UInt32) : Steady R (Engine.stop i arg) := by
  refine abreast_bind (h.access .previous) fun r => ?_
  split
  · exact abreast_bind h.conclude fun _ => abreast_pure _
  · exact abreast_pure _
  · split
    · split
      · exact h.transfer ..
      · exact abreast_bind h.conclude fun _ => abreast_pure _
    · exact abreast_bind h.conclude fun _ => abreast_pure _

theorem step (watched : Bool) (c : Command) :
    Steady R (Engine.step watched i c) := by
  have hjump : ∀ arg (visible : Bool), Steady R
      (if visible then pure (.ok none) else Operation.jump i .relativeOffset arg >>= fun _ =>
        pure (.ok none) : Process (Except Failure (Option Outcome))) := fun arg visible =>
    abreast_ite (abreast_pure _) (abreast_bind (h.jump ..) fun _ => abreast_pure _)
  cases c with
  | nop => exact abreast_pure _
  | jump arg => exact abreast_bind (h.jump ..) fun _ => abreast_pure _
  | branchHidden arg =>
    dsimp only [Engine.step]
    split
    · exact abreast_bind (h.perform trivial) (hjump arg)
    · exact hjump arg true
  | call arg => exact abreast_bind (h.call ..) fun _ => abreast_pure _
  | ret => exact abreast_bind h.ret fun _ => abreast_pure _
  | stop arg => exact h.stop arg
  | signal behavior signal =>
    dsimp only [Engine.step]
    refine abreast_ite (h.look (fun s s' hs => by rw [hs.id]) fun _ => ?_) (abreast_pure _)
    exact abreast_bind (h.signalCallback ..) fun _ => abreast_pure _
  | finish arg =>
    refine abreast_bind h.finish fun _ => h.look (fun s s' hs => by rw [hs.id]) fun _ => ?_
    exact abreast_bind (h.finishCallback ..) fun _ => abreast_pure _
  | base arg =>
    exact h.registers fun r r' hr => abreast_bind (h.setRegisters ⟨h.word _, hr.2⟩) fun _ =>
      abreast_pure _
  | offset arg =>
    exact h.registers fun r r' hr => abreast_bind (h.setRegisters ⟨hr.1, h.word _⟩) fun _ =>
      abreast_pure _
  | origin =>
    refine h.look (fun s s' hs => by rw [hs.pc]) fun _ => h.registers fun r r' hr => ?_
    exact abreast_bind (h.setRegisters ⟨hr.1, h.word _⟩) fun _ => abreast_pure _
  | draw word =>
    refine h.look (fun s s' hs => by rw [hs.id, hs.pc]) fun _ => ?_
    exact abreast_ite (abreast_bind (abreast_tell _) fun _ => abreast_pure _) (abreast_pure _)

theorem round (watched : Bool) :
    Steady R (Engine.round watched i) := by
  refine h.look (fun s s' hs => by rw [hs.flags]) fun _ => abreast_ite (abreast_pure _) ?_
  refine h.look (fun s s' hs => by rw [hs.isStalled]) fun _ => abreast_ite ?_ ?_
  · refine abreast_bind (h.change (by simp)) fun _ => abreast_bind (h.perform trivial) fun woken =>
      abreast_ite ?_ (abreast_pure _)
    refine h.look (fun s s' hs => by rw [hs.isStalled]) fun _ => abreast_ite (abreast_pure _) ?_
    exact abreast_bind (h.change (by simp)) fun _ => abreast_pure _
  · refine abreast_bind (h.access .next) fun r => ?_
    cases r with
    | error e => exact abreast_pure _
    | ok word =>
      refine abreast_bind (h.step watched _) fun r => ?_
      split <;> exact abreast_pure _

theorem execute (watched : Bool) :
    Steady R (Engine.execute watched i) := by
  have hrun : Steady R (do
      Process.change i (.setStatus .drawing)
      iterate () fun _ => Engine.round watched i) :=
    abreast_bind (h.change (by simp)) fun _ => abreast_iterate fun _ => h.round watched
  refine h.look (fun s s' hs => by rw [hs.flags, hs.id]) fun _ => abreast_ite (abreast_pure _) ?_
  refine h.look (fun s s' hs => by rw [hs.flags]) fun _ => ?_
  exact abreast_ite (abreast_bind (h.change (by simp)) fun _ => hrun) hrun

/-- **The engine** goes on in the same way. -/
theorem drain (watched : Bool) : Steady R (Engine.drain watched) := by
  refine abreast_iterate fun outcomes => abreast_bind (h.perform trivial) fun next => ?_
  cases next with
  | none => exact abreast_pure _
  | some i =>
    refine h.look (fun s s' hs => by rw [hs.flags]) fun _ => abreast_ite (abreast_pure _) ?_
    refine h.look (fun s s' hs => by rw [hs.isDone]) fun _ => abreast_ite (abreast_pure _) ?_
    refine abreast_bind (h.execute watched) fun r => ?_
    cases r with
    | error e => exact abreast_bind (h.perform trivial) fun _ => abreast_pure _
    | ok outcome =>
      refine h.look (fun s s' hs => by rw [hs.id]) fun _ => abreast_ite (abreast_pure _) ?_
      exact abreast_bind (h.perform trivial) fun _ => abreast_pure _

end Requests

/-! ### What is asked -/

theorem thenUnit {p p' : Process Unit} (hp : Abreast R p p') : Abreast R p.thenUnit p'.thenUnit :=
  abreast_bind hp fun _ => abreast_pure _

theorem withCursor (plan : CursorPlan) {f f' : Cursor → Process Unit}
    (hf : ∀ c, Abreast R (f c) (f' c)) :
    Abreast R (Request.withCursor plan f) (Request.withCursor plan f') := by
  unfold Request.withCursor
  split
  · exact abreast_pure _
  · exact thenUnit (hf _)

theorem lookId (h : R.Sound) (i : Nat) :
    Steady R (Process.look i >>= fun s => pure (Reply.id s.id)) :=
  h.look (fun s s' hs => by rw [hs.id]) fun _ => abreast_pure _

/-- **Every request** that does not tell the host what to do is carried out abreast. -/
theorem serve (h : R.Sound) (r : Request) (hr : ¬ r.Prepares) : Steady R r.serve := by
  cases r with
  | expect | onCommand | onCallback | onCursor => exact absurd trivial hr
  | write a ws =>
    refine abreast_bind (h.perform trivial) fun r => ?_
    split <;> exact abreast_pure _
  | submit sub p =>
    refine abreast_bind (h.submit rfl rfl (fun _ => h.same _ (by simp)) p) fun r => ?_
    cases r with
    | ok i => exact h.lookId i
    | error e => exact abreast_pure _
  | poolSlot i =>
    exact abreast_bind (h.perform trivial) fun _ => abreast_ite (h.lookId i) (abreast_pure _)
  | pool =>
    exact abreast_bind (h.perform trivial) fun _ => abreast_bind (h.countActive _) fun _ =>
      abreast_pure _
  | resetAll => exact thenUnit (abreast_bind (h.perform trivial) fun _ => h.resetEach _)
  | dequeue =>
    refine abreast_bind (h.perform trivial) fun next => ?_
    cases next with
    | none => exact abreast_pure _
    | some i => exact h.lookId i
  | route external | router | services =>
    exact abreast_bind (h.perform trivial) fun _ => abreast_bind (h.perform trivial) fun _ =>
      abreast_pure _
  | run watched => exact abreast_bind (h.drain watched) fun _ => abreast_pure _
  | execute i => exact abreast_bind (h.execute true) fun _ => abreast_pure _
  | reset i => exact thenUnit h.reset
  | jump i mode arg => exact thenUnit (h.jump mode arg)
  | call i mode arg => exact abreast_bind (h.call mode arg) fun _ => abreast_pure _
  | ret i => exact thenUnit h.ret
  | setStall i a => exact thenUnit (h.setStall (h.same _ (by simp)))
  | setStallWith i a plan lo hi =>
    exact withCursor plan fun c => h.setStallWith (h.same _ (by simp))
  | useCursor i plan => exact withCursor plan fun c => h.change (by simp)
  | waitSignalled i longEnough =>
    refine abreast_bind (h.perform trivial) fun woken => abreast_ite ?_ ?_
    · exact abreast_bind (h.change (by simp)) fun _ => abreast_pure _
    · refine abreast_bind (h.change (by simp)) fun _ => ?_
      by_cases hl : longEnough
      · simp only [hl, if_true]
        exact abreast_bind (h.perform trivial) fun _ => abreast_pure _
      · simp only [hl]
        exact abreast_pure _
  | start i p => exact thenUnit (h.start p)
  | restart i => exact thenUnit h.restart
  | finish i => exact thenUnit h.finish
  | endList i => exact thenUnit h.endList
  | signalCallback i list behavior payload => exact thenUnit (h.signalCallback ..)
  | finishCallback i list arg => exact thenUnit (h.finishCallback ..)
  | access i a => cases a <;> exact abreast_bind (h.access _) fun _ => abreast_pure _
  | isInUse i list stack =>
    exact h.look (fun s s' hs => by rw [hs.isInUse]) fun _ => abreast_pure _
  | status i =>
    refine h.look (fun s s' hs => by rw [hs.status]) fun _ => ?_
    refine h.look (fun s s' hs => by rw [hs.reported]) fun _ => ?_
    exact h.look (fun s s' hs => by rw [hs.pc]) fun _ => abreast_pure _
  | text i => exact h.look (fun s s' hs => by rw [hs.text]) fun _ => abreast_pure _
  | diagnostic i => exact h.look (fun s s' hs => by rw [hs.diagnostic]) fun _ => abreast_pure _
  | _ => exact abreast_bind (h.perform trivial) fun _ => abreast_pure _

theorem serveAll (h : R.Sound) {session session' : List (String × Request)}
    (hs : List.Forall₂ (fun x y => x.1 = y.1 ∧ Abreast R x.2.serve y.2.serve) session session') :
    Abreast R (Request.serveAll session) (Request.serveAll session') := by
  induction hs with
  | nil => exact abreast_pure _
  | @cons x y rest rest' hx _ ih =>
    obtain ⟨name, r⟩ := x
    obtain ⟨name', r'⟩ := y
    obtain ⟨rfl, hr⟩ := hx
    exact abreast_bind hr fun _ => abreast_bind (h.perform trivial) fun _ => ih

end Likeness.Sound

/-! ## Runs -/

/-- What may be said of two front ends is left so by every action and by every report, and the host
goes on in the same way. -/
structure Likeness.Kept (R : Likeness) (F : FrontEnd → FrontEnd → Prop) : Prop where
  perform : ∀ {v w : FrontEnd} {a a' : Action}, F v w → R.acts a a' →
    R.Agree a a' (a.perform v).1 (a'.perform w).1 ∧ F (a.perform v).2 (a'.perform w).2
  tell : ∀ {v w : FrontEnd} (r : Report), F v w →
    Abreast R (Request.serveAll (v.tell r).1) (Request.serveAll (w.tell r).1) ∧
      F (v.tell r).2 (w.tell r).2

namespace Likeness.Kept

variable {α : Type} {R : Likeness} {F : FrontEnd → FrontEnd → Prop} {p p' : Process α}
  {v w : FrontEnd}

/-- **One step** of two processes abreast. -/
theorem next (hk : R.Kept F) (hp : Abreast R p p') (h : F v w) :
    Abreast R (p.next v).1 (p'.next w).1 ∧ F (p.next v).2 (p'.next w).2 := by
  cases hp with
  | done a => exact ⟨.done a, h⟩
  | act ha hk' =>
    obtain ⟨hr, h'⟩ := hk.perform h ha
    exact ⟨hk' _ _ hr, h'⟩
  | report r hp =>
    obtain ⟨hr, h'⟩ := hk.tell r h
    exact ⟨hr.bind fun _ => hp, h'⟩
  | loop s hround hb =>
    refine ⟨(hround s).bind fun x => ?_, h⟩
    cases x with
    | inl s => exact .loop s hround hb
    | inr b => exact hb b

/-- **Two runs** within one budget. -/
theorem run (hk : R.Kept F) (hp : Abreast R p p') (h : F v w) (n : Nat) :
    Option.Rel (fun x y => x.1 = y.1 ∧ F x.2 y.2) (p.run n v) (p'.run n w) := by
  induction n generalizing p p' v w with
  | zero => exact .none
  | succ n ih =>
    have hnext := hk.next hp h
    cases hp with
    | done a => exact .some ⟨rfl, h⟩
    | act => exact ih hnext.1 hnext.2
    | report => exact ih hnext.1 hnext.2
    | loop => exact ih hnext.1 hnext.2

end Likeness.Kept

end DisplayList
