import DisplayList.Proofs.Ending
import DisplayList.Slot.Text

/-!
# Lists as if never submitted

A slot that is reset is meant to look as if nothing had been submitted to it. Most of it does. But a
reset keeps what the last submission and the last moves of the stall address have left, and a
wake-up that nobody has taken.

* `Slot.View`, `Slot.view`: all that can be seen of a slot, the number of cursors found apart;
* `Leftover`, **`Slot.view_reset`**: what a reset keeps, and that nothing else of it is seen;
* `latest`, `Leftover.left`, **`History.leftover_eq`**: what a history leaves;
* **`reset_afresh_iff`**: what is seen after a reset, and the histories after which it is what is
  seen of a new slot.
-/

namespace DisplayList

open Process

/-! ## What is seen of a slot -/

/-- All that can be seen of a slot. -/
structure Slot.View where
  id : Nat
  pc : Address
  list : Address
  stall : Address
  hasStall : Bool
  isStalled : Bool
  isStalledAtStart : Bool
  callbackId : Int32
  params : Option Params
  /-- Whether it keeps a list address and a stack from others. -/
  isInUse : Address → Address → Bool
  save : Address
  depth : Nat
  /-- The calls that it may return from, outermost first. -/
  calls : List Frame
  source : Source
  window : Option Window
  blocked : List UInt32
  flags : Flags
  status : Status
  reported : Status
  isDone : Bool
  /-- What a wait that does not last answers. -/
  awaits : Bool
  text : String
  diagnostic : String

/-- What is seen of a slot. -/
def Slot.view (s : Slot) : View where
  id := s.id
  pc := s.pc
  list := s.list
  stall := s.stall
  hasStall := s.stall != 0
  isStalled := s.isStalled
  isStalledAtStart := s.isStalledAtStart
  callbackId := s.callbackId
  params := s.params
  isInUse := s.isInUse
  save := s.save
  depth := s.calls.depth
  calls := s.calls.toList
  source := s.fetcher.source
  window := s.fetcher.window
  blocked := s.blocked
  flags := s.flags
  status := s.status
  reported := s.reported
  isDone := s.isDone
  awaits := s.wake.take.1
  text := s.text
  diagnostic := s.diagnostic

/-! ## What a reset keeps -/

/-- What a reset keeps of a slot. -/
structure Leftover where
  list : Address := 0
  stall : Address := 0
  callbackId : Int32 := 0
  params : Option Params := none
  pending : Bool := false
  deriving DecidableEq

/-- What a reset would keep. -/
def Slot.leftover (s : Slot) : Leftover :=
  ⟨s.list, s.stall, s.callbackId, s.params, s.wake.pending⟩

/-- The slot with something left over in it. -/
def Slot.withLeftover (s : Slot) (l : Leftover) : Slot :=
  { s with
    list := l.list
    stall := l.stall
    callbackId := l.callbackId
    params := l.params
    wake := ⟨l.pending⟩ }

/-- **A reset keeps nothing else that is seen.** -/
theorem Slot.view_reset (s : Slot) :
    s.reset.view = ((Slot.new s.id).withLeftover s.leftover).view := rfl

theorem Slot.view_withLeftover_iff {id : Nat} {l : Leftover} :
    ((Slot.new id).withLeftover l).view = (Slot.new id).view ↔ l = {} := by
  constructor
  · intro h
    have hlist : l.list = 0 := congrArg View.list h
    have hstall : l.stall = 0 := congrArg View.stall h
    have hcallback : l.callbackId = 0 := congrArg View.callbackId h
    have hparams : l.params = none := congrArg View.params h
    have hpending : l.pending = false := congrArg View.awaits h
    obtain ⟨list, stall, callbackId, params, pending⟩ := l
    cases hlist
    cases hstall
    cases hcallback
    cases hparams
    cases hpending
    rfl
  · rintro rfl
    rfl

/-! ## What a history leaves -/

/-- What a submission, a new stall address and a change of the wake-up leave, each if there was
one. -/
def Leftover.after (l : Leftover) (sub? : Option Submission) (stall? : Option Address)
    (pending? : Option Bool) : Leftover where
  list := sub?.elim l.list fun sub => Address.aligned sub.list
  stall := stall?.elim l.stall Address.aligned
  callbackId := sub?.elim l.callbackId Submission.callbackId
  params := sub?.elim l.params Submission.params
  pending := pending?.getD l.pending

theorem Leftover.after_after (l : Leftover) (sub? sub?' : Option Submission)
    (stall? stall?' : Option Address) (pending? pending?' : Option Bool) :
    (l.after sub? stall? pending?).after sub?' stall?' pending?' =
      l.after (sub?'.or sub?) (stall?'.or stall?) (pending?'.or pending?) := by
  cases sub?' <;> cases stall?' <;> cases pending?' <;> rfl

theorem Slot.leftover_moveStall (s : Slot) (a : Address) :
    (s.moveStall a).2.leftover = s.leftover.after none (some a) none := by
  unfold Slot.moveStall
  dsimp only
  split
  next h =>
    rw [Leftover.after, Option.elim_some, ← h]
    rfl
  next => rfl

namespace Change

/-- The submission that the slot is made ready for. -/
def submission? : Change → Option Submission
  | init sub => some sub
  | _ => none

/-- The stall address that is set, with a submission or without. -/
def stall? : Change → Option Address
  | init sub => some sub.stall
  | moveStall a | moveStallWith a _ => some a
  | _ => none

/-- Whether a wake-up is pending afterwards, if that is decided. -/
def pending? : Change → Option Bool
  | init _ => some false
  | postWake => some true
  | _ => none

/-- **What a change makes of what a reset would keep.** -/
theorem leftover_perform (c : Change) (s : Slot) :
    (c.perform s).2.leftover = s.leftover.after c.submission? c.stall? c.pending? := by
  have hbranch : c.Branches → (c.perform s).2.leftover = s.leftover := fun hc =>
    hc.keeps (f := Slot.leftover) (fun _ _ _ _ => rfl) s
  cases c with
  | init sub =>
    change Slot.leftover { Slot.moveTo _ _ with status := _, flags := _, wake := _ } = _
    obtain ⟨fetcher, hm⟩ := Slot.moveTo_frame _ _
    rw [hm]
    rfl
  | moveTo | call | ret => exact hbranch trivial
  | moveStall a => exact s.leftover_moveStall a
  | moveStallWith a w => exact s.leftover_moveStall a
  | _ => rfl

end Change

namespace Move

/-- The change that is made to the list at position `i`. -/
def change? (i : Nat) : Move → Option Change
  | .act (.change j c) _ => if j = i then some c else none
  | _ => none

/-- The submission that the list at position `i` is made ready for. -/
def submission? (i : Nat) (m : Move) : Option Submission :=
  (m.change? i).bind Change.submission?

/-- The stall address that the list at position `i` gets. -/
def stall? (i : Nat) (m : Move) : Option Address :=
  (m.change? i).bind Change.stall?

/-- Whether a wake-up for the list at position `i` is pending afterwards, if that is decided: one
was posted, or it was taken or dropped. -/
def pending? (i : Nat) : Move → Option Bool
  | .act (.await j) _ => if j = i then some false else none
  | m => (m.change? i).bind Change.pending?

variable {i : Nat} {m : Move}

theorem leftover_after (hi : i < m.before.slots.size) : (m.after.slot i).leftover =
    (m.before.slot i).leftover.after (m.submission? i) (m.stall? i) (m.pending? i) := by
  cases m with
  | report r w => exact congrArg Slot.leftover (FrontEnd.slot_tell w i r)
  | act a w =>
    have hslot : (a.perform w).2.slot i = a.onto i w.memory (w.slot i) :=
      (Action.slot_perform a w i).trans (if_pos hi)
    change ((a.perform w).2.slot i).leftover = (w.slot i).leftover.after _ _ _
    rw [hslot]
    cases a with
    | change j c =>
      rw [Action.onto_change]
      by_cases hj : j = i
      · simp only [submission?, stall?, pending?, change?, if_pos hj]
        exact c.leftover_perform _
      · simp only [submission?, stall?, pending?, change?, if_neg hj]
        rfl
    | await j =>
      unfold Action.onto
      dsimp only
      by_cases hj : j = i
      · simp only [submission?, stall?, pending?, change?, if_pos hj]
        rfl
      · simp only [submission?, stall?, pending?, change?, if_neg hj]
        rfl
    | access j a =>
      obtain ⟨pc, fetcher, hm⟩ := (w.slot i).tryAccess_frame w.memory a
      unfold Action.onto
      dsimp only
      split
      · rw [hm]
        rfl
      · rfl
    | accessWith j address c a =>
      obtain ⟨pc, fetcher, hm⟩ := (w.slot i).accessWith_frame w.memory address c a
      unfold Action.onto
      dsimp only
      split
      · rw [hm]
        rfl
      · rfl
    | _ => rfl

end Move

/-- What was last told of by the moves of a history, if any has. -/
def latest {α β : Type} (f : α → Option β) (t : List α) : Option β :=
  t.reverse.findSome? f

theorem latest_concat {α β : Type} (f : α → Option β) (t : List α) (x : α) :
    latest f (t ++ [x]) = (f x).or (latest f t) := by
  rw [latest, List.reverse_append, List.reverse_singleton, List.singleton_append,
    List.findSome?_cons]
  cases f x <;> rfl

/-- What a history leaves of the list at position `i`: what it was last submitted with, the stall
address that was set last, and a wake-up that was posted and not taken or dropped since. -/
def Leftover.left (i : Nat) (t : List Move) : Leftover :=
  ({} : Leftover).after (latest (Move.submission? i) t) (latest (Move.stall? i) t)
    (latest (Move.pending? i) t)

theorem left_concat (i : Nat) (t : List Move) (m : Move) : Leftover.left i (t ++ [m]) =
    (Leftover.left i t).after (m.submission? i) (m.stall? i) (m.pending? i) := by
  unfold Leftover.left
  rw [Leftover.after_after, latest_concat, latest_concat, latest_concat]

variable {w v : FrontEnd} {t : List Move} {i : Nat}

/-- **What a reset would keep after a history** is what the history leaves. -/
theorem History.leftover_eq (hfresh : w.Fresh) (h : History w t v) (hi : i < w.slots.size) :
    (v.slot i).leftover = Leftover.left i t := by
  induction h with
  | nil =>
    obtain ⟨id, hid⟩ := hfresh i
    rw [hid]
    rfl
  | @snoc t m h ih =>
    have hi' : i < m.before.slots.size := h.size.symm ▸ hi
    rw [left_concat, ← ih, Move.leftover_after hi']

theorem History.id (h : History w t v) (i : Nat) : (v.slot i).id = (w.slot i).id := by
  induction h with
  | nil => rfl
  | @snoc t m h ih =>
    cases m with
    | act a u => exact (id_anybody (.act trivial u) i).trans ih
    | report r u => exact (id_anybody (.tell r u) i).trans ih

/-! ## After a reset -/

/-- A history leaves nothing: the last submission was one at address zero, without callback and
parameters, if there was any; the stall address that was set last is zero; and no wake-up is
pending. -/
theorem left_eq_empty_iff : Leftover.left i t = {} ↔
    (∀ sub, latest (Move.submission? i) t = some sub →
      Address.aligned sub.list = 0 ∧ sub.callbackId = 0 ∧ sub.params = none) ∧
    (∀ a, latest (Move.stall? i) t = some a → Address.aligned a = 0) ∧
    latest (Move.pending? i) t ≠ some true := by
  unfold Leftover.left Leftover.after
  rw [Leftover.mk.injEq]
  cases latest (Move.submission? i) t <;> cases latest (Move.stall? i) t <;>
    cases latest (Move.pending? i) t <;> simp <;> tauto

theorem gives_reset_view (hfresh : w.Fresh) (h : History w t v) (hi : i < w.slots.size) :
    ∃ u, Gives (Operation.reset i) v () u ∧
      (u.slot i).view = ((Slot.new (w.slot i).id).withLeftover (Leftover.left i t)).view := by
  have hi' : i < v.slots.size := h.size.symm ▸ hi
  have hgives : Gives (Operation.reset i) v ()
      (((Action.change i .reset).perform v).2.notify i .reset) :=
    Gives.perform (Gives.act (gives_done _ _))
  have hslot : (((Action.change i .reset).perform v).2.notify i .reset).slot i =
      (v.slot i).reset := by
    rw [FrontEnd.slot_congr _ i (FrontEnd.slots_notify _ _ _), Action.slot_perform, if_pos hi',
      Action.onto_change, if_pos rfl]
    rfl
  refine ⟨_, hgives, ?_⟩
  rw [hslot, Slot.view_reset, h.leftover_eq hfresh hi, h.id i]

/-- **What is seen after a reset.** Whatever was done to the lists of a front end, and by whomever,
a reset comes to its end; and then a list is seen like a new slot in which the history has left what
it was last submitted with, the stall address that was set last and a wake-up that nobody has taken.
So it is seen like a new slot exactly if the history leaves nothing. -/
theorem reset_afresh_iff (hfresh : w.Fresh) (h : History w t v) (hi : i < w.slots.size) :
    ∃ u, Gives (Operation.reset i) v () u ∧
      (u.slot i).view = ((Slot.new (w.slot i).id).withLeftover (Leftover.left i t)).view ∧
      ((u.slot i).view = (Slot.new (w.slot i).id).view ↔
        (∀ sub, latest (Move.submission? i) t = some sub →
          Address.aligned sub.list = 0 ∧ sub.callbackId = 0 ∧ sub.params = none) ∧
        (∀ a, latest (Move.stall? i) t = some a → Address.aligned a = 0) ∧
        latest (Move.pending? i) t ≠ some true) := by
  obtain ⟨u, hgives, hview⟩ := gives_reset_view hfresh h hi
  refine ⟨u, hgives, hview, ?_⟩
  rw [hview, Slot.view_withLeftover_iff, left_eq_empty_iff]

theorem size_frontEnd : 0 < (Replay.frontEnd {}).slots.size := by
  simp [Replay.frontEnd]

/-- A list at address zero has been submitted. -/
def listAtZero : FrontEnd :=
  ((Action.change 0 (.init ⟨2, 0, 0, none⟩)).perform (Replay.frontEnd {})).2

/-- And a wake-up was posted for it. -/
def listAtZeroWoken : FrontEnd :=
  ((Action.change 0 .postWake).perform listAtZero).2

/-- A list at address zero is submitted and woken, and somebody takes the wake-up. -/
def atZero : List Move :=
  [.act (.change 0 (.init ⟨2, 0, 0, none⟩)) (Replay.frontEnd {}),
    .act (.change 0 .postWake) listAtZero, .act (.await 0) listAtZeroWoken]

theorem reset_afresh_iff_atZero :
    let v := ((Action.await 0).perform listAtZeroWoken).2
    (Replay.frontEnd {}).Fresh ∧ History (Replay.frontEnd {}) atZero v ∧
      0 < (Replay.frontEnd {}).slots.size ∧
      ∃ u, Gives (Operation.reset 0) v () u ∧
        (u.slot 0).view = (Slot.new ((Replay.frontEnd {}).slot 0).id).view := by
  intro v
  have hfresh : (Replay.frontEnd {}).Fresh := FrontEnd.fresh_of_slots rfl
  have hhistory : History (Replay.frontEnd {}) atZero v :=
    .snoc (m := .act _ _) (.snoc (m := .act _ _) (.snoc (m := .act _ _) .nil))
  obtain ⟨u, hgives, -, hview⟩ := reset_afresh_iff hfresh hhistory size_frontEnd
  have hsub : latest (Move.submission? 0) atZero = some ⟨2, 0, 0, none⟩ := rfl
  have hstall : latest (Move.stall? 0) atZero = some 0 := rfl
  have hpending : latest (Move.pending? 0) atZero = some false := rfl
  refine ⟨hfresh, hhistory, size_frontEnd, u, hgives, hview.2 ⟨?_, ?_, ?_⟩⟩
  · intro sub h
    cases hsub.symm.trans h
    exact ⟨by decide, rfl, rfl⟩
  · intro a h
    cases hstall.symm.trans h
    decide
  · rw [hpending]
    decide

/-- A list that stalls after its first word, with a callback and a stack of its own. -/
def stackedList : Submission :=
  ⟨0x08800000, 0x08800004, 7, some ⟨1, 2, 0x09000000⟩⟩

/-- It has been submitted. -/
def stackedListQueued : FrontEnd :=
  ((Action.change 0 (.init stackedList)).perform (Replay.frontEnd {})).2

/-- It is submitted and woken. -/
def stackedWoken : List Move :=
  [.act (.change 0 (.init stackedList)) (Replay.frontEnd {}),
    .act (.change 0 .postWake) stackedListQueued]

/-- **A reset leaves the addresses of the last submission**, its callback and its parameters, and
the wake-up. -/
theorem reset_leaves_submission :
    let v := ((Action.change 0 .postWake).perform stackedListQueued).2
    History (Replay.frontEnd {}) stackedWoken v ∧ ∃ u, Gives (Operation.reset 0) v () u ∧
      (u.slot 0).list = 0x08800000 ∧ (u.slot 0).stall = 0x08800004 ∧
      (u.slot 0).callbackId = 7 ∧ (u.slot 0).params = some ⟨1, 2, 0x09000000⟩ ∧
      (u.slot 0).wake.take.1 = true ∧
      (u.slot 0).view ≠ (Slot.new ((Replay.frontEnd {}).slot 0).id).view := by
  intro v
  have hfresh : (Replay.frontEnd {}).Fresh := FrontEnd.fresh_of_slots rfl
  have hhistory : History (Replay.frontEnd {}) stackedWoken v :=
    .snoc (m := .act _ _) (.snoc (m := .act _ _) .nil)
  obtain ⟨u, hgives, hview⟩ := gives_reset_view hfresh hhistory size_frontEnd
  refine ⟨hhistory, u, hgives, congrArg Slot.View.list hview, congrArg Slot.View.stall hview,
    congrArg Slot.View.callbackId hview, congrArg Slot.View.params hview,
    congrArg Slot.View.awaits hview, fun h => ?_⟩
  rw [hview, Slot.view_withLeftover_iff] at h
  have hlist : (0x08800000 : Address) = 0 := congrArg Leftover.list h
  exact absurd hlist (by decide)

end DisplayList
